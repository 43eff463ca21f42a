import BlockAudit.Proofs.Trie.Message
import BlockAudit.Proofs.Trie.Tree

/-! The fields of a node made of a path, a value and two children. -/
namespace BlockAudit.Trie.Node

variable (path : BitPath) (value : Option Bytes) (left right : Child)

theorem ofParts_eq :
    ofParts path value left right =
      { path := path
        value := value.filter fun v => !v.isEmpty
        valueLength := .ofNat ((value.filter fun v => !v.isEmpty).getD []).length
        valueHash :=
          ((value.filter fun v => !v.isEmpty).filter fun v => v.length > maxInlineValue).map keccak
        childrenSize :=
          if left.isAbsent && right.isAbsent then none
          else some (left.written.size + right.written.size)
        left := left
        right := right } := by
  cases left <;> cases right <;> rfl

@[simp] theorem path_ofParts : (ofParts path value left right).path = path := by
  rw [ofParts_eq]

@[simp] theorem left_ofParts : (ofParts path value left right).left = left := by
  rw [ofParts_eq]

@[simp] theorem right_ofParts : (ofParts path value left right).right = right := by
  rw [ofParts_eq]

/-- The hash of a value is kept where the value is too long for the node. -/
theorem valueHash_eq_map_keccak :
    (ofParts path value left right).valueHash =
      ((ofParts path value left right).value.filter fun v => v.length > maxInlineValue).map
        keccak := by
  rw [ofParts_eq]

/-- The length of the value is recorded whether it is kept in the node or not. -/
theorem valueLength_eq_length :
    (ofParts path value left right).valueLength =
      .ofNat ((ofParts path value left right).value.getD []).length := by
  rw [ofParts_eq]

theorem isTerminal_ofParts :
    (ofParts path value left right).isTerminal = (left.isAbsent && right.isAbsent) := by
  rw [ofParts_eq]
  cases left <;> cases right <;> rfl

theorem isNone_childrenSize_ofParts :
    (ofParts path value left right).childrenSize.isNone =
      (ofParts path value left right).isTerminal := by
  rw [isTerminal_ofParts, ofParts_eq]
  cases left <;> cases right <;> rfl

section Value

variable {value}

private theorem filter_of_ne_nil (hv : ∀ v ∈ value, v ≠ []) :
    value.filter (fun v => !v.isEmpty) = value := by
  cases value with
  | none => rfl
  | some v => simp [hv v rfl]

theorem value_ofParts (hv : ∀ v ∈ value, v ≠ []) :
    (ofParts path value left right).value = value := by
  rw [ofParts_eq, filter_of_ne_nil hv]

theorem valueLength_ofParts (hv : ∀ v ∈ value, v ≠ []) :
    (ofParts path value left right).valueLength = .ofNat (value.getD []).length := by
  rw [ofParts_eq, filter_of_ne_nil hv]

/-- Only a long value is kept outside the node. -/
theorem valueHash_ofParts (hv : ∀ v ∈ value, v ≠ []) :
    (ofParts path value left right).valueHash =
      value.bind fun v => if v.length ≤ maxInlineValue then none else some (keccak v) := by
  rw [ofParts_eq, filter_of_ne_nil hv]
  cases value with
  | none => rfl
  | some v =>
    by_cases hshort : v.length ≤ maxInlineValue
    · simp [hshort]
    · simp [hshort, Nat.lt_of_not_le hshort]

theorem length_value_ofParts_le (hv : ∀ v ∈ value, v ≠ [])
    (h : (ofParts path value left right).valueHash = none) :
    ((ofParts path value left right).value.getD []).length ≤ maxInlineValue := by
  rw [valueHash_ofParts path left right hv] at h
  rw [value_ofParts path left right hv]
  cases value with
  | none => simp
  | some v => simpa using h

end Value

end BlockAudit.Trie.Node
