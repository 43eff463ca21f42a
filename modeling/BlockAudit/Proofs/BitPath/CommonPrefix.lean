import BlockAudit.Proofs.BitPath
import Mathlib.Order.Bounds.Defs

/-!
The bits on which two paths agree, each from an offset of its own. They are as many as there are, and where
they end the paths part.
-/
namespace BlockAudit.BitPath

variable {a b : BitPath} {i j : Nat}

/-- From bit `i` of `a` and from bit `j` of `b`, the next `count` bits are there and the same. -/
def AgreeFrom (a : BitPath) (i : Nat) (b : BitPath) (j count : Nat) : Prop :=
  ∀ k < count, ∃ bit, a.get (i + k) = .ok bit ∧ b.get (j + k) = .ok bit

theorem get_eq_ok_iff {path : BitPath} {bit : Bool} : path.get i = .ok bit ↔ path[i]? = some bit := by
  unfold get
  cases path[i]? with
  | none => simp
  | some other => simp

theorem agreeFrom_iff {count : Nat} :
    AgreeFrom a i b j count ↔
      ∀ k < count, ∃ bit, (a.drop i)[k]? = some bit ∧ (b.drop j)[k]? = some bit := by
  unfold AgreeFrom
  simp only [get_eq_ok_iff, List.getElem?_drop]

theorem Parted.symm (h : Parted a b) : Parted b a := by
  intro bit hb ha
  exact h bit ha hb

theorem parted_iff :
    Parted a b ↔ a = [] ∨ b = [] ∨ ∃ bit, a.head? = some bit ∧ b.head? = some !bit := by
  cases a with
  | nil => simp [Parted]
  | cons x a =>
    cases b with
    | nil => simp [Parted]
    | cons y b =>
      rw [parted_cons_cons]
      cases x <;> cases y <;> simp

theorem commonPrefixLength_comm (a b : BitPath) : commonPrefixLength a b = commonPrefixLength b a := by
  obtain ⟨front, p, q, rfl, rfl, hparted⟩ := exists_common_front a b
  rw [commonPrefixLength_append front hparted, commonPrefixLength_append front hparted.symm]

/-- A path is a prefix of another exactly if they agree on all of it. -/
theorem prefix_iff_commonPrefixLength_eq : a <+: b ↔ commonPrefixLength a b = a.length := by
  obtain ⟨front, p, q, rfl, rfl, hparted⟩ := exists_common_front a b
  rw [commonPrefixLength_append front hparted, List.prefix_append_right_inj, List.length_append]
  constructor
  · intro h
    obtain ⟨rest, rfl⟩ := h
    cases p with
    | nil => rfl
    | cons bit p => simp at hparted
  · intro h
    have hp : p = [] := List.length_eq_zero_iff.mp (by omega)
    rw [hp]
    exact List.nil_prefix

/-- Paths that are cut behind the bits on which they agree have the same front and part after it. -/
theorem exists_cut (a : BitPath) (i : Nat) (b : BitPath) (j : Nat) :
    ∃ front p q, a.drop i = front ++ p ∧ b.drop j = front ++ q ∧
      front.length = commonPrefixLengthAt a i b j ∧ Parted p q := by
  obtain ⟨front, p, q, ha, hb, hparted⟩ := exists_common_front (a.drop i) (b.drop j)
  refine ⟨front, p, q, ha, hb, ?_, hparted⟩
  rw [commonPrefixLengthAt, ha, hb, commonPrefixLength_append front hparted]

theorem getElem?_append_length (front rest : BitPath) : (front ++ rest)[front.length]? = rest.head? := by
  rw [List.getElem?_append_right (Nat.le_refl _), Nat.sub_self, List.head?_eq_getElem?]

theorem isGreatest_commonPrefixLengthAt (a : BitPath) (i : Nat) (b : BitPath) (j : Nat) :
    IsGreatest {count | AgreeFrom a i b j count} (commonPrefixLengthAt a i b j) := by
  obtain ⟨front, p, q, ha, hb, hlength, hparted⟩ := exists_cut a i b j
  rw [← hlength]
  constructor
  · apply agreeFrom_iff.mpr
    intro k hk
    rw [ha, hb, List.getElem?_append_left hk, List.getElem?_append_left hk]
    exact ⟨front[k], List.getElem?_eq_getElem hk, List.getElem?_eq_getElem hk⟩
  · intro count hcount
    by_contra hlt
    -- The bit after the front would be the same on both sides.
    obtain ⟨bit, hbit_a, hbit_b⟩ := agreeFrom_iff.mp hcount front.length (Nat.lt_of_not_le hlt)
    rw [ha, getElem?_append_length] at hbit_a
    rw [hb, getElem?_append_length] at hbit_b
    exact hparted bit hbit_a hbit_b

theorem occursAt_eq (a b : BitPath) (j : Nat) :
    a.occursAt b j = (j + a.length ≤ b.length && commonPrefixLengthAt a 0 b j == a.length) := by
  have hagree : a.isPrefixOf (b.drop j) = (commonPrefixLengthAt a 0 b j == a.length) := by
    apply Bool.eq_iff_iff.mpr
    rw [List.isPrefixOf_iff_prefix, prefix_iff_commonPrefixLength_eq, beq_iff_eq]
    rfl
  rw [occursAt, hagree]

theorem occursAt_iff_exists :
    a.occursAt b j = true ↔ ∃ front rest, front.length = j ∧ b = front ++ (a ++ rest) := by
  rw [occursAt, Bool.and_eq_true, decide_eq_true_eq, List.isPrefixOf_iff_prefix]
  constructor
  · intro h
    obtain ⟨hle, rest, hrest⟩ := h
    refine ⟨b.take j, rest, ?_, ?_⟩
    · rw [List.length_take]
      omega
    · rw [hrest, List.take_append_drop]
  · intro h
    obtain ⟨front, rest, rfl, rfl⟩ := h
    constructor
    · rw [List.length_append, List.length_append]
      omega
    · rw [List.drop_left]
      exact List.prefix_append a rest

/-- The common length at two offsets is the largest number of bits that are there and the same on both
sides, whichever side is named first. A path occurs at an offset if as many bits as it has agree there, which
is if it stands there in full. Behind the common bits the two sides part. -/
theorem commonPrefixLengthAt_isLongest (a b : BitPath) (i j : Nat) :
    let common := commonPrefixLengthAt a i b j
    IsGreatest {count | AgreeFrom a i b j count} common ∧
      (a.length ≤ i ∨ b.length ≤ j → common = 0) ∧
      commonPrefixLengthAt b j a i = common ∧
      (a.occursAt b j = (j + a.length ≤ b.length && commonPrefixLengthAt a 0 b j == a.length)) ∧
      (a.occursAt b j = true ↔ ∃ front rest, front.length = j ∧ b = front ++ (a ++ rest)) ∧
      ∃ front p q, a.drop i = front ++ p ∧ b.drop j = front ++ q ∧ front.length = common ∧
        (p = [] ∨ q = [] ∨ ∃ bit, p.head? = some bit ∧ q.head? = some !bit) := by
  intro common
  refine ⟨isGreatest_commonPrefixLengthAt a i b j, fun hpast => ?_, commonPrefixLength_comm _ _,
    occursAt_eq a b j, occursAt_iff_exists, ?_⟩
  · change commonPrefixLength (a.drop i) (b.drop j) = 0
    rcases hpast with h | h
    · rw [List.drop_eq_nil_of_le h]
      rfl
    · rw [commonPrefixLength_comm, List.drop_eq_nil_of_le h]
      rfl
  · obtain ⟨front, p, q, ha, hb, hlength, hparted⟩ := exists_cut a i b j
    exact ⟨front, p, q, ha, hb, hlength, parted_iff.mp hparted⟩

example : commonPrefixLengthAt (ofBytes [0x6c]) 1 [true, true, false, true, false] 0 = 4 := by decide

end BlockAudit.BitPath
