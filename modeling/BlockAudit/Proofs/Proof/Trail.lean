import BlockAudit.Proofs.Proof.Walk
import BlockAudit.Proofs.Trie.Cursor

/-!
The walk as a loop with a cursor into the whole key. Whatever the messages refer to, themselves included,
every round that goes on takes a bit of the key, so that the rounds are at most one more than the bits, and
the cursor stays within the key.
-/
namespace BlockAudit.Proof

open Trie

section Round

variable (messages : Hash → Option Bytes) (key : BitPath)

/-- All rounds of a walk, each with the position at its beginning, and the result of the last one. -/
inductive Run : Position → List Position → Except ProofError Lookup → Prop where
  | ended {position : Position} {result : Except ProofError Lookup}
      (h : round? messages key position = some (.ended result)) : Run position [position] result
  | onward {position next : Position} {trail : List Position} {result : Except ProofError Lookup}
      (h : round? messages key position = some (.onward next)) (hrest : Run next trail result) :
      Run position (position :: trail) result

end Round

variable {messages : Hash → Option Bytes} {key rest : BitPath} {node : Node} {cursor : Nat}

theorem descend_eq_follow (child : Child) :
    descend messages child rest =
      match follow messages child with
      | .error error => .error error
      | .ok none => .ok .notFound
      | .ok (some node) => walk messages node rest := by
  cases child with
  | absent => rfl
  | inMemory label left right => rfl
  | hashed hash =>
    cases hfound : resolve messages hash with
    | error error => simp only [descend, follow, hfound, error_bind]
    | ok found =>
      cases found with
      | none => simp only [descend, follow, hfound, ok_bind, throw_eq_error]
      | some node => simp only [descend, follow, hfound, ok_bind, pure_eq_ok]

theorem occursAt_iff (hle : cursor + node.path.length ≤ key.length) :
    node.path.occursAt key cursor ↔ node.path <+: key.drop cursor := by
  simp [BitPath.occursAt, hle]

/-- The key from the cursor on meets a path as the rest of the key does: the walk ends with the same
result, or it goes on behind at least one more bit of the key. -/
theorem meet?_cases (messages : Hash → Option Bytes) (node : Node) (hle : cursor ≤ key.length) :
    meet? key node cursor = some (.ended (walk messages node (key.drop cursor))) ∨
      ∃ next, meet? key node cursor = some (.onward next) ∧ cursor < next.cursor ∧
        next.cursor ≤ key.length ∧
        walk messages node (key.drop cursor) =
          descend messages next.child (key.drop next.cursor) := by
  have hlength : (key.drop cursor).length = key.length - cursor := List.length_drop
  unfold meet?
  rw [if_neg (Nat.not_lt.mpr hle)]
  rcases key_cases node.path (key.drop cursor) with hshort | ⟨hlong, hp⟩ | hend | ⟨bit, rest, hbit⟩
  · left
    rw [walk_of_short hshort, hlength, if_pos (by omega)]
  · left
    have hnot : ¬ node.path.occursAt key cursor := mt (occursAt_iff (by omega)).mp hp
    rw [walk_of_left hlong hp, if_neg (by omega), if_pos (by simpa using hnot)]
  · left
    have hat := congrArg List.length hend
    have hoccurs : node.path.occursAt key cursor := (occursAt_iff (by omega)).mpr (hend ▸ List.prefix_rfl)
    obtain ⟨e, he⟩ := BitPath.get_of_drop_eq hend
    rw [if_neg (by omega), if_neg (by simpa using hoccurs), he, hend, walk_path]
  · right
    have hat := congrArg List.length hbit
    rw [List.length_append, List.length_cons] at hat
    have hoccurs : node.path.occursAt key cursor :=
      (occursAt_iff (by omega)).mpr (hbit ▸ List.prefix_append _ _)
    have hget := BitPath.get_of_drop_eq_append bit hbit
    have hrest := BitPath.drop_of_drop_eq_append bit hbit
    refine ⟨⟨node.child bit, cursor + node.path.length + 1⟩, ?_, ?_, ?_, ?_⟩
    · rw [if_neg (by omega), if_neg (by simpa using hoccurs), hget]
    · dsimp only
      omega
    · dsimp only
      omega
    · dsimp only
      rw [hbit, hrest, walk_append_cons]

/-- A round from within the key ends the walk with its result, or takes the walk to a later position within
the key. -/
theorem round?_cases (messages : Hash → Option Bytes) {position : Position}
    (hle : position.cursor ≤ key.length) :
    round? messages key position =
        some (.ended (descend messages position.child (key.drop position.cursor))) ∨
      ∃ next, round? messages key position = some (.onward next) ∧
        position.cursor < next.cursor ∧ next.cursor ≤ key.length ∧
        descend messages position.child (key.drop position.cursor) =
          descend messages next.child (key.drop next.cursor) := by
  rw [round?, descend_eq_follow]
  cases follow messages position.child with
  | error error => exact .inl rfl
  | ok found =>
    cases found with
    | none => exact .inl rfl
    | some node => exact meet?_cases messages node hle

/-- From within the key a walk comes to its result in as many rounds as there are bits left, and one, and
never leaves the key. -/
theorem exists_run (messages : Hash → Option Bytes) {position : Position}
    (hle : position.cursor ≤ key.length) :
    ∃ trail, Run messages key position trail
        (descend messages position.child (key.drop position.cursor)) ∧
      trail.length ≤ key.length - position.cursor + 1 ∧ ∀ p ∈ trail, p.cursor ≤ key.length := by
  induction hn : key.length - position.cursor using Nat.strongRecOn generalizing position with
  | ind n ih =>
    subst hn
    rcases round?_cases messages hle with hended | ⟨next, hnext, hlt, hle_next, hsame⟩
    · refine ⟨[position], .ended hended, ?_, ?_⟩
      · simp
      · simpa using hle
    · obtain ⟨trail, hrun, hlength, hwithin⟩ := ih (key.length - next.cursor) (by omega) hle_next rfl
      refine ⟨position :: trail, ?_, ?_, ?_⟩
      · rw [hsame]
        exact .onward hnext hrun
      · rw [List.length_cons]
        omega
      · exact List.forall_mem_cons.mpr ⟨hle, hwithin⟩

/-- A look-up for which there is a message of the root is a run of the walk. It comes to its result within
one round more than the key has bits, at most one node in each, and no cursor on its way is behind the end of
the key. Without such a message, no node is looked at. -/
theorem lookup_runs (index : Index) (root : Hash) (key : Bytes) :
    (index.get? root = none ∧
        index.lookup root key = .error (if index.isEmpty then .emptyProof else .rootNotFound root)) ∨
      ∃ trail, Run index.get? (BitPath.ofBytes key) ⟨.hashed root, 0⟩ trail (index.lookup root key) ∧
        trail.length ≤ 8 * key.length + 1 ∧ ∀ p ∈ trail, p.cursor ≤ 8 * key.length := by
  cases hfound : index.get? root with
  | none =>
    left
    refine ⟨rfl, ?_⟩
    unfold Index.lookup
    split
    · rfl
    · rw [resolve_of_none hfound]
      rfl
  | some message =>
    right
    have hstart : (⟨.hashed root, 0⟩ : Position).cursor ≤ (BitPath.ofBytes key).length :=
      Nat.zero_le _
    obtain ⟨trail, hrun, hlength, hwithin⟩ := exists_run index.get? hstart
    rw [BitPath.length_ofBytes] at hlength hwithin
    rw [lookup_of_some hfound]
    exact ⟨trail, hrun, hlength, hwithin⟩

end BlockAudit.Proof
