import BlockAudit.Proofs.Proof.Soundness
import BlockAudit.Proofs.Trie.Stores

/-!
Two proofs under one root. The messages of a proof are also where its long values come from, so
every node is read with a store of the prover's making; still neither the way of the walk nor its
verdict can depend on it.
-/
namespace BlockAudit.Proof

open Trie

/-- The same answer, or one that has the bytes of the value whose hash the other has. -/
def Lookup.Refines (a b : Lookup) : Prop :=
  a = b ∨ ∃ hash length v, a = .foundHashed hash length ∧ b = .found v ∧ keccak v = hash

variable {s t : Hash → Option Bytes}

/-- Answers at the same place, found with two stores. -/
inductive Lookup.Alike (s t : Hash → Option Bytes) : Lookup → Lookup → Prop where
  | notFound : Alike s t .notFound .notFound
  | ofLabel {a b : Label} (h : a.Alike s t b) : Alike s t (.ofLabel a) (.ofLabel b)

/-- What became of a second walk: it ended alike, or it lacked a message that the first one had. -/
def Follows (s t : Hash → Option Bytes) (a : Lookup) (other : Except ProofError Lookup) : Prop :=
  (∃ b, other = .ok b ∧ a.Alike s t b) ∨
    ∃ hash m, s hash = some m ∧ t hash = none ∧ other = .error (.missingNode hash)

/-- The stores have no different messages under one hash. -/
def Compatible (s t : Hash → Option Bytes) : Prop :=
  ∀ hash m m', s hash = some m → t hash = some m' → m = m'

private theorem descend_follows (hst : Compatible s t) {key : BitPath} {x : Lookup}
    (hwalk : ∀ {a b : Node}, a.Alike s t b → walk s a key = .ok x → Follows s t x (walk t b key))
    {a b : Child} (hab : a.Alike s t b) (h : descend s a key = .ok x) :
    Follows s t x (descend t b key) := by
  cases hab with
  | absent =>
    cases h
    exact .inl ⟨_, rfl, .notFound⟩
  | inMemory hlabel hleft hright => exact hwalk ⟨hlabel, hleft, hright⟩ h
  | hashed hash =>
    obtain ⟨m, a, hm, hread, h⟩ := descend_hashed_eq_ok_iff.mp h
    cases hm' : t hash with
    | none =>
      refine .inr ⟨hash, m, hm, hm', ?_⟩
      simp only [descend, resolve_of_none hm']
    | some m' =>
      obtain rfl := hst hash m m' hm hm'
      have halike := Node.ofMessage_alike s t m
      rw [hread] at halike
      cases hread' : Node.ofMessage t m with
      | error e =>
        rw [hread'] at halike
        exact absurd halike id
      | ok b =>
        rw [hread'] at halike
        have hstep : descend t (.hashed hash) key = walk t b key := by
          simp only [descend, resolve_of_some hm', hread', mapError_ok, Except.map]
        rw [hstep]
        exact hwalk halike h

/-- A walk with a second store over nodes alike follows the first one. -/
theorem walk_follows (hst : Compatible s t) {a b : Node} (hab : a.Alike s t b) {key : BitPath}
    {x : Lookup} (h : walk s a key = .ok x) : Follows s t x (walk t b key) := by
  induction hn : key.length using Nat.strongRecOn generalizing key a b with
  | ind n ih =>
    subst hn
    have hpath : b.path = a.path := hab.label.path.symm
    rcases key_cases a.path key with hshort | ⟨hlong, hp⟩ | rfl | ⟨bit, rest, rfl⟩
    · rw [walk_of_short hshort] at h
      cases h
    · rw [walk_of_left hlong hp] at h
      cases h
      exact .inl ⟨_, walk_of_left (by rwa [hpath]) (by rwa [hpath]), .notFound⟩
    · rw [walk_path] at h
      cases h
      rw [← hpath, walk_path]
      exact .inl ⟨_, rfl, .ofLabel hab.label⟩
    · rw [walk_append_cons] at h
      rw [← hpath, walk_append_cons]
      refine descend_follows hst (fun hab h => ?_) (hab.child bit) h
      refine ih rest.length ?_ hab h rfl
      rw [List.length_append, List.length_cons]
      omega

/-- Answers alike are the same unless one store alone has the bytes of a long value. -/
theorem alike_cases (hst : Compatible s t) {x y : Lookup} (h : x.Alike s t y) :
    x = y ∨
      (∃ hash length v, s hash = none ∧ t hash = some v ∧
        x = .foundHashed hash length ∧ y = .found v) ∨
      ∃ hash length v, s hash = some v ∧ t hash = none ∧
        x = .found v ∧ y = .foundHashed hash length := by
  cases h with
  | notFound => exact .inl rfl
  | @ofLabel a b h =>
    obtain ⟨-, hhash, hinline, hlong, hlength⟩ := h
    unfold Lookup.ofLabel
    rw [← hhash]
    cases hv : a.valueHash with
    | none =>
      left
      rw [← hinline hv]
      cases a.value <;> rfl
    | some hash =>
      obtain ⟨ha, hb⟩ := hlong hash hv
      cases hs : s hash with
      | none =>
        cases ht : t hash with
        | none =>
          left
          rw [hlength (ha.trans hs) (hb.trans ht), ha, hb, hs, ht]
        | some w =>
          right
          left
          refine ⟨hash, a.valueLength, w, hs, ht, ?_, ?_⟩
          · rw [ha, hs]
          · rw [hb, ht]
      | some v =>
        cases ht : t hash with
        | none =>
          right
          right
          refine ⟨hash, b.valueLength, v, hs, ht, ?_, ?_⟩
          · rw [ha, hs]
          · rw [hb, ht]
        | some w =>
          left
          rw [ha, hb, hs, ht, hst hash v w hs ht]

section Index

variable {blobs others : List Bytes}

theorem compatible_store (hfree : CollisionFree (messages blobs ++ messages others)) :
    Compatible (store blobs) (store others) := by
  intro hash m m' hm hm'
  obtain ⟨hmem, hhash⟩ := Index.mem_of_get? hm
  obtain ⟨hmem', hhash'⟩ := Index.mem_of_get? hm'
  have hleft := List.mem_append_left (messages others) hmem
  have hright := List.mem_append_right (messages blobs) hmem'
  exact hfree m hleft m' hright (hhash.trans hhash'.symm)

/-- What is found in a proof is found in every proof with the same entries and more. -/
theorem store_mono (hfree : CollisionFree (messages others)) (hsub : blobs ⊆ others) {hash : Hash}
    {m : Bytes} (h : store blobs hash = some m) : store others hash = some m := by
  obtain ⟨hmem, rfl⟩ := Index.mem_of_get? h
  obtain ⟨blob, hblob, hm⟩ := List.mem_filterMap.mp hmem
  exact Index.get?_keccak hfree (List.mem_filterMap.mpr ⟨blob, hsub hblob, hm⟩)

theorem verify_follows (hfree : CollisionFree (messages blobs ++ messages others)) {root : Hash}
    {key : Bytes} {answer : Lookup} (h : verify root key blobs = .ok answer) :
    Follows (store blobs) (store others) answer
      (descend (store others) (.hashed root) (BitPath.ofBytes key)) := by
  have hst := compatible_store hfree
  obtain ⟨-, hwalk⟩ := verify_eq_ok_iff.mp h
  exact descend_follows hst (fun hab h => walk_follows hst hab h) (.hashed root) hwalk

end Index

/-- Whatever the root: two proofs without a collision between them do not contradict each other on a
key, and a proof stays good when more entries are added to it. -/
theorem verify_unequivocal (root : Hash) (key : Bytes) (blobs others : List Bytes)
    (hfree : CollisionFree (messages blobs ++ messages others)) {answer : Lookup}
    (h : verify root key blobs = .ok answer) :
    (∀ other, verify root key others = .ok other → answer.Refines other ∨ other.Refines answer) ∧
      (blobs ⊆ others → WellWrapped others →
        ∃ other, verify root key others = .ok other ∧ answer.Refines other) := by
  have hst := compatible_store hfree
  have hfollows := verify_follows hfree h
  constructor
  · intro other hother
    obtain ⟨-, hwalk⟩ := verify_eq_ok_iff.mp hother
    rw [hwalk] at hfollows
    rcases hfollows with ⟨b, hb, halike⟩ | ⟨_, _, _, _, he⟩
    · cases hb
      rcases alike_cases hst halike with rfl | ⟨hash, length, v, -, ht, rfl, rfl⟩ |
        ⟨hash, length, v, hs, -, rfl, rfl⟩
      · exact .inl (.inl rfl)
      · exact .inl (.inr ⟨hash, length, v, rfl, rfl, (Index.mem_of_get? ht).2⟩)
      · exact .inr (.inr ⟨hash, length, v, rfl, rfl, (Index.mem_of_get? hs).2⟩)
    · cases he
  · intro hsub hwrapped
    have hmono : ∀ hash m, store blobs hash = some m → store others hash ≠ none := by
      intro hash m hm
      rw [store_mono (hfree.mono (List.subset_append_right _ _)) hsub hm]
      simp
    rcases hfollows with ⟨b, hb, halike⟩ | ⟨hash, m, hs, ht, -⟩
    · refine ⟨b, verify_eq_ok_iff.mpr ⟨hwrapped, hb⟩, ?_⟩
      rcases alike_cases hst halike with rfl | ⟨hash, length, v, -, ht, rfl, rfl⟩ |
        ⟨hash, length, v, hs, ht, -, -⟩
      · exact .inl rfl
      · exact .inr ⟨hash, length, v, rfl, rfl, (Index.mem_of_get? ht).2⟩
      · exact absurd ht (hmono hash v hs)
    · exact absurd ht (hmono hash m hs)

/-- With the value added to it, the proof of a long value has the bytes in place of the hash. -/
theorem verify_unequivocal_long_value :
    ∃ other, verify (Entries.sample.builder.rootHash .rskip107) (0x80 :: List.replicate 11 0)
        (sampleProof ++ [Rlp.encodeBytes (List.replicate 40 7)]) = .ok other ∧
      (Lookup.foundHashed (keccak (List.replicate 40 7)) 40).Refines other :=
  (verify_unequivocal (Entries.sample.builder.rootHash .rskip107) (0x80 :: List.replicate 11 0)
    sampleProof (sampleProof ++ [Rlp.encodeBytes (List.replicate 40 7)]) (by decide +kernel)
    (by decide +kernel)).2 (List.subset_append_left _ _) (by decide +kernel)

end BlockAudit.Proof
