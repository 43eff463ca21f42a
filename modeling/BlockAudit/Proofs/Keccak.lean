import BlockAudit.Keccak

/-! What is assumed of the hash: that it tells the byte strings apart that a statement is about. -/
namespace BlockAudit

/-- No two of the byte strings have the same hash. -/
def CollisionFree (strings : List Bytes) : Prop :=
  ∀ x ∈ strings, ∀ y ∈ strings, keccak x = keccak y → x = y

instance (strings : List Bytes) : Decidable (CollisionFree strings) :=
  inferInstanceAs (Decidable (∀ x ∈ strings, ∀ y ∈ strings, keccak x = keccak y → x = y))

theorem CollisionFree.mono {strings more : List Bytes} (h : CollisionFree more)
    (hsub : strings ⊆ more) : CollisionFree strings :=
  fun x hx y hy => h x (hsub hx) y (hsub hy)

end BlockAudit
