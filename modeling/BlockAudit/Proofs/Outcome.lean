import BlockAudit.Trie.DecodeError

/-! Steps that succeed or fail, one after the other. -/
namespace BlockAudit

section Except

variable {ε ε' α β : Type}

@[simp] theorem ok_bind (a : α) (f : α → Except ε β) : (Except.ok a >>= f) = f a := rfl

@[simp] theorem error_bind (e : ε) (f : α → Except ε β) :
    (Except.error e >>= f) = Except.error e := rfl

@[simp] theorem pure_eq_ok (a : α) : (pure a : Except ε α) = .ok a := rfl

@[simp] theorem throw_eq_error (e : ε) : (throw e : Except ε α) = .error e := rfl

theorem bind_eq_ok_iff {x : Except ε α} {f : α → Except ε β} {b : β} :
    (x >>= f) = .ok b ↔ ∃ a, x = .ok a ∧ f a = .ok b := by
  cases x <;> simp

/-- Two steps fail where the first fails, or where the second fails after it. -/
theorem bind_eq_error_iff {x : Except ε α} {f : α → Except ε β} {e : ε} :
    (x >>= f) = .error e ↔ x = .error e ∨ ∃ a, x = .ok a ∧ f a = .error e := by
  cases x <;> simp

theorem map_eq_ok_iff {x : Except ε α} {f : α → β} {b : β} :
    x.map f = .ok b ↔ ∃ a, x = .ok a ∧ f a = b := by
  cases x <;> simp [Except.map]

theorem map_eq_error_iff {x : Except ε α} {f : α → β} {e : ε} :
    x.map f = .error e ↔ x = .error e := by
  cases x <;> simp [Except.map]

@[simp] theorem mapError_ok (f : ε → ε') (a : α) :
    (Except.ok a : Except ε α).mapError f = .ok a := rfl

@[simp] theorem mapError_error (f : ε → ε') (e : ε) :
    (Except.error e : Except ε α).mapError f = .error (f e) := rfl

theorem mapError_eq_ok_iff {x : Except ε α} {f : ε → ε'} {a : α} :
    x.mapError f = .ok a ↔ x = .ok a := by
  cases x <;> simp

theorem mapError_eq_error_iff {x : Except ε α} {f : ε → ε'} {e : ε'} :
    x.mapError f = .error e ↔ ∃ cause, x = .error cause ∧ f cause = e := by
  cases x <;> simp

/-- A row of steps gives what the steps give. -/
theorem mem_of_mapM_eq_ok {f : α → Except ε β} {xs : List α} {ys : List β}
    (h : xs.mapM f = .ok ys) :
    (∀ x ∈ xs, ∃ y ∈ ys, f x = .ok y) ∧ ∀ y ∈ ys, ∃ x ∈ xs, f x = .ok y := by
  induction xs generalizing ys with
  | nil =>
    cases h
    simp
  | cons x xs ih =>
    rw [List.mapM_cons] at h
    obtain ⟨y, hy, h⟩ := bind_eq_ok_iff.mp h
    obtain ⟨rest, hrest, h⟩ := bind_eq_ok_iff.mp h
    cases h
    obtain ⟨hthere, hback⟩ := ih hrest
    constructor
    · intro z hz
      rcases List.mem_cons.mp hz with rfl | hz
      · exact ⟨y, List.mem_cons_self, hy⟩
      · obtain ⟨w, hw, hzw⟩ := hthere z hz
        exact ⟨w, List.mem_cons_of_mem y hw, hzw⟩
    · intro w hw
      rcases List.mem_cons.mp hw with rfl | hw
      · exact ⟨x, List.mem_cons_self, hy⟩
      · obtain ⟨z, hz, hzw⟩ := hback w hw
        exact ⟨z, List.mem_cons_of_mem x hz, hzw⟩

theorem filterMap_of_mapM_eq_ok {f : α → Except ε β} {xs : List α} {ys : List β}
    (h : xs.mapM f = .ok ys) : xs.filterMap (fun x => (f x).toOption) = ys := by
  induction xs generalizing ys with
  | nil =>
    cases h
    rfl
  | cons x xs ih =>
    rw [List.mapM_cons] at h
    obtain ⟨y, hy, h⟩ := bind_eq_ok_iff.mp h
    obtain ⟨rest, hrest, h⟩ := bind_eq_ok_iff.mp h
    cases h
    rw [List.filterMap_cons, hy, ih hrest]
    rfl

theorem exists_mapM_eq_ok {f : α → Except ε β} {xs : List α} (h : ∀ x ∈ xs, ∃ y, f x = .ok y) :
    ∃ ys, xs.mapM f = .ok ys := by
  induction xs with
  | nil => exact ⟨[], rfl⟩
  | cons x xs ih =>
    obtain ⟨y, hy⟩ := h x List.mem_cons_self
    obtain ⟨ys, hys⟩ := ih fun z hz => h z (List.mem_cons_of_mem x hz)
    refine ⟨y :: ys, ?_⟩
    rw [List.mapM_cons, hy, ok_bind, hys, ok_bind, pure_eq_ok]

/-- A row of steps of which one fails gives the error of a step. -/
theorem exists_mapM_eq_error {f : α → Except ε β} {xs : List α}
    (h : ∃ x ∈ xs, ∀ y, f x ≠ .ok y) : ∃ x ∈ xs, ∃ e, f x = .error e ∧ xs.mapM f = .error e := by
  induction xs with
  | nil => simp at h
  | cons x xs ih =>
    cases hx : f x with
    | error e => exact ⟨x, List.mem_cons_self, e, hx, by rw [List.mapM_cons, hx, error_bind]⟩
    | ok y =>
      obtain ⟨z, hz, hfail⟩ := h
      have hne : z ≠ x := by
        rintro rfl
        exact hfail y hx
      obtain ⟨w, hw, e, hfw, htail⟩ := ih ⟨z, (List.mem_cons.mp hz).resolve_left hne, hfail⟩
      refine ⟨w, List.mem_cons_of_mem x hw, e, hfw, ?_⟩
      rw [List.mapM_cons, hx, ok_bind, htail, error_bind]

theorem mapM_eq_ok_map {f : α → Except ε β} {g : α → β} {xs : List α}
    (h : ∀ x ∈ xs, f x = .ok (g x)) : xs.mapM f = .ok (xs.map g) := by
  induction xs with
  | nil => rfl
  | cons x xs ih =>
    have htail := ih fun z hz => h z (List.mem_cons_of_mem x hz)
    rw [List.mapM_cons, h x List.mem_cons_self, ok_bind, htail, ok_bind, pure_eq_ok, List.map_cons]

end Except

section Matched

variable {ε ε' α β γ δ : Type} {r : α → β → Prop} {q : γ → δ → Prop}

/-- Two runs end with related results, or with the same error. -/
def Matched (r : α → β → Prop) : Except ε α → Except ε β → Prop
  | .ok a, .ok b => r a b
  | .error e, .error e' => e = e'
  | _, _ => False

theorem matched_ok {a : α} {b : β} (h : r a b) : Matched r (Except.ok a : Except ε α) (.ok b) := h

theorem matched_error (e : ε) : Matched r (.error e) (.error e) := rfl

theorem matched_self (x : Except ε α) : Matched Eq x x := by
  cases x <;> rfl

theorem Matched.bind {x : Except ε α} {y : Except ε β} {f : α → Except ε γ} {g : β → Except ε δ}
    (h : Matched r x y) (hnext : ∀ a b, r a b → Matched q (f a) (g b)) :
    Matched q (x >>= f) (y >>= g) := by
  cases x <;> cases y
  · exact h
  · exact absurd h id
  · exact absurd h id
  · exact hnext _ _ h

/-- Two runs that begin with the same step. -/
theorem matched_bind_self {x : Except ε α} {f : α → Except ε γ} {g : α → Except ε δ}
    (hnext : ∀ a, Matched q (f a) (g a)) : Matched q (x >>= f) (x >>= g) := by
  apply (matched_self x).bind
  intro a b hab
  rw [← hab]
  exact hnext a

theorem Matched.mapError {x : Except ε α} {y : Except ε β} (h : Matched r x y) (f : ε → ε') :
    Matched r (x.mapError f) (y.mapError f) := by
  cases x <;> cases y
  · exact congrArg f h
  · exact absurd h id
  · exact absurd h id
  · exact h

end Matched

namespace Trie

variable {α : Type}

@[simp] theorem liftM_field_ok (a : α) :
    (liftM (Except.ok a : Except FieldError α) : Except DecodeError α) = .ok a := rfl

@[simp] theorem liftM_bitPath_ok (a : α) :
    (liftM (Except.ok a : Except BitPathError α) : Except DecodeError α) = .ok a := rfl

theorem liftM_field_eq_ok_iff {x : Except FieldError α} {a : α} :
    (liftM x : Except DecodeError α) = .ok a ↔ x = .ok a := by
  cases x with
  | error e => exact iff_of_false (by rintro ⟨⟩) (by rintro ⟨⟩)
  | ok b => simp

theorem liftM_bitPath_eq_ok_iff {x : Except BitPathError α} {a : α} :
    (liftM x : Except DecodeError α) = .ok a ↔ x = .ok a := by
  cases x with
  | error e => exact iff_of_false (by rintro ⟨⟩) (by rintro ⟨⟩)
  | ok b => simp

theorem liftM_field_eq_error_iff {x : Except FieldError α} {e : DecodeError} :
    (liftM x : Except DecodeError α) = .error e ↔
      ∃ cause, x = .error cause ∧ .truncated cause = e :=
  mapError_eq_error_iff

end Trie

end BlockAudit
