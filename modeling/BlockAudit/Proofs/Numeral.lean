import BlockAudit.Text.Numeral
import Mathlib.Tactic.Ring

/-!
Numbers written in digits. `ofDigits?` is fixed by its digits from the left, and fails at any other
character.
-/
namespace BlockAudit.Text

variable {base n : Nat} {c d : Char} {s : String} {digits chars : List Char}

/-- Facts about ASCII characters can be computed. -/
theorem forall_ascii {p : Char → Prop} (h : ∀ k ∈ List.range 128, p (Char.ofNat k))
    (hc : c.toNat < 128) : p c := by
  have hp := h c.toNat (List.mem_range.mpr hc)
  rwa [Char.ofNat_toNat] at hp

/-- What was read before counts by as many places as there are digits left. -/
theorem foldlM_digits (base n : Nat) (digits : List Char) :
    digits.foldlM (fun n c => (digit? base c).map (base * n + ·)) n =
      (ofDigits? base digits).map (n * base ^ digits.length + ·) := by
  induction digits generalizing n with
  | nil => simp [ofDigits?]
  | cons c digits ih =>
    rw [ofDigits?, List.foldlM_cons, List.foldlM_cons]
    cases digit? base c with
    | none => rfl
    | some d =>
      simp only [Option.map_some, Option.bind_eq_bind, Option.bind_some, ih, Option.map_map]
      congr 1
      funext m
      simp only [Function.comp_apply, List.length_cons, pow_succ]
      ring

theorem ofDigits?_nil (base : Nat) : ofDigits? base [] = some 0 := rfl

theorem ofDigits?_cons (base : Nat) (c : Char) (digits : List Char) :
    ofDigits? base (c :: digits) =
      (digit? base c).bind fun d => (ofDigits? base digits).map (d * base ^ digits.length + ·) := by
  rw [ofDigits?, List.foldlM_cons]
  cases digit? base c with
  | none => rfl
  | some d => simp [foldlM_digits]

/-- A number is written if and only if every character is a digit. -/
theorem isSome_ofDigits?_iff :
    (ofDigits? base digits).isSome ↔ ∀ c ∈ digits, (digit? base c).isSome := by
  induction digits with
  | nil => simp [ofDigits?_nil]
  | cons c digits ih =>
    rw [ofDigits?_cons, List.forall_mem_cons, ← ih]
    cases digit? base c <;> simp

theorem toNat_lt_of_digit? {d : Nat} (h : digit? base c = some d) : c.toNat < 128 := by
  unfold digit? at h
  split_ifs at h with hnum hlower hupper <;>
    simp_all only [Bool.and_eq_true, decide_eq_true_eq, Char.le_def, Option.filter_none, reduceCtorEq]
  · have := UInt32.le_iff_toNat_le.mp hnum.2
    exact Nat.lt_of_le_of_lt this (by decide)
  · have := UInt32.le_iff_toNat_le.mp hlower.2
    exact Nat.lt_of_le_of_lt this (by decide)
  · have := UInt32.le_iff_toNat_le.mp hupper.2
    exact Nat.lt_of_le_of_lt this (by decide)

theorem digit?_lt {d : Nat} (h : digit? base c = some d) : d < base := by
  simpa using (Option.filter_eq_some_iff.mp h).2

theorem ofDigits?_lt (h : ofDigits? base digits = some n) : n < base ^ digits.length := by
  induction digits generalizing n with
  | nil =>
    cases h
    simp
  | cons c digits ih =>
    rw [ofDigits?_cons] at h
    obtain ⟨d, hd, h⟩ := Option.bind_eq_some_iff.mp h
    obtain ⟨m, hm, rfl⟩ := Option.map_eq_some_iff.mp h
    calc d * base ^ digits.length + m
        < d * base ^ digits.length + base ^ digits.length := by have := ih hm; omega
      _ = (d + 1) * base ^ digits.length := by ring
      _ ≤ base * base ^ digits.length := Nat.mul_le_mul_right _ (digit?_lt hd)
      _ = base ^ (c :: digits).length := by rw [List.length_cons, pow_succ']

/-- Zeros in front change nothing. -/
theorem ofDigits?_replicate_append (hbase : 0 < base) (count : Nat) (digits : List Char) :
    ofDigits? base (List.replicate count '0' ++ digits) = ofDigits? base digits := by
  have hzero : digit? base '0' = some 0 := by simp [digit?, hbase]
  induction count with
  | zero => rfl
  | succ count ih =>
    rw [List.replicate_succ, List.cons_append, ofDigits?_cons, hzero, Option.bind_some, ih]
    simp

section Case

/-- Only letters of ASCII have another case. -/
theorem toLower_of_le_toNat (h : 128 ≤ c.toNat) : c.toLower = c := by
  unfold Char.toLower
  split_ifs with hupper
  · have hle : c.toNat ≤ 'Z'.toNat := UInt32.le_iff_toNat_le.mp hupper.2
    exact absurd (Nat.le_trans h hle) (by decide)
  · rfl

set_option maxRecDepth 2000 in
theorem eq_or_eq_toUpper (h : c.toLower = d) : c = d ∨ c = d.toUpper := by
  subst h
  by_cases hc : c.toNat < 128
  · have hall : ∀ k ∈ List.range 128, Char.ofNat k = (Char.ofNat k).toLower ∨
        Char.ofNat k = (Char.ofNat k).toLower.toUpper := by decide
    exact forall_ascii (p := fun c => c = c.toLower ∨ c = c.toLower.toUpper) hall hc
  · exact .inl (toLower_of_le_toNat (Nat.le_of_not_lt hc)).symm

/-- The base only rules digits out. -/
theorem digit?_eq_filter (hbase : base ≤ 16) (c : Char) :
    digit? base c = (digit? 16 c).filter (· < base) := by
  unfold digit?
  dsimp only
  rw [Option.filter_filter]
  congr 1
  funext n
  rw [← Bool.decide_and]
  exact decide_eq_decide.mpr ⟨fun h => ⟨by omega, h⟩, fun h => h.2⟩

set_option maxRecDepth 2000 in
theorem digit?_toLower (hbase : base ≤ 16) (c : Char) : digit? base c.toLower = digit? base c := by
  rw [digit?_eq_filter hbase, digit?_eq_filter hbase c]
  congr 1
  by_cases hc : c.toNat < 128
  · have hall : ∀ k ∈ List.range 128,
        digit? 16 (Char.ofNat k).toLower = digit? 16 (Char.ofNat k) := by decide
    exact forall_ascii (p := fun c => digit? 16 c.toLower = digit? 16 c) hall hc
  · rw [toLower_of_le_toNat (Nat.le_of_not_lt hc)]

theorem ofDigits?_map_toLower (hbase : base ≤ 16) (digits : List Char) :
    ofDigits? base (digits.map Char.toLower) = ofDigits? base digits := by
  rw [ofDigits?, List.foldlM_map]
  simp only [digit?_toLower hbase]
  rfl

end Case

/-- The digits of a number, of which there is one at least. A plus sign may stand in front. -/
def IsNumeral (base n : Nat) (chars : List Char) : Prop :=
  ∃ digits, digits ≠ [] ∧ (chars = digits ∨ chars = '+' :: digits) ∧ ofDigits? base digits = some n

theorem digit?_plus (base : Nat) : digit? base '+' = none := by
  simp [digit?]

/-- Numbers of more than 64 bits are refused. -/
theorem uint64_ofDigits?_eq_some_iff {id : UInt64} :
    ((ofDigits? base digits).filter (· < UInt64.size) |>.map UInt64.ofNat) = some id ↔
      ofDigits? base digits = some id.toNat := by
  rw [Option.map_eq_some_iff]
  constructor
  · rintro ⟨n, hn, rfl⟩
    obtain ⟨hn, hlt⟩ := Option.filter_eq_some_iff.mp hn
    rw [hn, UInt64.toNat_ofNat_of_lt' (of_decide_eq_true hlt)]
  · intro h
    refine ⟨id.toNat, ?_, UInt64.ofNat_toNat⟩
    rw [h]
    exact if_pos (decide_eq_true id.toNat_lt)

theorem unsigned?_eq_some_iff {id : UInt64} :
    unsigned? base s = some id ↔ IsNumeral base id.toNat s.toList := by
  unfold unsigned?
  dsimp only
  rw [Option.ite_none_left_eq_some, uint64_ofDigits?_eq_some_iff, List.isEmpty_iff]
  split
  · rename_i rest heq
    rw [heq]
    constructor
    · exact fun ⟨hne, h⟩ => ⟨rest, hne, .inr rfl, h⟩
    · rintro ⟨digits, hne, rfl | hplus, h⟩
      · rw [ofDigits?_cons, digit?_plus] at h
        cases h
      · cases hplus
        exact ⟨hne, h⟩
  · rename_i hplain
    constructor
    · exact fun ⟨hne, h⟩ => ⟨_, hne, .inl rfl, h⟩
    · rintro ⟨digits, hne, hdigits | hplus, h⟩
      · rw [hdigits]
        exact ⟨hne, h⟩
      · exact absurd hplus (hplain digits)

theorem isNumeral_map_toLower_iff (hbase : base ≤ 16) :
    IsNumeral base n (chars.map Char.toLower) ↔ IsNumeral base n chars := by
  constructor
  · rintro ⟨digits, hne, rfl | hplus, h⟩
    · rw [ofDigits?_map_toLower hbase] at h
      exact ⟨chars, mt List.map_eq_nil_iff.mpr hne, .inl rfl, h⟩
    · obtain ⟨c, rest, rfl, hc, rfl⟩ := List.map_eq_cons_iff.mp hplus
      rw [ofDigits?_map_toLower hbase] at h
      obtain rfl | rfl := eq_or_eq_toUpper hc <;>
        exact ⟨rest, mt List.map_eq_nil_iff.mpr hne, .inr rfl, h⟩
  · rintro ⟨digits, hne, rfl | rfl, h⟩
    · rw [← ofDigits?_map_toLower hbase] at h
      exact ⟨_, mt List.map_eq_nil_iff.mp hne, .inl rfl, h⟩
    · rw [← ofDigits?_map_toLower hbase] at h
      exact ⟨_, mt List.map_eq_nil_iff.mp hne, .inr rfl, h⟩

end BlockAudit.Text
