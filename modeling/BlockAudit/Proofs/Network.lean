import BlockAudit.Network
import BlockAudit.Proofs.Numeral
import Mathlib.Data.List.TakeWhile

/-!
The texts that name a network: blanks around its name in any case, or around its chain id in decimal or
hexadecimal digits. No text names two networks.
-/
namespace BlockAudit

namespace Text

variable {base n : Nat} {c : Char} {s : String} {chars before core after : List Char}

section Blanks

theorem exists_blanks (s : String) :
    ∃ before after, s.toList = before ++ (trim s).toList ++ after ∧
      (∀ c ∈ before, isBlank c) ∧ ∀ c ∈ after, isBlank c := by
  let front := s.toList.dropWhile isBlank
  refine ⟨s.toList.takeWhile isBlank, (front.reverse.takeWhile isBlank).reverse, ?_, ?_, ?_⟩
  · rw [trim, String.toList_ofList, List.append_assoc, ← List.reverse_append,
      List.takeWhile_append_dropWhile, List.reverse_reverse, List.takeWhile_append_dropWhile]
  · exact fun c => List.mem_takeWhile_imp
  · exact fun c hc => List.mem_takeWhile_imp (List.mem_reverse.mp hc)

/-- What has no blanks is what is left between them. -/
theorem toList_trim (h : s.toList = before ++ core ++ after) (hbefore : ∀ c ∈ before, isBlank c)
    (hafter : ∀ c ∈ after, isBlank c) (hne : core ≠ []) (hcore : ∀ c ∈ core, isBlank c = false) :
    (trim s).toList = core := by
  have hkeep : ∀ chars more : List Char, chars ≠ [] → (∀ c ∈ chars, isBlank c = false) →
      (chars ++ more).dropWhile isBlank = chars ++ more := by
    intro chars more hne hchars
    obtain ⟨c, rest, rfl⟩ := List.exists_cons_of_ne_nil hne
    exact List.dropWhile_cons_of_neg (by rw [hchars c List.mem_cons_self]; decide)
  have hback := hkeep core.reverse [] (by simpa using hne) (by simpa using hcore)
  rw [List.append_nil] at hback
  rw [trim, String.toList_ofList, h, List.append_assoc, List.dropWhile_append_of_pos hbefore,
    hkeep core after hne hcore, List.reverse_append, List.dropWhile_append_of_pos (by simpa using hafter),
    hback, List.reverse_reverse]

set_option maxRecDepth 2000 in
theorem isBlank_of_digit? (hbase : base ≤ 16) (h : digit? base c = some n) : isBlank c = false := by
  rw [digit?_eq_filter hbase] at h
  have hdigit := (Option.filter_eq_some_iff.mp h).1
  have hall : ∀ k ∈ List.range 128,
      (digit? 16 (Char.ofNat k)).isSome → isBlank (Char.ofNat k) = false := by decide
  exact forall_ascii (p := fun c => (digit? 16 c).isSome → isBlank c = false) hall
    (toNat_lt_of_digit? hdigit) (Option.isSome_of_eq_some hdigit)

theorem IsNumeral.not_blank (hbase : base ≤ 16) (h : IsNumeral base n chars) :
    chars ≠ [] ∧ ∀ c ∈ chars, isBlank c = false := by
  obtain ⟨digits, hne, hchars, h⟩ := h
  have hdigits : ∀ c ∈ digits, isBlank c = false := by
    intro c hc
    obtain ⟨d, hd⟩ := Option.isSome_iff_exists.mp
      (isSome_ofDigits?_iff.mp (Option.isSome_of_eq_some h) c hc)
    exact isBlank_of_digit? hbase hd
  rcases hchars with rfl | rfl
  · exact ⟨hne, hdigits⟩
  · exact ⟨List.cons_ne_nil _ _, List.forall_mem_cons.mpr ⟨rfl, hdigits⟩⟩

end Blanks

end Text

namespace Network

variable {network other : Network} {chars digits : List Char} {s : String}

/-- The texts without blanks that name a network. -/
inductive Names (network : Network) : List Char → Prop where
  | name {chars : List Char} (h : chars.map Char.toLower = network.name.toList) : Names network chars
  | decimal {chars : List Char} (h : Text.IsNumeral 10 network.chainId.toNat chars) : Names network chars
  | hexadecimal {x : Char} {chars : List Char} (hx : x = 'x' ∨ x = 'X')
      (h : Text.IsNumeral 16 network.chainId.toNat chars) : Names network ('0' :: x :: chars)

/-- A text that names a network has blanks at its ends at most. -/
def IsSpelling (network : Network) (s : String) : Prop :=
  ∃ before core after, s.toList = before ++ core ++ after ∧ (∀ c ∈ before, Text.isBlank c) ∧
    (∀ c ∈ after, Text.isBlank c) ∧ network.Names core

theorem find?_all_eq_some_iff {p : Network → Bool} (h : ∀ a b, p a → p b → a = b) :
    all.find? p = some network ↔ p network := by
  refine ⟨List.find?_some, fun hp => ?_⟩
  cases hfind : all.find? p with
  | none => exact absurd hp (List.find?_eq_none.mp hfind network (by cases network <;> decide))
  | some other => rw [h other network (List.find?_some hfind) hp]

theorem name_injective (h : network.name = other.name) : network = other := by
  cases network <;> cases other <;> first | rfl | exact absurd h (by decide)

theorem chainId_injective (h : network.chainId = other.chainId) : network = other := by
  cases network <;> cases other <;> first | rfl | exact absurd h (by decide)

theorem ofChainId?_eq_some_iff {id : UInt64} : ofChainId? id = some network ↔ network.chainId = id := by
  rw [ofChainId?, find?_all_eq_some_iff, beq_iff_eq]
  intro a b ha hb
  exact chainId_injective ((beq_iff_eq.mp ha).trans (beq_iff_eq.mp hb).symm)

theorem Names.not_blank (h : network.Names chars) :
    chars ≠ [] ∧ ∀ c ∈ chars, Text.isBlank c = false := by
  cases h with
  | name h =>
    have hname : network.name.toList ≠ [] ∧ (network.name.toList.all fun d =>
        !Text.isBlank d && !Text.isBlank d.toUpper) := by cases network <;> decide
    refine ⟨?_, fun c hc => ?_⟩
    · rintro rfl
      exact hname.1 h.symm
    · have hmem := List.mem_map_of_mem (f := Char.toLower) hc
      rw [h] at hmem
      have hblank := List.all_eq_true.mp hname.2 _ hmem
      obtain ⟨hlower, hupper⟩ :
          Text.isBlank c.toLower = false ∧ Text.isBlank c.toLower.toUpper = false := by
        simpa using hblank
      obtain heq | heq := Text.eq_or_eq_toUpper (rfl : c.toLower = c.toLower)
      · rwa [heq]
      · rwa [heq]
  | decimal h => exact h.not_blank (by decide)
  | hexadecimal hx h =>
    refine ⟨List.cons_ne_nil _ _, ?_⟩
    rw [List.forall_mem_cons, List.forall_mem_cons]
    exact ⟨rfl, by rcases hx with rfl | rfl <;> rfl, (h.not_blank (by decide)).2⟩

theorem not_isNumeral_name (n : Nat) : ¬ Text.IsNumeral 10 n network.name.toList := by
  have hbad : ∃ c rest, network.name.toList = c :: rest ∧ c ≠ '+' ∧ Text.digit? 10 c = none := by
    cases network <;> exact ⟨_, _, rfl, by decide, by decide⟩
  obtain ⟨c, rest, hname, hplus, hdigit⟩ := hbad
  rintro ⟨digits, -, hchars | hchars, h⟩
  · rw [← hchars, hname, Text.ofDigits?_cons, hdigit] at h
    cases h
  · rw [hname] at hchars
    exact hplus (List.cons.inj hchars).1

/-- A decimal numeral has no mark of hexadecimal digits. -/
theorem not_isNumeral_mark {n : Nat} : ¬ Text.IsNumeral 10 n ('0' :: 'x' :: chars) := by
  have hdigit : Text.digit? 10 'x' = none := by decide
  rintro ⟨digits, -, rfl | hchars, h⟩
  · rw [Text.ofDigits?_cons, Text.ofDigits?_cons, hdigit] at h
    simp at h
  · exact absurd (List.cons.inj hchars).1 (by decide)

/-- The case of letters does not count. -/
theorem names_iff_lower :
    network.Names chars ↔ chars.map Char.toLower = network.name.toList ∨
      Text.IsNumeral 10 network.chainId.toNat (chars.map Char.toLower) ∨
      ∃ digits, chars.map Char.toLower = '0' :: 'x' :: digits ∧
        Text.IsNumeral 16 network.chainId.toNat digits := by
  constructor
  · intro h
    cases h with
    | name h => exact .inl h
    | decimal h => exact .inr (.inl ((Text.isNumeral_map_toLower_iff (by decide)).mpr h))
    | hexadecimal hx h =>
      refine .inr (.inr ⟨_, ?_, (Text.isNumeral_map_toLower_iff (by decide)).mpr h⟩)
      rcases hx with rfl | rfl <;> rfl
  · rintro (h | h | ⟨digits, hchars, h⟩)
    · exact .name h
    · exact .decimal ((Text.isNumeral_map_toLower_iff (by decide)).mp h)
    · obtain ⟨zero, rest, rfl, hzero, hrest⟩ := List.map_eq_cons_iff.mp hchars
      obtain ⟨x, rest, rfl, hx, rfl⟩ := List.map_eq_cons_iff.mp hrest
      have hnumeral := (Text.isNumeral_map_toLower_iff (by decide)).mp h
      obtain rfl | rfl := Text.eq_or_eq_toUpper hzero <;>
        exact .hexadecimal (Text.eq_or_eq_toUpper hx) hnumeral

theorem bind_ofChainId?_eq_some_iff {base : Nat} :
    (Text.unsigned? base s).bind ofChainId? = some network ↔
      Text.IsNumeral base network.chainId.toNat s.toList := by
  rw [Option.bind_eq_some_iff, ← Text.unsigned?_eq_some_iff]
  simp only [ofChainId?_eq_some_iff, exists_eq_right']

theorem ofSpelling?_eq_some_iff_names :
    ofSpelling? s = some network ↔ network.Names (Text.trim s).toList := by
  rw [names_iff_lower]
  unfold ofSpelling?
  dsimp only
  generalize hlower : String.ofList ((Text.trim s).toList.map Char.toLower) = lower
  rw [← String.toList_ofList (l := (Text.trim s).toList.map Char.toLower), hlower, String.toList_inj]
  split
  · rename_i other hother
    have hname := List.find?_some hother
    obtain rfl := beq_iff_eq.mp hname
    have hmark : ∀ digits, other.name.toList ≠ '0' :: 'x' :: digits := by
      cases other <;> exact fun digits h => absurd (List.cons.inj h).1 (by decide)
    constructor
    · rintro ⟨⟩
      exact .inl rfl
    · rintro (h | h | ⟨digits, hdigits, -⟩)
      · rw [name_injective h]
      · exact absurd h (not_isNumeral_name _)
      · exact absurd hdigits (hmark digits)
  · rename_i hnone
    have hname : lower ≠ network.name := by
      rintro rfl
      exact List.find?_eq_none.mp hnone network (by cases network <;> decide) BEq.rfl
    rw [or_iff_right hname]
    split
    · rename_i digits hdigits
      rw [bind_ofChainId?_eq_some_iff, String.toList_ofList, hdigits, or_iff_right not_isNumeral_mark]
      simp
    · rename_i hmark
      rw [bind_ofChainId?_eq_some_iff, or_iff_left]
      rintro ⟨digits, hdigits, -⟩
      exact hmark digits hdigits

theorem ofSpelling?_eq_some_iff : ofSpelling? s = some network ↔ network.IsSpelling s := by
  rw [ofSpelling?_eq_some_iff_names]
  constructor
  · intro h
    obtain ⟨before, after, hs, hbefore, hafter⟩ := Text.exists_blanks s
    exact ⟨before, _, after, hs, hbefore, hafter, h⟩
  · rintro ⟨before, core, after, hs, hbefore, hafter, h⟩
    rwa [Text.toList_trim hs hbefore hafter h.not_blank.1 h.not_blank.2]

theorem isSpelling_name (network : Network) : network.IsSpelling network.name :=
  ⟨[], network.name.toList, [], (List.append_nil _).symm, nofun, nofun, .name (by cases network <;> rfl)⟩

theorem IsSpelling.unique (h : network.IsSpelling s) (h' : other.IsSpelling s) : network = other :=
  Option.some.inj ((ofSpelling?_eq_some_iff.mpr h).symm.trans (ofSpelling?_eq_some_iff.mpr h'))

end Network

end BlockAudit
