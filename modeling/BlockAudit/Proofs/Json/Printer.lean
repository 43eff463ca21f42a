import BlockAudit.Json.Parser
import BlockAudit.Json.Printer
import Mathlib.Data.List.Basic

/-!
Values without numbers are read back from their text. Numbers are left out because the node's documents
write them as strings.
-/
namespace BlockAudit.Json

/-- A value without numbers that holds others no more than `depth` levels deep. -/
inductive Textual : Nat → Json → Prop where
  | null {depth : Nat} : Textual depth .null
  | bool {depth : Nat} (b : Bool) : Textual depth (.bool b)
  | string {depth : Nat} (s : String) : Textual depth (.string s)
  | array {depth : Nat} {items : List Json} (h : ∀ item ∈ items, Textual depth item) :
      Textual (depth + 1) (.array items)
  | object {depth : Nat} {fields : List (String × Json)} (h : ∀ field ∈ fields, Textual depth field.2) :
      Textual (depth + 1) (.object fields)

section Text

theorem renderItems_eq (items : List Json) : renderItems items = items.map render := by
  induction items with
  | nil => rw [renderItems, List.map_nil]
  | cons item items ih => rw [renderItems, List.map_cons, ih]

theorem renderFields_eq (fields : List (String × Json)) :
    renderFields fields = fields.map fun field => renderString field.1 ++ ":" ++ render field.2 := by
  induction fields with
  | nil => rw [renderFields, List.map_nil]
  | cons field fields ih => rw [renderFields, List.map_cons, ih]

theorem toList_renderString (s : String) :
    (renderString s).toList = '"' :: (s.toList.flatMap escapeChar ++ ['"']) := by
  rw [renderString, String.toList_ofList]
  rfl

theorem toList_render_array (items : List Json) :
    (render (.array items)).toList =
      '[' :: ([','].intercalate (items.map fun item => (render item).toList) ++ [']']) := by
  rw [render, renderItems_eq, String.toList_append, String.toList_append, String.toList_intercalate,
    List.map_map]
  rfl

/-- A field as it stands in an object. -/
def fieldChars (field : String × Json) : List Char :=
  (renderString field.1).toList ++ ':' :: (render field.2).toList

theorem toList_render_object (fields : List (String × Json)) :
    (render (.object fields)).toList =
      '\x7b' :: ([','].intercalate (fields.map fieldChars) ++ ['\x7d']) := by
  have hfields : (String.toList ∘ fun field : String × Json =>
      renderString field.1 ++ ":" ++ render field.2) = fieldChars := by
    funext field
    rw [Function.comp_apply, String.toList_append, String.toList_append, List.append_assoc]
    rfl
  rw [render, renderFields_eq, String.toList_append, String.toList_append, String.toList_intercalate,
    List.map_map, hfields]
  rfl

end Text

section Intercalate

variable {α : Type} {limit : Nat} {parts : List (List α)}

theorem exists_intercalate_cons (separator part : List α) (parts : List (List α)) :
    ∃ rest, separator.intercalate (part :: parts) = part ++ rest := by
  cases parts with
  | nil => exact ⟨[], by rw [List.intercalate_singleton, List.append_nil]⟩
  | cons next parts => exact ⟨_, by rw [List.intercalate_cons_cons, List.append_assoc]⟩

/-- Where there is room for the whole, there is room for every part, and for as many as there are. -/
theorem limit_of_intercalate (separator : List α) (hne : ∀ part ∈ parts, part ≠ [])
    (h : (separator.intercalate parts).length ≤ limit) :
    parts.length ≤ limit ∧ ∀ part ∈ parts, part.length ≤ limit := by
  induction parts generalizing limit with
  | nil => simp
  | cons part parts ih =>
    rw [List.forall_mem_cons] at hne ⊢
    have hpart := List.length_pos_iff.mpr hne.1
    cases parts with
    | nil =>
      rw [List.intercalate_singleton] at h
      exact ⟨by rw [List.length_singleton]; omega, h, nofun⟩
    | cons next parts =>
      rw [List.intercalate_cons_cons, List.length_append, List.length_append] at h
      have hfits : (separator.intercalate (next :: parts)).length ≤ limit - part.length := by omega
      obtain ⟨hlength, hrest⟩ := ih hne.2 hfits
      rw [List.length_cons]
      exact ⟨by omega, by omega, fun p hp => Nat.le_trans (hrest p hp) (Nat.sub_le _ _)⟩

end Intercalate

namespace Parser

variable {depth limit : Nat} {v : Json} {c : Char} {chars read rest : List Char}

theorem stringBody_simple {e : Char} (hsimple : simpleEscape? e = some c) (hne : e ≠ 'u')
    (read rest : List Char) :
    stringBody none read ('\\' :: e :: rest) = stringBody none (c :: read) rest :=
  stringBody.eq_5 read e rest c (fun _ _ _ _ _ h _ => hne h) hsimple

/-- A control character is two zeros and two digits. -/
theorem stringBody_escapeControl (hc : c.toNat < 32) (read rest : List Char) :
    stringBody none read (escapeControl c ++ rest) = stringBody none (c :: read) rest := by
  have hall : ∀ k ∈ List.range 32,
      escapeControl (Char.ofNat k) =
        ['\\', 'u', '0', '0', Nat.digitChar (k / 16), Nat.digitChar (k % 16)] ∧
      codeUnit? '0' '0' (Nat.digitChar (k / 16)) (Nat.digitChar (k % 16)) = some k ∧
      isHighSurrogate k = false ∧ isLowSurrogate k = false := by decide
  obtain ⟨hescape, hunit, hhigh, hlow⟩ := hall c.toNat (List.mem_range.mpr hc)
  rw [Char.ofNat_toNat] at hescape
  have hread := stringBody.eq_4 read _ _ _ _ rest c.toNat hunit
  rw [hhigh, hlow, Char.ofNat_toNat] at hread
  rw [hescape]
  exact hread

/-- Whatever stands for a character in a string is read as the character. -/
theorem stringBody_escapeChar (c : Char) (read rest : List Char) :
    stringBody none read (escapeChar c ++ rest) = stringBody none (c :: read) rest := by
  unfold escapeChar
  split_ifs with hmark hnewline hreturn htab hback hfeed hcontrol
  · have hne : c ≠ 'u' := by
      rintro rfl
      exact absurd hmark (by decide)
    exact stringBody_simple (if_pos (by rw [hmark, Bool.true_or])) hne read rest
  · rw [beq_iff_eq.mp hnewline]
    exact stringBody_simple rfl (by decide) read rest
  · rw [beq_iff_eq.mp hreturn]
    exact stringBody_simple rfl (by decide) read rest
  · rw [beq_iff_eq.mp htab]
    exact stringBody_simple rfl (by decide) read rest
  · rw [beq_iff_eq.mp hback]
    exact stringBody_simple rfl (by decide) read rest
  · rw [beq_iff_eq.mp hfeed]
    exact stringBody_simple rfl (by decide) read rest
  · exact stringBody_escapeControl hcontrol read rest
  · have hquote : c ≠ '"' := by
      rintro rfl
      exact absurd hmark (by decide)
    have hslash : c ≠ '\\' := by
      rintro rfl
      exact absurd hmark (by decide)
    have hplain := stringBody.eq_8 none read c rest (fun _ _ _ _ _ h _ => hslash h)
      (fun _ _ h _ => hslash h) hquote
    rw [if_neg (by simpa using hcontrol)] at hplain
    exact hplain

theorem stringBody_escape (s read rest : List Char) :
    stringBody none read (s.flatMap escapeChar ++ '"' :: rest) =
      some (String.ofList (read.reverse ++ s), rest) := by
  induction s generalizing read with
  | nil => simp [stringBody.eq_7]
  | cons c s ih =>
    rw [List.flatMap_cons, List.append_assoc, stringBody_escapeChar, ih, List.reverse_cons,
      List.append_assoc]
    rfl

/-- A string is read after its opening quote. -/
theorem stringBody_render (s : String) (rest : List Char) :
    stringBody none [] (s.toList.flatMap escapeChar ++ '"' :: rest) = some (s, rest) := by
  rw [stringBody_escape, List.reverse_nil, List.nil_append, String.ofList_toList]

section Nested

variable {item : List Char → Option (Json × List Char)} {items : List Json}
  {fields : List (String × Json)}

/-- The first character of a value is no blank and closes nothing. -/
theorem exists_head (h : Textual depth v) :
    ∃ c chars, (render v).toList = c :: chars ∧ isBlank c = false ∧ c ≠ ']' := by
  cases h with
  | null => exact ⟨'n', _, rfl, rfl, by decide⟩
  | bool b => cases b <;> exact ⟨_, _, rfl, rfl, by decide⟩
  | string s =>
    rw [render, toList_renderString]
    exact ⟨'"', _, rfl, rfl, by decide⟩
  | array h =>
    rw [toList_render_array]
    exact ⟨'[', _, rfl, rfl, by decide⟩
  | object h =>
    rw [toList_render_object]
    exact ⟨'\x7b', _, rfl, rfl, by decide⟩

theorem skipBlanks_cons (h : isBlank c = false) (chars : List Char) :
    skipBlanks (c :: chars) = c :: chars :=
  List.dropWhile_cons_of_neg (by rw [h]; decide)

theorem skipBlanks_render (h : Textual depth v) (rest : List Char) :
    skipBlanks ((render v).toList ++ rest) = (render v).toList ++ rest := by
  obtain ⟨c, chars, hchars, hblank, -⟩ := exists_head h
  rw [hchars]
  exact skipBlanks_cons hblank _

theorem items?_comma (h : item (skipBlanks chars) = some (v, ',' :: rest)) (read : List Json) :
    items? item (limit + 1) read chars = items? item limit (v :: read) rest := by
  rw [items?, h]
  rfl

theorem items?_close (h : item (skipBlanks chars) = some (v, ']' :: rest)) (read : List Json) :
    items? item (limit + 1) read chars = some (.array (v :: read).reverse, rest) := by
  rw [items?, h]
  rfl

theorem toList_render_ne_nil (h : Textual depth v) : (render v).toList ≠ [] := by
  obtain ⟨c, chars, hchars, -⟩ := exists_head h
  rw [hchars]
  exact List.cons_ne_nil c chars

/-- Items are read up to the closing bracket by a reader that reads each of them. -/
theorem items?_render (hitems : items ≠ []) (hlimit : items.length ≤ limit)
    (htextual : ∀ v ∈ items, Textual depth v)
    (hitem : ∀ v ∈ items, ∀ rest, item ((render v).toList ++ rest) = some (v, rest))
    (read : List Json) (rest : List Char) :
    items? item limit read
        ([','].intercalate (items.map fun v => (render v).toList) ++ ']' :: rest) =
      some (.array (read.reverse ++ items), rest) := by
  induction items generalizing limit read with
  | nil => exact absurd rfl hitems
  | cons v items ih =>
    rw [List.forall_mem_cons] at htextual hitem
    obtain ⟨limit, rfl⟩ := Nat.exists_eq_add_of_le' (Nat.le_trans (Nat.le_add_left 1 _) hlimit)
    have hread : ∀ rest, item (skipBlanks ((render v).toList ++ rest)) = some (v, rest) := by
      intro rest
      rw [skipBlanks_render htextual.1, hitem.1]
    cases items with
    | nil =>
      rw [List.map_singleton, List.intercalate_singleton, items?_close (hread _), List.reverse_cons]
    | cons w items =>
      have hrest := ih (List.cons_ne_nil _ _) (Nat.le_of_succ_le_succ hlimit) htextual.2 hitem.2
        (v :: read)
      rw [List.map_cons] at hrest
      rw [List.map_cons, List.map_cons, List.intercalate_cons_cons, List.append_assoc,
        List.append_assoc, List.singleton_append, items?_comma (hread _), hrest, List.reverse_cons,
        List.append_assoc, List.singleton_append]

theorem fields?_comma {field : String × Json} (h : field? item chars = some (field, ',' :: rest))
    (read : List (String × Json)) :
    fields? item (limit + 1) read chars = fields? item limit (field :: read) rest := by
  rw [fields?, h]
  rfl

theorem fields?_close {field : String × Json} (h : field? item chars = some (field, '\x7d' :: rest))
    (read : List (String × Json)) :
    fields? item (limit + 1) read chars = some (.object (field :: read).reverse, rest) := by
  rw [fields?, h]
  rfl

theorem field?_render {field : String × Json} (htextual : Textual depth field.2)
    (hitem : ∀ rest, item ((render field.2).toList ++ rest) = some (field.2, rest))
    (rest : List Char) :
    field? item (fieldChars field ++ rest) = some (field, rest) := by
  have hname := stringBody_render field.1 (':' :: ((render field.2).toList ++ rest))
  have hvalue := hitem rest
  rw [← skipBlanks_render htextual] at hvalue
  have hquote : ∀ chars, skipBlanks ('"' :: chars) = '"' :: chars := fun _ => rfl
  have hcolon : ∀ chars, skipBlanks (':' :: chars) = ':' :: chars := fun _ => rfl
  have hchars : fieldChars field ++ rest =
      '"' :: (field.1.toList.flatMap escapeChar ++ '"' :: ':' :: ((render field.2).toList ++ rest)) := by
    rw [fieldChars, toList_renderString]
    simp
  rw [hchars]
  simp only [field?, hquote, hname, hcolon, hvalue, Option.map_some]

theorem fields?_render (hfields : fields ≠ []) (hlimit : fields.length ≤ limit)
    (htextual : ∀ field ∈ fields, Textual depth field.2)
    (hitem : ∀ field ∈ fields, ∀ rest, item ((render field.2).toList ++ rest) = some (field.2, rest))
    (read : List (String × Json)) (rest : List Char) :
    fields? item limit read
        ([','].intercalate (fields.map fieldChars) ++ '\x7d' :: rest) =
      some (.object (read.reverse ++ fields), rest) := by
  induction fields generalizing limit read with
  | nil => exact absurd rfl hfields
  | cons field fields ih =>
    rw [List.forall_mem_cons] at htextual hitem
    obtain ⟨limit, rfl⟩ := Nat.exists_eq_add_of_le' (Nat.le_trans (Nat.le_add_left 1 _) hlimit)
    have hread := field?_render htextual.1 hitem.1
    cases fields with
    | nil =>
      rw [List.map_singleton, List.intercalate_singleton, fields?_close (hread _), List.reverse_cons]
    | cons other fields =>
      have hrest := ih (List.cons_ne_nil _ _) (Nat.le_of_succ_le_succ hlimit) htextual.2 hitem.2
        (field :: read)
      rw [List.map_cons] at hrest
      rw [List.map_cons, List.map_cons, List.intercalate_cons_cons, List.append_assoc _ [','],
        List.append_assoc _ _ ('\x7d' :: rest), List.append_assoc [','], List.singleton_append,
        fields?_comma (hread _), hrest, List.reverse_cons, List.append_assoc, List.singleton_append]

theorem value?_array (hskip : skipBlanks chars = chars) (hopen : ∀ rest, chars ≠ ']' :: rest) :
    value? limit (depth + 1) ('[' :: chars) = items? (value? limit depth) limit [] chars := by
  simp only [value?, hskip]

theorem value?_object (hskip : skipBlanks chars = chars) (hopen : ∀ rest, chars ≠ '\x7d' :: rest) :
    value? limit (depth + 1) ('\x7b' :: chars) = fields? (value? limit depth) limit [] chars := by
  simp only [value?, hskip]

theorem value?_render_array (h : ∀ v ∈ items, Textual depth v)
    (hlimit : (render (.array items)).toList.length ≤ limit)
    (hread : ∀ v ∈ items, (render v).toList.length ≤ limit →
      ∀ rest, value? limit depth ((render v).toList ++ rest) = some (v, rest)) (rest : List Char) :
    value? limit (depth + 1) ((render (.array items)).toList ++ rest) = some (.array items, rest) := by
  rw [toList_render_array, List.length_cons, List.length_append] at hlimit
  rw [toList_render_array, List.cons_append, List.append_assoc, List.singleton_append]
  cases items with
  | nil => rfl
  | cons item items =>
    have hne : ∀ part ∈ (item :: items).map fun v => (render v).toList, part ≠ [] := by
      rw [List.forall_mem_map]
      exact fun v hv => toList_render_ne_nil (h v hv)
    have hfits : ([','].intercalate ((item :: items).map fun v => (render v).toList)).length ≤ limit := by
      omega
    obtain ⟨hlength, hparts⟩ := limit_of_intercalate [','] hne hfits
    rw [List.length_map] at hlength
    have hitems := items?_render (List.cons_ne_nil item items) hlength h
      (fun v hv => hread v hv (hparts _ (List.mem_map_of_mem hv))) [] rest
    -- The array is not empty, because what comes first is the first character of an item.
    obtain ⟨c, chars, hchars, hblank, hopen⟩ := exists_head (h item List.mem_cons_self)
    obtain ⟨more, hmore⟩ := exists_intercalate_cons [','] (render item).toList
      (items.map fun v => (render v).toList)
    rw [List.map_cons, hmore, hchars, List.cons_append, List.cons_append] at hitems ⊢
    rw [value?_array (skipBlanks_cons hblank _) (fun _ heq => hopen (List.cons.inj heq).1), hitems]
    rfl

theorem value?_render_object (h : ∀ field ∈ fields, Textual depth field.2)
    (hlimit : (render (.object fields)).toList.length ≤ limit)
    (hread : ∀ field ∈ fields, (render field.2).toList.length ≤ limit →
      ∀ rest, value? limit depth ((render field.2).toList ++ rest) = some (field.2, rest))
    (rest : List Char) :
    value? limit (depth + 1) ((render (.object fields)).toList ++ rest) = some (.object fields, rest) := by
  rw [toList_render_object, List.length_cons, List.length_append] at hlimit
  rw [toList_render_object, List.cons_append, List.append_assoc, List.singleton_append]
  cases fields with
  | nil => rfl
  | cons field fields =>
    have hne : ∀ part ∈ (field :: fields).map fieldChars, part ≠ [] := by
      rw [List.forall_mem_map]
      exact fun _ _ => List.append_ne_nil_of_right_ne_nil _ (List.cons_ne_nil _ _)
    have hfits : ([','].intercalate ((field :: fields).map fieldChars)).length ≤ limit := by omega
    obtain ⟨hlength, hparts⟩ := limit_of_intercalate [','] hne hfits
    rw [List.length_map] at hlength
    have hvalue : ∀ other ∈ field :: fields, (render other.2).toList.length ≤ limit := by
      intro other hmem
      have hother := hparts _ (List.mem_map_of_mem hmem)
      rw [fieldChars, List.length_append, List.length_cons] at hother
      omega
    have hfields := fields?_render (List.cons_ne_nil field fields) hlength h
      (fun other hmem => hread other hmem (hvalue other hmem)) [] rest
    obtain ⟨more, hmore⟩ := exists_intercalate_cons [','] (fieldChars field) (fields.map fieldChars)
    rw [List.map_cons, hmore, fieldChars, toList_renderString, List.cons_append, List.cons_append,
      List.cons_append] at hfields ⊢
    rw [value?_object rfl (fun _ heq => absurd (List.cons.inj heq).1 (by decide)), hfields]
    rfl

end Nested

/-- A value without numbers is read back, whatever follows it. -/
theorem value?_render (h : Textual depth v) (hlimit : (render v).toList.length ≤ limit)
    (rest : List Char) : value? limit depth ((render v).toList ++ rest) = some (v, rest) := by
  induction h generalizing rest with
  | @null depth => cases depth <;> rfl
  | @bool depth b => cases depth <;> cases b <;> rfl
  | @string depth s =>
    have hscalar : scalar? ((render (.string s)).toList ++ rest) = some (.string s, rest) := by
      rw [render, toList_renderString, List.cons_append, List.append_assoc, List.singleton_append]
      exact congrArg (Option.map _) (stringBody_render s rest)
    rw [render, toList_renderString] at hscalar ⊢
    cases depth <;> exact hscalar
  | array h ih => exact value?_render_array h hlimit ih rest
  | object h ih => exact value?_render_object h hlimit ih rest

end Parser

/-- A document without numbers is read back from its text. -/
theorem ofText?_render {v : Json} (h : Textual maxDepth v) : ofText? (render v) = some v := by
  have hread := Parser.value?_render h (Nat.le_refl _) []
  rw [List.append_nil] at hread
  have hskip := Parser.skipBlanks_render h []
  rw [List.append_nil] at hskip
  rw [ofText?, hskip, hread, Option.map_some]

end BlockAudit.Json
