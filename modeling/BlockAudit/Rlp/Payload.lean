import BlockAudit.Bytes

/-! Reading encoded items: where the payload of the first item of a buffer lies. -/
namespace BlockAudit.Rlp

inductive RlpError where
  | isTooShort
  | isTooBig
  | expectedToBeList
  | incorrectListLen
  | dataLenWithZeroPrefix
  | invalidIndirection
deriving DecidableEq

def RlpError.name : RlpError → String
  | .isTooShort => "RlpIsTooShort"
  | .isTooBig => "RlpIsTooBig"
  | .expectedToBeList => "RlpExpectedToBeList"
  | .incorrectListLen => "RlpIncorrectListLen"
  | .dataLenWithZeroPrefix => "RlpDataLenWithZeroPrefix"
  | .invalidIndirection => "RlpInvalidIndirection"

/-- The lengths of an item's header and of its payload. -/
structure Extent where
  header : Nat
  payload : Nat
deriving DecidableEq

def Extent.total (extent : Extent) : Nat :=
  extent.header + extent.payload

def isList : Bytes → Bool
  | [] => false
  | first :: _ => 0xc0 ≤ first

/-- The extent of an item whose length stands in the `k` bytes after the first. -/
def longExtent (rest : Bytes) (k : Nat) : Except RlpError Extent :=
  if rest.head? = some 0 then .error .dataLenWithZeroPrefix
  else if rest.length < k then .error .isTooShort
  else
    let payload := ofBigEndian (rest.take k)
    if payload ≤ 55 then .error .invalidIndirection else .ok ⟨1 + k, payload⟩

/-- The extent that the header announces, whatever follows it. -/
def announced : Bytes → Except RlpError Extent
  | [] => .error .isTooShort
  | first :: rest =>
    if first < 0x80 then .ok ⟨0, 1⟩
    else if first ≤ 0xb7 then .ok ⟨1, first.toNat - 0x80⟩
    else if first < 0xc0 then longExtent rest (first.toNat - 0xb7)
    else if first ≤ 0xf7 then .ok ⟨1, first.toNat - 0xc0⟩
    else longExtent rest (first.toNat - 0xf7)

/-- The extent of the item at the front of `buffer`, all of which has to be there. -/
def extent (buffer : Bytes) : Except RlpError Extent := do
  let extent ← announced buffer
  if buffer.length < extent.total then throw .isTooShort
  return extent

/-- The payload of the item at the front of `buffer`, be it a string or a list. -/
def payload (buffer : Bytes) : Except RlpError Bytes := do
  let extent ← extent buffer
  return (buffer.drop extent.header).take extent.payload

/-- The payload of the item at `index` of a row of items. -/
def payloadAt (row : Bytes) : Nat → Except RlpError Bytes
  | 0 => payload row
  | index + 1 => do
    let first ← extent row
    payloadAt (row.drop first.total) index

theorem total_pos_of_longExtent {rest : Bytes} {k : Nat} {e : Extent}
    (h : longExtent rest k = .ok e) : 0 < e.total := by
  unfold longExtent at h
  grind [Extent.total]

theorem total_pos_of_announced {buffer : Bytes} {e : Extent} (h : announced buffer = .ok e) :
    0 < e.total := by
  unfold announced at h
  grind [Extent.total, total_pos_of_longExtent]

theorem extent_bounds {buffer : Bytes} {e : Extent} (h : extent buffer = .ok e) :
    0 < e.total ∧ e.total ≤ buffer.length := by
  cases ha : announced buffer with
  | error err => simp [extent, ha, bind, Except.bind] at h
  | ok e' =>
    have hpos := total_pos_of_announced ha
    simp only [extent, ha, bind, Except.bind] at h
    split at h
    · cases h
    · cases h
      exact ⟨hpos, by omega⟩

/-- The payloads of the items that follow one another in a row, up to the first that is none. -/
def payloads (row : Bytes) : List Bytes :=
  match _h : extent row with
  | .error _ => []
  | .ok first => (row.drop first.header).take first.payload :: payloads (row.drop first.total)
termination_by row.length
decreasing_by
  have := extent_bounds (by assumption)
  simp
  omega

/-- The payloads of a list's items as a lenient reader finds them: the first has to lie inside the list,
the others may lie behind its end. -/
def looseItems (buffer : Bytes) : Except RlpError (List Bytes) := do
  if !isList buffer then throw .expectedToBeList
  match extent buffer with
  | .error _ => return []
  | .ok list =>
    let row := buffer.drop list.header
    match extent (row.take list.payload) with
    | .error _ => return []
    | .ok _ => return payloads row

end BlockAudit.Rlp
