/-! JSON values. -/
namespace BlockAudit

inductive Json where
  | null
  | bool (b : Bool)
  | natural (n : Nat)
  /-- A number with a sign, a fraction or an exponent, as it is written. -/
  | decimal (literal : String)
  | string (s : String)
  | array (items : List Json)
  /-- The fields in document order. A name may occur more than once. -/
  | object (fields : List (String × Json))

end BlockAudit
