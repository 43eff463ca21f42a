/-! Numbers of at most 64 bits in decimal or hexadecimal digits. -/
namespace BlockAudit.Text

/-- The value of a digit in a base of at most 16, in either case. -/
def digit? (base : Nat) (c : Char) : Option Nat :=
  let value :=
    if '0' ≤ c && c ≤ '9' then some (c.toNat - '0'.toNat)
    else if 'a' ≤ c && c ≤ 'f' then some (c.toNat - 'a'.toNat + 10)
    else if 'A' ≤ c && c ≤ 'F' then some (c.toNat - 'A'.toNat + 10)
    else none
  value.filter (· < base)

/-- The number written by `digits`, most significant first. No digits are zero. -/
def ofDigits? (base : Nat) (digits : List Char) : Option Nat :=
  digits.foldlM (fun n c => (digit? base c).map (base * n + ·)) 0

/-- Reads a number below 2^64: a plus sign is allowed, one digit at least is required. -/
def unsigned? (base : Nat) (s : String) : Option UInt64 :=
  let digits := match s.toList with
    | '+' :: rest => rest
    | chars => chars
  if digits.isEmpty then none
  else (ofDigits? base digits).filter (· < UInt64.size) |>.map UInt64.ofNat

end BlockAudit.Text
