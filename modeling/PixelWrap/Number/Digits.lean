import PixelWrap.Text.Basic

/-!
# Digits and the numbers they spell

## Main definitions

* `digitValue`: the value of a digit in bases up to sixteen.
* `ofDigits`: the number that a run of digits spells.
-/

namespace PixelWrap

/-- An octal digit. -/
def isOctDigit (c : Char) : Bool := '0' ≤ c && c ≤ '7'

/-- A hexadecimal digit of either case. -/
def isHexDigit (c : Char) : Bool :=
  c.isDigit || ('a' ≤ c && c ≤ 'f') || ('A' ≤ c && c ≤ 'F')

/-- The value of a decimal or hexadecimal digit. -/
def digitValue (c : Char) : Nat :=
  if 'a' ≤ c then c.toNat - 'a'.toNat + 10
  else if 'A' ≤ c then c.toNat - 'A'.toNat + 10
  else c.toNat - '0'.toNat

/-- The number that digits spell in the given base, most significant digit first. -/
def ofDigits (base : Nat) (ds : Text) : Nat :=
  ds.foldl (fun n d => n * base + digitValue d) 0

@[simp] theorem ofDigits_nil (base : Nat) : ofDigits base [] = 0 := rfl

/-- A digit at the end counts once, and all digits before it `base` times. -/
theorem ofDigits_concat (base : Nat) (ds : Text) (d : Char) :
    ofDigits base (ds ++ [d]) = ofDigits base ds * base + digitValue d := by
  simp [ofDigits]

end PixelWrap
