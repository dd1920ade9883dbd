/-!
# Binary floating point numbers from decimal ones

A literal with a fraction or an exponent stands for the nearest number of a binary
format, the one with an even last digit if two are equally near.  The nearest number
is found in exact arithmetic on natural numbers and returned as the word that
encodes it.

In the encoding the words of the finite numbers, in order, are `0, 1, 2, …`: going
up by one unit in the last place always adds one to the word, also from one exponent
to the next.  That is why a rounded significand can be added to the word without
looking whether it has overflowed.

## Main definitions

* `Number.Format`: a binary format.
* `Number.roundDiv`: a quotient rounded to the nearest natural number.
* `Number.Format.ofRatio`: the word of the number nearest to a ratio.
* `Number.Format.ofDecimal`: the word of the number nearest to a decimal number.
* `Number.Format.convert`: the word of the number of one format nearest to a number
  of another.
-/

namespace PixelWrap.Number

/-- A binary format for numbers that are not negative. -/
structure Format where
  /-- The number of binary digits of a significand. -/
  precision : Nat
  /-- The least unit in the last place is two to the negative of this. -/
  minUnit : Nat
  /-- The word that stands for infinity. -/
  infinity : Nat
  deriving DecidableEq, Repr

/-- The format of words of 32 bits. -/
def single : Format := ⟨24, 149, 0x7F800000⟩

/-- The format of words of 64 bits. -/
def double : Format := ⟨53, 1074, 0x7FF0000000000000⟩

/-- The natural number nearest to `n / d`, the even one if two are equally near. -/
def roundDiv (n d : Nat) : Nat :=
  let q := n / d
  let r := n % d
  if 2 * r < d || (2 * r == d && q % 2 == 0) then q else q + 1

namespace Format

/-- The word of the number nearest to `n / d`.  With `unit` the distance in powers of
two between the least unit of the format and the unit of the result, the word is
`unit` times the number of significands of one exponent, plus the significand. -/
def ofRatio (f : Format) (n d : Nat) : Nat :=
  -- In least units the ratio is `scaled / d`; the unit grows until the significand
  -- has no more than `precision` digits.
  let scaled := n * Nat.pow 2 f.minUnit
  let unit := (scaled / d).log2 + 1 - f.precision
  let word := unit * Nat.pow 2 (f.precision - 1) + roundDiv scaled (d * Nat.pow 2 unit)
  min word f.infinity

/-- Powers of ten beyond this many digits lie outside every format in use. -/
def maxDigits : Nat := 400

/-- The number of decimal digits of a natural number. -/
def digitCount (n : Nat) : Nat := (Nat.toDigits 10 n).length

/-- The word of the number nearest to `n * 10 ^ e`. -/
def ofDecimal (f : Format) (n : Nat) (e : Int) : Nat :=
  if n = 0 then 0
  else if e + digitCount n > maxDigits then f.infinity
  else if e + digitCount n < -maxDigits then 0
  else if 0 ≤ e then f.ofRatio (n * Nat.pow 10 e.toNat) 1
  else f.ofRatio n (Nat.pow 10 (-e).toNat)

/-- The word in the format `g` of the number nearest to the one that a word stands
for in the format `f`. -/
def convert (f g : Format) (word : Nat) : Nat :=
  if word = f.infinity then g.infinity
  else
    let block := Nat.pow 2 (f.precision - 1)
    let unit := word / block - 1
    g.ofRatio ((word - unit * block) * Nat.pow 2 unit) (Nat.pow 2 f.minUnit)

end Format

end PixelWrap.Number
