/-
Decimal numbers and whether they are within range.

A number is kept as a significand of at most 64 binary digits times a power of ten;
digits that do not fit are dropped, those before the point each for one more power of
ten.  The range is that of binary floating point with 53 digits and exponents below
1024: a number is out of range if significand and power of ten, each rounded, have a
product that rounds to 2^1024 or more.
-/
import TreeSchema.Word

namespace TreeSchema

/-- The number that a row of decimal digits denotes. -/
def natOfDigits (ds : List Char) : Nat := ds.foldl (fun n d => 10 * n + (d.toNat - '0'.toNat)) 0

/-- The number `significand` times the power of ten to `exponent`. -/
structure Decimal where
  significand : Nat
  exponent : Int
  deriving DecidableEq

namespace Decimal

/-- The significand with one more digit, if there is room for it. -/
def extend? (x : Decimal) (d : Char) : Option Nat :=
  let n := 10 * x.significand + (d.toNat - '0'.toNat)
  if n < Word.count 64 then some n else none

/-- One more digit before the point.  After one that was dropped all are. -/
def integral (x : Decimal) (d : Char) : Decimal :=
  match x.exponent, x.extend? d with
  | 0, some n => ⟨n, 0⟩
  | e, _ => ⟨x.significand, e + 1⟩

/-- More digits after the point, up to the first for which there is no room. -/
def fractional (x : Decimal) : List Char → Decimal
  | [] => x
  | d :: ds =>
    match x.extend? d with
    | some n => fractional ⟨n, x.exponent - 1⟩ ds
    | none => x

/-- The number scaled by an exponent as it is written, or by none. -/
def scale (x : Decimal) : List Char → Decimal
  | [] => x
  | _ :: '-' :: ds => ⟨x.significand, x.exponent - natOfDigits ds⟩
  | _ :: '+' :: ds => ⟨x.significand, x.exponent + natOfDigits ds⟩
  | _ :: ds => ⟨x.significand, x.exponent + natOfDigits ds⟩

/-- The size of a number as it is written, whatever its sign. -/
def ofLiteral (literal : List Char) : Decimal :=
  let cs := literal.dropWhile (· = '-')
  let x := (cs.takeWhile Char.isDigit).foldl integral ⟨0, 0⟩
  match cs.dropWhile Char.isDigit with
  | '.' :: rest => (x.fractional (rest.takeWhile Char.isDigit)).scale (rest.dropWhile Char.isDigit)
  | rest => x.scale rest

/-- The nearest number of at most 53 binary digits and zeros after them; of two that are
equally near, the one whose last digit is even. -/
def round (n : Nat) : Nat :=
  let unit := Word.count (n.log2 - 52)
  let q := n / unit
  let twice := 2 * (n % unit)
  let up := unit < twice || (twice = unit && q % 2 = 1)
  (if up then q + 1 else q) * unit

/-- Whether a number is within range. -/
def isFinite (x : Decimal) : Bool :=
  x.significand = 0 || x.exponent < 0 ||
    (x.exponent ≤ 308 &&
      round (round x.significand * round (Nat.pow 10 x.exponent.toNat)) < Word.count 1024)

end Decimal

end TreeSchema
