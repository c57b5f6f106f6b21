/-
Machine words: the integers that fit into a number of binary digits.
-/

namespace TreeSchema.Word

/-- The number of words of `bits` binary digits. -/
def count (bits : Nat) : Nat := Nat.pow 2 bits

/-- Whether an integer is a word without sign. -/
def isUnsigned (bits : Nat) (n : Int) : Bool := 0 ≤ n && n < count bits

/-- Whether an integer is a word with sign, of `bits` binary digits and the sign. -/
def isSigned (bits : Nat) (n : Int) : Bool := -(count bits : Int) ≤ n && n < count bits

/-- The word with sign that a count of 64 binary digits is read as. -/
def wrap (n : Nat) : Int := (n : Int).bmod (count 64)

end TreeSchema.Word
