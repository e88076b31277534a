/-!
# Machine words

Counts and positions are natural numbers of one word of 64 bits. Integers have a width in bits and
are kept in two's complement.
-/

namespace LazyMachine.Word

/-- The number of values of `width` bits. -/
def count (width : Nat) : Nat :=
  Nat.pow 2 width

/-- Counts and positions are below this. -/
def bound : Nat :=
  count 64

/-- Arrays of values are shorter than this. Their bytes are counted by the positive integers of 64
bits, and a value takes 48: a word for its kind and five for what is largest, a foreign value. -/
def arrayBound : Nat :=
  (count 63 - 1) / 48 + 1

/-- Whether an integer has a two's complement of `width` bits. -/
def fits (width : Nat) (i : Int) : Bool :=
  -(count (width - 1) : Int) ≤ i && i < (count (width - 1) : Int)

end LazyMachine.Word
