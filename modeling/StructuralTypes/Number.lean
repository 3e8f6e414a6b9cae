set_option autoImplicit false

namespace StructuralTypes

/-- A double-precision number, given by its 64-bit encoding. -/
structure Number where
  bits : UInt64
deriving DecidableEq, Inhabited

namespace Number

def zero : Number := ⟨0⟩

/-- The encoding that stands for everything that is not a number. -/
def nan : Number := ⟨0x7ff8000000000000⟩

/-- The weight of the sign bit. -/
abbrev signWeight : Nat := 9223372036854775808

/-- The weight of the lowest exponent bit, above fifty-two bits of fraction. -/
abbrev exponentWeight : Nat := 4503599627370496

def isNegative (n : Number) : Bool := signWeight ≤ n.bits.toNat

/-- The eleven exponent bits. -/
def exponentField (n : Number) : Nat := n.bits.toNat / exponentWeight % 2048

/-- The bits below the exponent. -/
def fraction (n : Number) : Nat := n.bits.toNat % exponentWeight

def isZero (n : Number) : Bool := n.exponentField == 0 && n.fraction == 0

def isNaN (n : Number) : Bool := n.exponentField == 2047 && n.fraction != 0

def isInfinite (n : Number) : Bool := n.exponentField == 2047 && n.fraction == 0

/-- One encoding for each literal: the zeros share one, and so does everything that is no number. -/
def canonical (n : Number) : Number :=
  if n.isZero then zero else if n.isNaN then nan else n

/-- Equality of number literals. -/
def same (a b : Number) : Bool := a.canonical == b.canonical

def isFalsy (n : Number) : Bool := n.isZero || n.isNaN

/-- The integer significand of a finite number. -/
def significand (n : Number) : Nat :=
  if n.exponentField = 0 then n.fraction else exponentWeight + n.fraction

/-- The power of two that the significand of a finite number is multiplied by. -/
def exponent (n : Number) : Int :=
  if n.exponentField = 0 then -1074 else (n.exponentField : Int) - 1075

end Number

end StructuralTypes
