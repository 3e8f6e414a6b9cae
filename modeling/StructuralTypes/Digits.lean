set_option autoImplicit false

namespace StructuralTypes.Digits

/-- The number that a run of digits stands for. -/
def value (digits : List Char) : Nat :=
  digits.foldl (fun n c => 10 * n + (c.toNat - '0'.toNat)) 0

/-- The number that a text stands for, if it holds digits and nothing else. -/
def value? (text : List Char) : Option Nat :=
  if text.isEmpty || text.any (fun c => !c.isDigit) then none else some (value text)

end StructuralTypes.Digits
