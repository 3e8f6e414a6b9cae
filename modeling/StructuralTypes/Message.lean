import StructuralTypes.Digits

set_option autoImplicit false

namespace StructuralTypes.Message

/-- A placeholder's index: decimal digits, with a plus sign allowed in front. -/
def index? : List Char → Option Nat
  | '+' :: digits => Digits.value? digits
  | digits => Digits.value? digits

/-- Reads what follows an opening brace: the argument that it stands for, and the number of
characters up to and including the first closing brace. -/
def placeholder? (args : List String) (rest : List Char) : Option (String × Nat) := do
  let body := rest.takeWhile (· != '\x7d')
  guard (body.length < rest.length)
  let arg ← args[← index? body]?
  return (arg, body.length + 1)

/-- Fills a template after leaving out its first `skip` characters. An opening brace that starts no
placeholder with an argument is kept as it is. -/
def fillFrom (args : List String) : Nat → List Char → List Char
  | _, [] => []
  | skip + 1, _ :: rest => fillFrom args skip rest
  | 0, c :: rest =>
    if c = '\x7b' then
      match placeholder? args rest with
      | some (arg, length) => arg.toList ++ fillFrom args length rest
      | none => c :: fillFrom args 0 rest
    else
      c :: fillFrom args 0 rest

/-- Fills a template. It is read once from left to right, so text that comes from an argument is never
read as a placeholder. -/
def fill (template : String) (args : List String) : String :=
  String.ofList (fillFrom args 0 template.toList)

end StructuralTypes.Message
