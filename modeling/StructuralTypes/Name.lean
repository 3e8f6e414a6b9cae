set_option autoImplicit false

namespace StructuralTypes.Name

/-- The order of the UTF-8 bytes, which is that of the code points. -/
def order (a b : String) : Ordering := if a < b then .lt else if b < a then .gt else .eq

/-- The escapes of quoted text. -/
def escape : Char → List Char
  | '"' => ['\\', '"']
  | '\\' => ['\\', '\\']
  | '\n' => ['\\', 'n']
  | '\r' => ['\\', 'r']
  | '\t' => ['\\', 't']
  | c => [c]

/-- A name between double quotes. -/
def quoted (name : String) : String :=
  String.ofList ('"' :: name.toList.flatMap escape ++ ['"'])

/-- The length of a name in UTF-8 bytes. -/
def byteLength (name : String) : Nat := name.utf8ByteSize

end StructuralTypes.Name
