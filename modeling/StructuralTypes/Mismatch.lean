import StructuralTypes.Diagnostic

set_option autoImplicit false

namespace StructuralTypes

inductive Mismatch where
  | missingProperty (name : String)
  /-- The reason inside of the property is kept when it is about a property too. -/
  | propertyType (name : String) (source target : Ty) (nested : Option Mismatch)
  /-- An optional property stands where a required one is expected. -/
  | optionalProperty (name : String)
  | indexValue (source target : Ty)
  | result (source target : Ty)
  | param (index : Nat) (source target : Ty)
  | paramCount (source target : Nat)
  | elementCount (source target : Nat)
  | tupleElement (index : Nat) (source target : Ty)
  | arrayElement (source target : Ty)
  /-- No member of the target accepts the source. -/
  | noMember (source : Ty) (members : List Ty)
  /-- A member of the source is not accepted by the target. -/
  | sourceMember (member target : Ty)
  /-- A member of the target does not accept the source. -/
  | targetMember (member : Ty)
  | literal (source target : Ty)
  | primitive (source target : Ty)
  | other (source target : Ty)
  /-- The comparison gave up at a limit. -/
  | limit

namespace Mismatch

def isPropertyType : Mismatch → Bool
  | propertyType _ _ _ _ => true
  | _ => false

/-- The reason is about a single property. -/
def isAboutProperty : Mismatch → Bool
  | propertyType _ _ _ _ | missingProperty _ | optionalProperty _ => true
  | _ => false

/-- The dotted path of the property that the reason is about. -/
def path? : Mismatch → Option String
  | missingProperty name => some name
  | optionalProperty name => some name
  | propertyType name _ _ none => some name
  | propertyType name _ _ (some nested) =>
    match nested.path? with
    | some rest => some (name ++ "." ++ rest)
    | none => some name
  | _ => none
termination_by structural m => m

/-- Appends a name to a dotted path; nothing divides it from an empty path. -/
def extendPath (path name : String) : String := if path.isEmpty then name else path ++ "." ++ name

/-- The path and the two types of the innermost property whose types differ. -/
def innermostFrom (path : String) : Mismatch → String × Ty × Ty
  | propertyType name source target none => (extendPath path name, source, target)
  | propertyType name source target (some nested) =>
    if nested.isPropertyType then nested.innermostFrom (extendPath path name)
    else (extendPath path name, source, target)
  | _ => (path, .never, .never)
termination_by structural m => m

def innermost (m : Mismatch) : String × Ty × Ty := m.innermostFrom ""

/-- The report for an assignment of `source` to `target`: about the property where there is one,
about the whole assignment otherwise. -/
def finding (source target : Ty) : Mismatch → Finding
  | missingProperty name => .missingProperty name
  | propertyType name s t nested =>
    let (path, actual, expected) := innermost (propertyType name s t nested)
    .propertyMismatch path actual expected
  | _ => .notAssignable source target

end Mismatch

end StructuralTypes
