import StructuralTypes.Checker.Explain
import StructuralTypes.Proofs.Message

set_option autoImplicit false

namespace StructuralTypes

/-- The three arguments of a report about the type of a property, with the text behind each. -/
def propertySlots : List (Message.Slot 3) :=
  [⟨0, "' has type "⟩, ⟨1, " but expected "⟩, ⟨2, ""⟩]

theorem Finding.message_propertyMismatch {Location : Type} (path : String) (actual expected : Ty)
    (location : Location) :
    ((Finding.propertyMismatch path actual expected).report location).message =
      "Property '" ++ path ++ "' has type " ++ actual.render ++ " but expected " ++
        expected.render := by
  let args := [path, actual.render, expected.render]
  have written : Code.propertyMismatch.template = Message.template "Property '" propertySlots := by
    decide +kernel
  have plainStart : Message.Plain "Property '" := by decide +kernel
  have plain : ∀ slot ∈ propertySlots, Message.Plain slot.after := by decide +kernel
  have filled : Message.fill (Message.template "Property '" propertySlots) args =
      Message.text args "Property '" propertySlots := Message.fill_template plainStart plain
  change Message.fill Code.propertyMismatch.template args = _
  rw [written, filled]
  simp [Message.text, propertySlots, args, String.append_assoc]

namespace Mismatch

/-- A property that is followed inwards, with the types on both sides. -/
structure Step where
  name : String
  actual : Ty
  expected : Ty

/-- The reason that leads through properties to the last one of them, inside of which no further
reason is known. -/
def chain (first : Step) : List Step → Mismatch
  | [] => .propertyType first.name first.actual first.expected none
  | next :: rest => .propertyType first.name first.actual first.expected (some (chain next rest))

/-- The dotted path of names as a report has it, from the first name on that is not empty. -/
def reportedPath (names : List String) : String :=
  ".".intercalate (names.dropWhile String.isEmpty)

theorem finding_of_isPropertyType {m : Mismatch} (about : m.isPropertyType = true)
    (source target : Ty) : m.finding source target =
      .propertyMismatch m.innermost.1 m.innermost.2.1 m.innermost.2.2 := by
  cases m with
  | propertyType name s t nested => rfl
  | _ => cases about

theorem path?_chain (first : Step) (rest : List Step) :
    (chain first rest).path? = some (".".intercalate ((first :: rest).map (·.name))) := by
  induction rest generalizing first with
  | nil => simp [chain, path?]
  | cons next rest ih => simp [chain, path?, ih]

theorem isPropertyType_chain (first : Step) (rest : List Step) :
    (chain first rest).isPropertyType = true := by
  cases rest <;> rfl

/-- A path that is extended by a name counts as the path and the name in a row. -/
theorem reportedPath_extendPath (path name : String) (names : List String) :
    reportedPath (extendPath path name :: names) = reportedPath (path :: name :: names) := by
  cases blank : path.isEmpty with
  | true => simp [extendPath, reportedPath, blank]
  | false =>
      have written : (path ++ ("." ++ name)).isEmpty = false := by simp
      simp [extendPath, reportedPath, blank, written, String.append_assoc]

theorem reportedPath_singleton (name : String) : reportedPath [name] = name := by
  cases blank : name.isEmpty with
  | true => simp_all [reportedPath]
  | false => simp [reportedPath, blank]

/-- What is written so far comes in front of the names on the way, and the types are those of the last
property. -/
theorem innermostFrom_chain (path : String) (first : Step) (rest : List Step) :
    (chain first rest).innermostFrom path =
      (reportedPath (path :: (first :: rest).map (·.name)),
        ((first :: rest).getLast (List.cons_ne_nil first rest)).actual,
        ((first :: rest).getLast (List.cons_ne_nil first rest)).expected) := by
  induction rest generalizing path first with
  | nil =>
      rw [chain, innermostFrom, List.map_singleton, ← reportedPath_extendPath,
        reportedPath_singleton]
      rfl
  | cons next rest ih =>
      rw [chain, innermostFrom, if_pos (isPropertyType_chain next rest), ih,
        reportedPath_extendPath]
      simp

/-- Leaving out names at the front makes a path no longer. -/
theorem length_intercalate_dropWhile_le (test : String → Bool) (names : List String) :
    (".".intercalate (names.dropWhile test)).length ≤ (".".intercalate names).length := by
  induction names with
  | nil => exact Nat.le_refl _
  | cons name names ih =>
      rw [List.dropWhile_cons]
      split
      · refine Nat.le_trans ih ?_
        cases names with
        | nil => simp
        | cons next rest =>
            simp only [String.intercalate_cons_cons, String.length_append]
            omega
      · exact Nat.le_refl _

/-- An empty first name is lost together with the dot behind it. -/
theorem reportedPath_eq_iff (name : String) (names : List String) :
    reportedPath (name :: names) = ".".intercalate (name :: names) ↔ name ≠ "" ∨ names = [] := by
  by_cases blank : name = ""
  · subst blank
    cases names with
    | nil => simp [reportedPath]
    | cons next rest =>
        have shorter := length_intercalate_dropWhile_le String.isEmpty (next :: rest)
        have dot : ("" ++ "." : String).length = 1 := by rfl
        constructor
        · intro same
          have lengths := congrArg String.length same
          rw [reportedPath, List.dropWhile_cons_of_pos (by rfl), String.intercalate_cons_cons,
            String.length_append] at lengths
          omega
        · rintro (visible | none)
          · exact absurd rfl visible
          · cases none
  · have kept : reportedPath (name :: names) = ".".intercalate (name :: names) := by
      rw [reportedPath, List.dropWhile_cons_of_neg (by simpa using blank)]
    exact ⟨fun _ => .inl blank, fun _ => kept⟩

/-- The path of a reason that leads through properties has all their names. Its report has those from
the first on that is not empty, and is about the types of the last property. So the two paths agree
unless the first of several names is empty. -/
theorem path_eq_reported_iff (source target : Ty) (first : Step) (rest : List Step) :
    let names := (first :: rest).map (·.name)
    let last := (first :: rest).getLast (List.cons_ne_nil first rest)
    (chain first rest).path? = some (".".intercalate names) ∧
    (chain first rest).finding source target =
      .propertyMismatch (reportedPath names) last.actual last.expected ∧
    (∀ {Location : Type} (location : Location),
      (((chain first rest).finding source target).report location).message =
        "Property '" ++ reportedPath names ++ "' has type " ++ last.actual.render ++
          " but expected " ++ last.expected.render) ∧
    ((chain first rest).path? = some (reportedPath names) ↔ first.name ≠ "" ∨ rest = []) := by
  intro names last
  have found : (chain first rest).finding source target =
      .propertyMismatch (reportedPath names) last.actual last.expected := by
    have inner : (chain first rest).innermost =
        (reportedPath ("" :: names), last.actual, last.expected) := innermostFrom_chain "" first rest
    rw [finding_of_isPropertyType (isPropertyType_chain first rest), inner]
    rfl
  refine ⟨path?_chain first rest, found, fun location => ?_, ?_⟩
  · rw [found, Finding.message_propertyMismatch]
  · rw [path?_chain, Option.some_inj, eq_comm]
    refine (reportedPath_eq_iff first.name (rest.map (·.name))).trans ?_
    rw [List.map_eq_nil_iff]

/-- An object with a slot `x`, in the only slot of an object, which has the empty name. -/
def nameless (ty : Ty) : Ty :=
  .object { properties := [⟨"", .object { properties := [⟨"x", ty, false⟩] }, false⟩] }

/-- What a checker says of two such objects. -/
def explanation : Option Mismatch :=
  (CheckM.ask {} (CheckM.explain {} (nameless .string) (nameless .number))).value

/-- A reason that leads through the empty name, as a checker gives it too. The dot in front of `x` is
part of its path, and the report is without it. -/
theorem dot_lost :
    let reason := chain ⟨"", .any, .any⟩ [⟨"x", .string, .number⟩]
    reason.path? = some ".x" ∧
    reason.finding (nameless .string) (nameless .number) =
      .propertyMismatch "x" .string .number ∧
    explanation.map (·.path?) = some (some ".x") ∧
    explanation.map (fun reason =>
      ((reason.finding (nameless .string) (nameless .number)).report ()).message) =
        some "Property 'x' has type string but expected number" := by
  refine ⟨?_, rfl, ?_, ?_⟩ <;> decide +kernel

end Mismatch

end StructuralTypes
