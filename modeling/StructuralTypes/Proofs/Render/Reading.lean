import StructuralTypes.Proofs.Render.Grammar

set_option autoImplicit false

namespace StructuralTypes

section Names

/-- The words that have a meaning of their own in the text of a type. -/
def reservedWords : List String :=
  ["string", "number", "boolean", "null", "undefined", "any", "never", "void", "function", "true",
    "false", "keyof", "Record", "extends"]

/-- A word that neither begins with a digit nor is reserved. -/
def IsIdentifier (name : String) : Prop :=
  Reader.IsWord name ∧ name.toList.head?.all (!·.isDigit) = true ∧ name ∉ reservedWords

instance (name : String) : Decidable (IsIdentifier name) := inferInstanceAs (Decidable (_ ∧ _ ∧ _))

end Names

namespace Ty

open Reader

/-- All of a node is written, with names that are identifiers and texts without a quote. A class is
written as its name alone. -/
def Legible : Ty → Prop
  | literal (.text value) => '"' ∉ value.toList
  | literal (.number _) => False
  | object shape => shape.className = none ∧ ∀ p ∈ shape.properties, IsIdentifier p.name
  | function signature => ∀ p ∈ signature.typeParams, IsIdentifier p.name
  | ref name => IsIdentifier name
  | predicate _ _ => False
  | _ => True

instance : DecidablePred Legible
  | literal (.text value) => inferInstanceAs (Decidable ('"' ∉ value.toList))
  | literal (.number _) | predicate _ _ => isFalse id
  | object shape =>
    inferInstanceAs (Decidable (_ = none ∧ ∀ p ∈ shape.properties, IsIdentifier p.name))
  | function signature =>
    inferInstanceAs (Decidable (∀ p ∈ signature.typeParams, IsIdentifier p.name))
  | ref name => inferInstanceAs (Decidable (IsIdentifier name))
  | primitive _ | literal (.boolean _) | array _ | tuple _ | record _ _ | unionOf _
  | intersectionOf _ | anyFunction | keyof _ => isTrue trivial

/-- A type is read back in every place that can hold it, in the parentheses that it needs there. -/
structure Readable (ty : Ty) : Prop where
  whole {fuel : Nat} {rest : List Char} (enough : 2 * ty.size ≤ fuel) (ends : Ends .whole rest) :
    (read fuel).Reads ty.render ty.bare rest
  alternative {fuel : Nat} {rest : List Char} (single : ty.isUnion = false)
    (enough : 2 * ty.size < fuel) (ends : Ends .alternative rest) :
    (readAlternative (readElement fuel)).Reads (parenthesize ty.render ty.isFunction) ty.bare rest
  factor {fuel : Nat} {rest : List Char} (single : ty.isIntersection = false)
    (enough : 2 * ty.size < fuel) (ends : Ends .factor rest) :
    (readElement fuel).Reads (parenthesize ty.render (ty.isUnion || ty.isFunction)) ty.bare rest
  element {fuel : Nat} {rest : List Char} (enough : 2 * ty.size < fuel) (ends : EndsWord rest) :
    readElement fuel ((parenthesize ty.render ty.isCompound).toList ++ rest) =
      some (ty.bare.arrays rest)

namespace Readable

variable {ty : Ty}

section Places

/-- In parentheses a type is read as it is read as a whole. -/
theorem of_places
    (whole : ∀ {fuel rest}, 2 * ty.size ≤ fuel → Ends .whole rest →
      (read fuel).Reads ty.render ty.bare rest)
    (alternative : ty.isUnion = false → ty.isFunction = false → ∀ {fuel rest},
      2 * ty.size ≤ fuel → Ends .alternative rest →
      (readAlternative (readElement fuel)).Reads ty.render ty.bare rest)
    (factor : ty.isIntersection = false → ty.isUnion = false → ty.isFunction = false →
      ∀ {fuel rest}, 2 * ty.size ≤ fuel → Ends .factor rest →
      (readElement fuel).Reads ty.render ty.bare rest)
    (element : ty.isCompound = false → ∀ {fuel rest}, 2 * ty.size ≤ fuel → EndsWord rest →
      readElement fuel (ty.render.toList ++ rest) = some (ty.bare.arrays rest)) : Readable ty := by
  have wrapped {fuel : Nat} {rest : List Char} (enough : 2 * ty.size < fuel) :
      readElement fuel ((parenthesize ty.render true).toList ++ rest) =
        some (ty.bare.arrays rest) := by
    cases fuel with
    | zero => cases enough
    | succ fuel =>
        have takes : Takes (read fuel) ty := fun r ends => whole (Nat.le_of_lt_succ enough) ends
        rw [parenthesize, if_pos rfl, String.append_assoc]
        exact readElement_of_primary (reads_parenthesized takes)
  constructor
  · exact whole
  · intro fuel rest single enough ends
    cases wraps : ty.isFunction with
    | true =>
        exact readAlternative_of_factor (readFactor_of_element (wrapped enough) ends.factor) ends
    | false => exact alternative single wraps (Nat.le_of_lt enough) ends
  · intro fuel rest single enough ends
    cases wraps : ty.isUnion || ty.isFunction with
    | true => exact readFactor_of_element (wrapped enough) ends
    | false =>
        rw [Bool.or_eq_false_iff] at wraps
        exact factor single wraps.1 wraps.2 (Nat.le_of_lt enough) ends
  · intro fuel rest enough ends
    cases wraps : ty.isCompound with
    | true => exact wrapped enough
    | false => exact element wraps (Nat.le_of_lt enough) ends

theorem of_alternative (intersection : ty.isIntersection = true)
    (reads : ∀ {fuel rest}, 2 * ty.size ≤ fuel → Ends .alternative rest →
      (readAlternative (readElement fuel)).Reads ty.render ty.bare rest) : Readable ty := by
  refine of_places (fun enough ends => ?_) (fun _ _ => reads) (fun single => ?_) (fun simple => ?_)
  · exact readWhole_of_alternative (reads enough ends.alternative) ends
  · rw [intersection] at single
    cases single
  · cases ty with
    | intersectionOf members => cases simple
    | _ => cases intersection

theorem of_factor (reads : ∀ {fuel rest}, 2 * ty.size ≤ fuel → Ends .factor rest →
      (readElement fuel).Reads ty.render ty.bare rest)
    (element : ty.isCompound = false → ∀ {fuel rest}, 2 * ty.size ≤ fuel → EndsWord rest →
      readElement fuel (ty.render.toList ++ rest) = some (ty.bare.arrays rest)) : Readable ty := by
  have alternative {fuel : Nat} {rest : List Char} (enough : 2 * ty.size ≤ fuel)
      (ends : Ends .alternative rest) :
      (readAlternative (readElement fuel)).Reads ty.render ty.bare rest :=
    readAlternative_of_factor (reads enough ends.factor) ends
  refine of_places (fun enough ends => ?_) (fun _ _ => alternative) (fun _ _ _ => reads) element
  exact readWhole_of_alternative (alternative enough ends.alternative) ends

theorem of_element (reads : ∀ {fuel rest}, 2 * ty.size ≤ fuel → EndsWord rest →
    readElement fuel (ty.render.toList ++ rest) = some (ty.bare.arrays rest)) : Readable ty :=
  of_factor (fun enough ends => readFactor_of_element (reads enough ends.word) ends) fun _ => reads

theorem of_primary (reads : ∀ {fuel rest}, 2 * ty.size ≤ fuel + 1 → EndsWord rest →
    (readPrimary (read fuel) (readElement fuel)).Reads ty.render ty.bare rest) : Readable ty := by
  refine of_element fun {fuel rest} enough ends => ?_
  cases fuel with
  | zero =>
      have positive := ty.size_pos
      omega
  | succ fuel => exact readElement_of_primary (reads enough ends)

theorem of_word (isWord : IsWord ty.render) (noKeyof : ty.render ≠ "keyof")
    (noRecord : ty.render ≠ "Record")
    (named : (keywordTypes.lookup ty.render).getD (.ref ty.render) = ty.bare) : Readable ty := by
  refine of_primary fun enough ends => ?_
  rw [← named]
  exact reads_name isWord noKeyof noRecord ends

end Places

section Forms

theorem primitive (kind : Primitive) : Readable (Ty.primitive kind) := by
  refine of_word ?_ ?_ ?_ ?_
  · cases kind <;> decide
  · cases kind <;> decide
  · cases kind <;> decide
  · cases kind <;> rfl

theorem boolean (value : Bool) : Readable (literal (.boolean value)) := by
  refine of_word ?_ ?_ ?_ ?_
  · cases value <;> decide
  · cases value <;> decide
  · cases value <;> decide
  · cases value <;> rfl

theorem anyFunction : Readable Ty.anyFunction :=
  of_word (by decide) (by decide) (by decide) rfl

theorem ref {name : String} (isIdentifier : IsIdentifier name) : Readable (Ty.ref name) := by
  obtain ⟨isWord, -, free⟩ := isIdentifier
  have reserved : ∀ keyword ∈ keywordTypes, keyword.1 ∈ reservedWords := by decide
  have unknown : keywordTypes.lookup name = none := by
    rw [List.lookup_eq_none_iff]
    intro keyword listed
    simp only [bne_iff_ne, ne_eq]
    rintro rfl
    exact free (reserved keyword listed)
  have unreserved {word : String} (reserved : word ∈ reservedWords) : name ≠ word :=
    fun equal => free (equal ▸ reserved)
  refine of_word isWord (unreserved (by decide)) (unreserved (by decide)) ?_
  rw [render, unknown]
  rfl

theorem text {value : String} (clean : '"' ∉ value.toList) : Readable (literal (.text value)) := by
  refine of_primary fun _ _ => ?_
  rw [render, Literal.render, String.append_assoc]
  exact reads_text clean

theorem takes (parts : ∀ child ∈ ty.children, Readable child) {fuel : Nat}
    (enough : 2 * ty.size ≤ fuel + 1) : ∀ child ∈ ty.children, Takes (read fuel) child := by
  intro child member rest ends
  have smaller := size_child_lt member
  exact (parts child member).whole (by omega) ends

theorem array {element : Ty} (readable : Readable element) : Readable (Ty.array element) := by
  refine of_element fun {fuel rest} enough ends => ?_
  have brackets : EndsWord ("[]".toList ++ rest) := .of_mark rfl
  rw [size] at enough
  rw [render, String.toList_append, List.append_assoc, readable.element (by omega) brackets]
  rfl

theorem tuple {elements : List Ty} (parts : ∀ child ∈ (Ty.tuple elements).children, Readable child) :
    Readable (Ty.tuple elements) :=
  of_primary fun enough _ => reads_tuple (takes parts enough)

theorem object {shape : Shape Ty} (structural : shape.className = none)
    (names : ∀ p ∈ shape.properties, IsIdentifier p.name)
    (parts : ∀ child ∈ (Ty.object shape).children, Readable child) : Readable (Ty.object shape) :=
  of_primary fun enough _ =>
    reads_object structural (fun p member => (names p member).1) (takes parts enough)

theorem record {key value : Ty} (parts : ∀ child ∈ (Ty.record key value).children, Readable child) :
    Readable (Ty.record key value) :=
  of_primary fun enough _ =>
    reads_record (takes parts enough key (.head _)) (takes parts enough value (.tail _ (.head _)))

theorem function {signature : Signature Ty}
    (names : ∀ p ∈ signature.typeParams, IsIdentifier p.name)
    (parts : ∀ child ∈ (Ty.function signature).children, Readable child) :
    Readable (Ty.function signature) := by
  refine of_places (fun {fuel rest} enough ends => ?_) (fun _ single => nomatch single)
    (fun _ _ single => nomatch single) fun simple => nomatch simple
  have inside := size_child_lt (result_mem_children signature)
  have positive := signature.result.size_pos
  cases fuel with
  | zero => omega
  | succ fuel =>
      -- A parameter's name is first tried as a type, which takes fuel of its own.
      have takesName : Takes (read fuel) (Ty.ref "p0") := by
        intro r ends
        have single : (Ty.ref "p0").size = 1 := rfl
        exact (ref (by decide)).whole (by omega) ends
      have reads : (readElement (fuel + 1)).Reads (Ty.function signature).render
          (Ty.function signature).bare rest :=
        readFactor_of_element (readElement_of_primary (reads_function
          (fun p member => (names p member).1) (takes parts enough) takesName ends))
          ends.alternative.factor
      exact readWhole_of_alternative (readAlternative_of_factor reads ends.alternative) ends

theorem keyof {subject : Ty} (readable : Readable subject) : Readable (Ty.keyof subject) := by
  refine of_factor (fun {fuel rest} enough ends => ?_) fun simple => nomatch simple
  rw [size] at enough
  cases fuel with
  | zero => omega
  | succ fuel =>
      have inside : (readElement fuel).Reads (parenthesize subject.render subject.isCompound)
          subject.bare rest :=
        readFactor_of_element (readable.element (by omega) ends.word) ends
      have whole : (Ty.keyof subject).render =
          "keyof" ++ (" " ++ parenthesize subject.render subject.isCompound) := by
        rw [← String.append_assoc]
        rfl
      rw [whole]
      exact readFactor_of_element (readElement_of_primary (reads_keyof inside)) ends

theorem unionOf {members : List Ty} (normal : NormalUnion members)
    (parts : ∀ child ∈ (Ty.unionOf members).children, Readable child) :
    Readable (Ty.unionOf members) := by
  refine of_places (fun {fuel rest} enough ends => ?_) (fun single => nomatch single)
    (fun _ single => nomatch single) fun simple => nomatch simple
  rw [render, renderAlternatives_eq_map, bare_unionOf]
  refine reads_members normal.several (fun m member r ends => ?_) (by decide) (fun _ => .or)
    ends.alternative (ends.stops " | " (.head _))
  have smaller : m.size < (Ty.unionOf members).size := size_child_lt member
  exact (parts m member).alternative (normal.flat m member) (by omega) ends

theorem intersectionOf {members : List Ty} (normal : NormalIntersection members)
    (parts : ∀ child ∈ (Ty.intersectionOf members).children, Readable child) :
    Readable (Ty.intersectionOf members) := by
  refine of_alternative rfl fun {fuel rest} enough ends => ?_
  rw [render, renderFactors_eq_map, bare_intersectionOf]
  refine reads_members normal.several (fun m member r ends => ?_) (by decide) (fun _ => .and)
    ends.factor (ends.stops " & " (.head _))
  have smaller : m.size < (Ty.intersectionOf members).size := size_child_lt member
  exact (parts m member).factor (normal.flat m member) (by omega) ends

end Forms

end Readable

/-- Every legible type is read back, whatever stands behind it in its place. -/
theorem readable {ty : Ty} (wf : ty.WellFormed) (legible : ty.Throughout Legible) :
    Readable ty := by
  induction ty using childrenInduction with
  | step ty ih =>
      have parts : ∀ child ∈ ty.children, Readable child :=
        fun child member => ih child member (wf.child member) (legible.child member)
      have here := legible.here
      cases ty with
      | primitive kind => exact .primitive kind
      | literal value =>
          cases value with
          | text value => exact .text here
          | number value => exact here.elim
          | boolean value => exact .boolean value
      | array element => exact .array (parts element (.head _))
      | tuple elements => exact .tuple parts
      | object shape => exact .object here.1 here.2 parts
      | record key value => exact .record parts
      | unionOf members => exact .unionOf wf.node parts
      | intersectionOf members => exact .intersectionOf wf.node parts
      | anyFunction => exact .anyFunction
      | function signature => exact .function here parts
      | ref name => exact .ref here
      | keyof subject => exact .keyof (parts subject (.head _))
      | predicate parameter guard => exact here.elim

/-- Types with the same text differ in nothing but marks of freshness. -/
theorem bare_eq_of_render_eq {a b : Ty} (readableA : Readable a) (readableB : Readable b)
    (equal : a.render = b.render) : a.bare = b.bare := by
  have first : (read (2 * a.size + 2 * b.size)).Reads a.render a.bare [] :=
    readableA.whole (by omega) .nil
  have second : (read (2 * a.size + 2 * b.size)).Reads b.render b.bare [] :=
    readableB.whole (by omega) .nil
  rw [equal] at first
  exact congrArg Prod.fst (Option.some.inj (first.symm.trans second))

/-- No two legible types that differ have the same text. -/
theorem same_of_render_eq {a b : Ty} (wfA : a.WellFormed) (wfB : b.WellFormed)
    (legibleA : a.Throughout Legible) (legibleB : b.Throughout Legible)
    (equal : a.render = b.render) : Same a b := by
  have bare := bare_eq_of_render_eq (readable wfA legibleA) (readable wfB legibleB) equal
  rw [Same, ← same_bare, bare, same_bare]
  exact same_self b

/-- A function whose first parameter may have been written in place. -/
def finder (fresh : Bool) : Ty :=
  .function
    { typeParams := [⟨"K", some (.keyof (.unionOf [.ref "User", .ref "Team"]))⟩]
      params := [.object { properties := [⟨"key", .array (.ref "K"), true⟩], fresh := fresh },
        .unionOf [.function { params := [], result := .void }, .literal (.text "no one")]]
      result := .intersectionOf [.record .string (.ref "K"), .unionOf [.ref "User", .null]] }

theorem finder_same : ((finder true).render =
      "<K extends keyof (User | Team)>(p0: \x7bkey?: K[]\x7d, p1: (() => void) | \"no one\") => " ++
        "Record<string, K> & (User | null)" ∧ (finder true).render = (finder false).render) ∧
    (finder true).WellFormed ∧ (finder false).WellFormed ∧ (finder true).Throughout Legible ∧
      (finder false).Throughout Legible ∧ Same (finder true) (finder false) := by
  have wf (fresh : Bool) : (finder fresh).WellFormed := by revert fresh; decide +kernel
  have legible (fresh : Bool) : (finder fresh).Throughout Legible := by revert fresh; decide +kernel
  have equal : (finder true).render = (finder false).render := rfl
  refine ⟨⟨by decide +kernel, equal⟩, wf true, wf false, legible true, legible false, ?_⟩
  exact same_of_render_eq (wf true) (wf false) (legible true) (legible false) equal

end Ty

end StructuralTypes
