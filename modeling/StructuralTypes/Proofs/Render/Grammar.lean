import StructuralTypes.Proofs.Freshness.Types
import StructuralTypes.Proofs.Render.Reader

set_option autoImplicit false

namespace StructuralTypes.Ty

open Reader

section Readers

/-- Each `[]` behind a type makes it the element of an array. -/
def arrays (ty : Ty) : List Char → Ty × List Char
  | '[' :: ']' :: rest => arrays (array ty) rest
  | rest => (ty, rest)

variable (whole element : Reader Ty)

def readText : Reader Ty := do
  let value ← span (· != '"')
  expect "\""
  pure (literal (.text value))

def readTuple : Reader Ty := do
  let elements ← listOf whole "]"
  pure (tuple elements)

def readProperty : Reader (Property Ty) := do
  let name ← word
  let optional ← check "?"
  expect ": "
  let ty ← whole
  pure ⟨name, ty, optional⟩

def readIndex : Reader (IndexSignature Ty) := do
  expect "[key: "
  let key ← whole
  expect "]: "
  let value ← whole
  pure ⟨key, value⟩

def readSlot : Reader (Property Ty ⊕ IndexSignature Ty) :=
  (do
    let property ← readProperty whole
    pure (.inl property)) <|> (do
    let index ← readIndex whole
    pure (.inr index))

def readObject : Reader Ty := do
  let slots ← listOf (readSlot whole) "\x7d"
  pure (object
    { properties := slots.filterMap Sum.getLeft?, index := (slots.filterMap Sum.getRight?).head? })

def readParam : Reader Ty := do
  let _ ← word
  expect ": "
  whole

def readConstraint : Reader (Option Ty) :=
  (do
    expect " extends "
    let constraint ← whole
    pure (some constraint)) <|> pure none

def readTypeParam : Reader (TypeParam Ty) := do
  let name ← word
  let constraint ← readConstraint whole
  pure ⟨name, constraint⟩

/-- A function behind the parenthesis that opens its parameters. -/
def readFunction (typeParams : List (TypeParam Ty)) : Reader Ty := do
  let params ← listOf (readParam whole) ") => "
  let result ← whole
  pure (function ⟨typeParams, params, result⟩)

def readGeneric : Reader Ty := do
  let typeParams ← separated ", " (readTypeParam whole)
  expect ">"
  expect "("
  readFunction whole typeParams

/-- A type up to the parenthesis that closes behind it. -/
def readClosed : Reader Ty := do
  let ty ← whole
  expect ")"
  pure ty

/-- Behind a parenthesis stands a type, or else the parameters of a function. -/
def readParenthesized : Reader Ty := readClosed whole <|> readFunction whole []

/-- The words that are types of their own. -/
def keywordTypes : List (String × Ty) :=
  [("string", string), ("number", number), ("boolean", boolean), ("null", null),
    ("undefined", undefined), ("any", any), ("never", never), ("void", void),
    ("true", literal (.boolean true)), ("false", literal (.boolean false)),
    ("function", anyFunction)]

/-- What a word at the front of a type makes of the text behind it. -/
def readBehind (name : String) : Reader Ty :=
  if name = "keyof" then do
    expect " "
    let subject ← element
    pure (keyof subject)
  else if name = "Record" then do
    expect "<"
    let key ← whole
    expect ", "
    let value ← whole
    expect ">"
    pure (record key value)
  else pure ((keywordTypes.lookup name).getD (ref name))

/-- A type up to the brackets of an array. -/
def readPrimary : Reader Ty
  | '"' :: input => readText input
  | '[' :: input => readTuple whole input
  | '\x7b' :: input => readObject whole input
  | '(' :: input => readParenthesized whole input
  | '<' :: input => readGeneric whole input
  | input => (word >>= readBehind whole element) input

def readAlternative : Reader Ty := do
  let factors ← separated " & " element
  pure (collapse any intersectionOf factors)

def readWhole : Reader Ty := do
  let alternatives ← separated " | " (readAlternative element)
  pure (collapse never unionOf alternatives)

/-- The fuel bounds how deep types are nested. -/
def readElement : Nat → Reader Ty
  | 0 => failure
  | fuel + 1 => do
    let ty ← readPrimary (readWhole (readElement fuel)) (readElement fuel)
    fun input => some (ty.arrays input)

abbrev read (fuel : Nat) : Reader Ty := readWhole (readElement fuel)

end Readers

/-- The places that hold a type with nothing around it, the one that holds every type first. -/
inductive Place where
  | whole
  | alternative
  | factor

/-- The texts that would carry on a type in this place. -/
def Place.continuations : Place → List String
  | whole => [" | ", " & ", "[]"]
  | alternative => [" & ", "[]"]
  | factor => ["[]"]

/-- What may stand behind a type in this place. -/
structure Ends (place : Place) (rest : List Char) : Prop where
  word : EndsWord rest
  stops : ∀ text ∈ place.continuations, ¬ text.toList <+: rest

namespace Ends

variable {place : Place} {rest : List Char}

theorem alternative (ends : Ends .whole rest) : Ends .alternative rest :=
  ⟨ends.word, fun text member => ends.stops text (.tail _ member)⟩

theorem factor (ends : Ends .alternative rest) : Ends .factor rest :=
  ⟨ends.word, fun text member => ends.stops text (.tail _ member)⟩

theorem nil : Ends place [] := by
  refine ⟨nofun, ?_⟩
  cases place <;> simp [Place.continuations]

/-- A mark that is neither a blank nor a bracket that opens carries on no type. -/
theorem mark {c : Char} (stops : (!isWordChar c && c != ' ' && c != '[') = true) :
    Ends place (c :: rest) := by
  simp only [Bool.and_eq_true, Bool.not_eq_true', bne_iff_ne] at stops
  obtain ⟨⟨noWord, noBlank⟩, noBracket⟩ := stops
  refine ⟨.of_mark noWord, ?_⟩
  cases place <;> simp [Place.continuations, noBlank.symm, noBracket.symm]

theorem opening {opening more : String} {c : Char} {cs : List Char}
    (opens : opening.toList = c :: cs)
    (stops : (!isWordChar c && c != ' ' && c != '[') = true) :
    Ends place ((opening ++ more).toList ++ rest) := by
  rw [String.toList_append, opens]
  exact mark stops

theorem comma : Ends place (", ".toList ++ rest) := mark rfl

theorem or : Ends .alternative (" | ".toList ++ rest) :=
  ⟨.of_mark rfl, by simp [Place.continuations]⟩

theorem and : Ends .factor (" & ".toList ++ rest) :=
  ⟨.of_mark rfl, by simp [Place.continuations]⟩

end Ends

variable {ty key value : Ty} {text : String} {fuel : Nat} {input rest : List Char}
  {whole element : Reader Ty}

section Places

theorem arrays_of_stops (ty : Ty) (stops : ¬ "[]".toList <+: rest) :
    ty.arrays rest = (ty, rest) := by
  unfold arrays
  split
  case h_1 more => exact absurd ⟨more, rfl⟩ stops
  case h_2 => rfl

theorem readWhole_of_alternative (reads : (readAlternative element).Reads text ty rest)
    (ends : Ends .whole rest) : (readWhole element).Reads text ty rest :=
  (reads_separated_single reads (ends.stops " | " (.head _))).bind_pure

theorem readAlternative_of_factor (reads : element.Reads text ty rest)
    (ends : Ends .alternative rest) : (readAlternative element).Reads text ty rest :=
  (reads_separated_single reads (ends.stops " & " (.head _))).bind_pure

theorem readFactor_of_element
    (reads : readElement fuel (text.toList ++ rest) = some (ty.arrays rest))
    (ends : Ends .factor rest) : (readElement fuel).Reads text ty rest := by
  rw [Reads, reads, arrays_of_stops ty (ends.stops "[]" (.head _))]

theorem readElement_of_primary
    (reads : (readPrimary (read fuel) (readElement fuel)).Reads text ty rest) :
    readElement (fuel + 1) (text.toList ++ rest) = some (ty.arrays rest) :=
  reads.bind_eq

end Places

section Forms

/-- The first character tells the form of the type. -/
theorem readPrimary_of_mark {opening : String} {mark : Char} {reader : Reader Ty}
    (opens : opening.toList = [mark])
    (form : ∀ input, readPrimary whole element (mark :: input) = reader input)
    (reads : reader.Reads text ty rest) :
    (readPrimary whole element).Reads (opening ++ text) ty rest := by
  rw [Reads, String.toList_append, List.append_assoc, opens]
  exact (form _).trans reads

theorem readPrimary_of_isWordChar {c : Char} (first : isWordChar c = true) :
    readPrimary whole element (c :: input) =
      (word >>= readBehind whole element) (c :: input) := by
  unfold readPrimary
  split
  case h_6 => rfl
  all_goals
    rename_i opens
    cases opens
    cases first

theorem readPrimary_of_word {more : String} (isWord : IsWord text)
    (ends : EndsWord (more.toList ++ rest))
    (reads : (readBehind whole element text).Reads more ty rest) :
    (readPrimary whole element).Reads (text ++ more) ty rest := by
  have named := (reads_word isWord ends).bind reads
  obtain ⟨c, cs, letters⟩ := List.exists_cons_of_ne_nil (isWord.1 ∘ String.toList_eq_nil_iff.mp)
  have first : isWordChar c = true := List.all_eq_true.mp isWord.2 c (by simp [letters])
  rw [Reads, String.toList_append, List.append_assoc, letters] at named ⊢
  exact (readPrimary_of_isWordChar first).trans named

/-- No type begins with a mark that closes a list. -/
theorem read_eq_none {c : Char} (closes : c = ']' ∨ c = ')') (fuel : Nat) :
    read fuel (c :: rest) = none := by
  have missing : readElement fuel (c :: rest) = none := by
    cases fuel with
    | zero => rfl
    | succ fuel =>
        have ends : EndsWord (c :: rest) := .of_mark (by rcases closes with rfl | rfl <;> rfl)
        have named : readPrimary (read fuel) (readElement fuel) (c :: rest) = none := by
          rcases closes with rfl | rfl <;> exact bind_eq_none (word_eq_none ends)
        exact bind_eq_none named
  exact bind_eq_none (bind_eq_none (bind_eq_none (bind_eq_none missing)))

/-- A word that is no operator is a keyword or the name of a type. -/
theorem reads_name (isWord : IsWord text) (noKeyof : text ≠ "keyof") (noRecord : text ≠ "Record")
    (ends : EndsWord rest) :
    (readPrimary whole element).Reads text ((keywordTypes.lookup text).getD (ref text)) rest := by
  have reads : (readBehind whole element text).Reads ""
      ((keywordTypes.lookup text).getD (ref text)) rest := by
    rw [readBehind, if_neg noKeyof, if_neg noRecord]
    rfl
  have named : (readPrimary whole element).Reads (text ++ "") _ rest :=
    readPrimary_of_word isWord ends reads
  rwa [String.append_empty] at named

theorem reads_keyof (reads : element.Reads text ty rest) :
    (readPrimary whole element).Reads ("keyof" ++ (" " ++ text)) (keyof ty) rest :=
  readPrimary_of_word (by decide) (endsWord_opening rfl rfl)
    (Reads.bind reads_expect reads.bind_pure)

theorem reads_text {value : String} (clean : '"' ∉ value.toList) :
    (readPrimary whole element).Reads ("\"" ++ (value ++ "\"")) (literal (.text value)) rest := by
  refine readPrimary_of_mark rfl (fun _ => rfl)
    (Reads.bind (reads_span ?_ ?_) reads_expect.bind_pure)
  · intro c member
    simpa using fun quote : c = '"' => clean (quote ▸ member)
  · rintro c ⟨⟩
    rfl

/-- The reader takes the text of the type wherever the type may end. -/
def Takes (whole : Reader Ty) (ty : Ty) : Prop :=
  ∀ rest, Ends .whole rest → whole.Reads ty.render ty.bare rest

theorem reads_parenthesized (takes : Takes whole ty) :
    (readPrimary whole element).Reads ("(" ++ (ty.render ++ ")")) ty.bare rest :=
  readPrimary_of_mark rfl (fun _ => rfl)
    (Reads.orElse (Reads.bind (takes _ (.mark rfl)) reads_expect.bind_pure))

theorem reads_record (takesKey : Takes whole key) (takesValue : Takes whole value) :
    (readPrimary whole element).Reads (record key value).render (record key value).bare rest := by
  have whole : (record key value).render =
      "Record" ++ ("<" ++ (key.render ++ (", " ++ (value.render ++ ">")))) := by
    have first : "Record<" = "Record" ++ "<" := rfl
    simp only [render, first, String.append_assoc]
  rw [whole]
  exact readPrimary_of_word (by decide) (endsWord_opening rfl rfl)
    (Reads.bind reads_expect (Reads.bind (takesKey _ (.opening rfl rfl))
      (Reads.bind reads_expect (Reads.bind (takesValue _ (.mark rfl)) reads_expect.bind_pure))))

end Forms

section Lists

theorem forall₂_map_map {α β γ : Type} {holds : β → γ → Prop} {f : α → β} {g : α → γ} {as : List α}
    (each : ∀ a ∈ as, holds (f a) (g a)) : List.Forall₂ holds (as.map f) (as.map g) := by
  rw [List.forall₂_map_left_iff, List.forall₂_map_right_iff]
  exact List.forall₂_same.mpr each

theorem renderAll_eq_map (tys : List Ty) : renderAll tys = tys.map render := by
  induction tys with
  | nil => rfl
  | cons ty tys ih => rw [renderAll, ih, List.map_cons]

theorem renderAlternatives_eq_map (tys : List Ty) :
    renderAlternatives tys = tys.map fun ty => parenthesize ty.render ty.isFunction := by
  induction tys with
  | nil => rfl
  | cons ty tys ih => rw [renderAlternatives, ih, List.map_cons]

theorem renderFactors_eq_map (tys : List Ty) :
    renderFactors tys = tys.map fun ty => parenthesize ty.render (ty.isUnion || ty.isFunction) := by
  induction tys with
  | nil => rfl
  | cons ty tys ih => rw [renderFactors, ih, List.map_cons]

/-- Two members or more are read as the node that joins them. -/
theorem reads_members {place : Place} {reader : Reader Ty} {separator : String} {nothing : Ty}
    {node : List Ty → Ty} {members : List Ty} {write : Ty → String} (several : 2 ≤ members.length)
    (each : ∀ m ∈ members, ∀ r, Ends place r → reader.Reads (write m) m.bare r)
    (separates : separator ≠ "") (between : ∀ r, Ends place (separator.toList ++ r))
    (last : Ends place rest) (stops : ¬ separator.toList <+: rest) :
    (separated separator reader >>= fun parts => pure (collapse nothing node parts)).Reads
      (separator.intercalate (members.map write)) (node (members.map bare)) rest := by
  have nonempty : members.map write ≠ [] := by
    rw [← List.length_pos_iff, List.length_map]
    omega
  have joined : collapse nothing node (members.map bare) = node (members.map bare) :=
    collapse_of_several (by simpa using several)
  rw [← joined]
  exact (reads_separated (forall₂_map_map each) nonempty separates between last stops).bind_pure

theorem reads_tuple {elements : List Ty} (takes : ∀ e ∈ elements, Takes (read fuel) e) :
    (readPrimary (read fuel) element).Reads (tuple elements).render (tuple elements).bare rest := by
  rw [render, String.append_assoc, renderAll_eq_map, bare_tuple]
  refine readPrimary_of_mark rfl (fun _ => rfl) (Reads.bind_pure ?_)
  have each : List.Forall₂ (fun text ty => ∀ r, Ends .whole r → (read fuel).Reads text ty r)
      (elements.map render) (elements.map bare) := forall₂_map_map takes
  exact reads_listOf each (fun _ => .comma) (.mark rfl) (by simp) (read_eq_none (Or.inl rfl) fuel)

/-- The text of a slot with a name. -/
def renderProperty (p : Property Ty) : String :=
  p.name ++ (if p.optional then "?" else "") ++ ": " ++ p.ty.render

theorem renderProperties_eq_map (properties : List (Property Ty)) :
    renderProperties properties = properties.map renderProperty := by
  induction properties with
  | nil => rfl
  | cons p ps ih =>
      rw [renderProperties, ih, List.map_cons]
      rfl

def renderIndexSignature (i : IndexSignature Ty) : String :=
  "[key: " ++ i.key.render ++ "]: " ++ i.value.render

theorem renderIndex_eq_map (index : Option (IndexSignature Ty)) :
    renderIndex index = index.toList.map renderIndexSignature := by
  cases index <;> rfl

section Slots

variable {p : Property Ty} {i : IndexSignature Ty} (ends : Ends .whole rest)

theorem readProperty_eq_none (noWord : EndsWord input) : readProperty whole input = none :=
  bind_eq_none (word_eq_none noWord)

include ends

theorem reads_property (isWord : IsWord p.name) (takes : Takes whole p.ty) :
    (readSlot whole).Reads (renderProperty p) (.inl p.bare) rest := by
  refine Reads.orElse (Reads.bind_pure ?_)
  simp only [renderProperty, String.append_assoc]
  refine Reads.bind (reads_word isWord ?_) (Reads.bind (reads_check fun _ => ?_)
    (Reads.bind reads_expect (takes _ ends).bind_pure))
  · rw [String.toList_append, String.toList_append]
    cases p.optional <;> exact .of_mark rfl
  · rw [String.toList_append]
    simp

theorem reads_index (takesKey : Takes whole i.key) (takesValue : Takes whole i.value) :
    (readSlot whole).Reads (renderIndexSignature i) (.inr i.bare) rest := by
  simp only [renderIndexSignature, String.append_assoc]
  have noName : readProperty whole
      (("[key: " ++ (i.key.render ++ ("]: " ++ i.value.render))).toList ++ rest) = none :=
    readProperty_eq_none (endsWord_opening rfl rfl)
  refine Reads.orElse_of_eq_none (Reads.bind_pure ?_) (bind_eq_none noName)
  exact Reads.bind reads_expect (Reads.bind (takesKey _ (.opening rfl rfl))
    (Reads.bind reads_expect (takesValue _ ends).bind_pure))

end Slots

theorem reads_object {shape : Shape Ty} (structural : shape.className = none)
    (words : ∀ p ∈ shape.properties, IsWord p.name)
    (takes : ∀ child ∈ (object shape).children, Takes whole child) :
    (readPrimary whole element).Reads (object shape).render (object shape).bare rest := by
  obtain ⟨properties, index, className, fresh⟩ := shape
  cases structural
  have named : List.Forall₂ (fun text slot => ∀ r, Ends .whole r →
      (readSlot whole).Reads text slot r) (properties.map renderProperty)
      (properties.map fun p => .inl p.bare) :=
    forall₂_map_map fun p member r ends =>
      reads_property ends (words p member) (takes p.ty (property_mem_children member))
  have others : List.Forall₂ (fun text slot => ∀ r, Ends .whole r →
      (readSlot whole).Reads text slot r) (index.toList.map renderIndexSignature)
      (index.toList.map fun i => .inr i.bare) := by
    refine forall₂_map_map fun i member r ends => ?_
    have found : index = some i := by simpa using member
    exact reads_index ends (takes _ (indexKey_mem_children found))
      (takes _ (indexValue_mem_children found))
  -- An object without slots has its closing brace where a slot would stand.
  have missing : readSlot whole ("\x7d".toList ++ rest) = none :=
    orElse_eq_none (bind_eq_none (readProperty_eq_none (.of_mark rfl)))
      (bind_eq_none (bind_eq_none (expect_eq_none (by simp))))
  have sorted (slots : List (Property Ty ⊕ IndexSignature Ty)) (written : slots =
      properties.map (fun p => .inl p.bare) ++ index.toList.map fun i => .inr i.bare) :
      object { properties := slots.filterMap Sum.getLeft?
               index := (slots.filterMap Sum.getRight?).head? } =
        (object ⟨properties, index, none, fresh⟩).bare := by
    rw [bare_object, Shape.bare, written]
    cases index <;> simp [Function.comp_def, List.filterMap_map]
  rw [render, String.append_assoc, renderProperties_eq_map, renderIndex_eq_map, ← sorted _ rfl]
  refine readPrimary_of_mark rfl (fun _ => rfl) (Reads.bind_pure ?_)
  exact reads_listOf (List.rel_append named others) (fun _ => .comma) (.mark rfl) (by simp) missing

end Lists

section Functions

variable {typeParams : List (TypeParam Ty)} {params : List Ty} {result : Ty}

theorem isWord_param (i : Nat) : IsWord ("p" ++ i.repr) := by
  refine ⟨by simp, List.all_eq_true.mpr fun c member => ?_⟩
  rw [String.toList_append, Nat.toList_repr] at member
  rcases List.mem_append.mp member with letter | digit
  · cases List.mem_singleton.mp letter
    rfl
  · have isDigit := Nat.isDigit_of_mem_toDigits (by decide) (by decide) digit
    simp [isWordChar, Char.isAlphanum, isDigit]

theorem reads_params (i : Nat) (takes : ∀ p ∈ params, Takes whole p) :
    List.Forall₂ (fun text ty => ∀ r, Ends .whole r → (readParam whole).Reads text ty r)
      (renderParams i params) (params.map bare) := by
  induction params generalizing i with
  | nil => exact .nil
  | cons p ps ih =>
      refine .cons (fun r ends => ?_) (ih (i + 1) fun q member => takes q (.tail _ member))
      rw [String.append_assoc]
      exact Reads.bind (reads_word (isWord_param i) (endsWord_opening rfl rfl))
        (Reads.bind reads_expect (takes p (.head _) r ends))

theorem reads_readFunction (takesParams : ∀ p ∈ params, Takes whole p) (takes : Takes whole result)
    (ends : Ends .whole rest) :
    (readFunction whole typeParams).Reads
      (commaSeparated (renderParams 0 params) ++ ") => " ++ result.render)
      (function ⟨typeParams, params.map bare, result.bare⟩) rest := by
  refine Reads.bind ?_ (takes rest ends).bind_pure
  exact reads_listOf (reads_params 0 takesParams) (fun _ => .comma) (.mark rfl) (by simp)
    (bind_eq_none (word_eq_none (.of_mark rfl)))

/-- A type parameter without a constraint ends where none begins. -/
theorem reads_typeParams (words : ∀ p ∈ typeParams, IsWord p.name)
    (takes : ∀ p ∈ typeParams, ∀ c ∈ p.constraint, Takes whole c) :
    List.Forall₂ (fun text p => ∀ r, Ends .whole r ∧ ¬ " extends ".toList <+: r →
      (readTypeParam whole).Reads text p r) (renderTypeParams typeParams)
      (bareTypeParams typeParams) := by
  induction typeParams with
  | nil => exact .nil
  | cons p ps ih =>
      have others := ih (fun q member => words q (.tail _ member))
        fun q member => takes q (.tail _ member)
      have isWord : IsWord p.name := words p (.head _)
      obtain ⟨name, _ | constraint⟩ := p
      · refine .cons (fun r ends => ?_) others
        have free : (readConstraint whole).Reads "" none r :=
          Reads.orElse_of_eq_none rfl (bind_eq_none (expect_eq_none ends.2))
        have alone : (readTypeParam whole).Reads (name ++ "") ⟨name, none⟩ r :=
          Reads.bind (reads_word isWord ends.1.word) free.bind_pure
        rwa [String.append_empty] at alone
      · refine .cons (fun r ends => ?_) others
        have takesOwn : Takes whole constraint := takes _ (.head _) _ rfl
        rw [String.append_assoc]
        exact Reads.bind (reads_word isWord (endsWord_opening rfl rfl))
          (Reads.orElse (Reads.bind reads_expect (takesOwn r ends.1).bind_pure)).bind_pure

theorem renderTypeParams_ne_nil (generic : typeParams ≠ []) :
    renderTypeParams typeParams ≠ [] := by
  obtain ⟨p, ps, rfl⟩ := List.exists_cons_of_ne_nil generic
  obtain ⟨name, _ | constraint⟩ := p <;> exact List.cons_ne_nil _ _

/-- The colon behind the first parameter shows that the parenthesis before it opens no type. -/
theorem readClosed_eq_none (takesName : Takes (read fuel) (ref "p0")) (more : String) :
    readClosed (read fuel)
      ((commaSeparated (renderParams 0 params) ++ ") => " ++ more).toList ++ rest) = none := by
  cases params with
  | nil =>
      rw [renderParams, commaSeparated, String.intercalate_nil, String.empty_append,
        String.toList_append]
      exact bind_eq_none (read_eq_none (Or.inr rfl) fuel)
  | cons p ps =>
      have first : commaSeparated (renderParams 0 (p :: ps)) =
          "p0" ++ (": " ++ commaSeparated (p.render :: renderParams 1 ps)) := by
        rw [renderParams, String.append_assoc, commaSeparated, String.intercalate_cons_append,
          String.intercalate_cons_append]
        rfl
      rw [first, String.append_assoc, String.append_assoc, String.append_assoc]
      generalize commaSeparated (p.render :: renderParams 1 ps) ++ (") => " ++ more) = behind
      have name : (read fuel).Reads "p0" (ref "p0") ((": " ++ behind).toList ++ rest) :=
        takesName _ (.opening rfl rfl)
      rw [readClosed, String.toList_append, List.append_assoc, name.bind_eq]
      exact bind_eq_none (expect_eq_none (by simp))

theorem reads_function {signature : Signature Ty}
    (words : ∀ p ∈ signature.typeParams, IsWord p.name)
    (takes : ∀ child ∈ (function signature).children, Takes (read fuel) child)
    (takesName : Takes (read fuel) (ref "p0")) (ends : Ends .whole rest) :
    (readPrimary (read fuel) element).Reads (function signature).render (function signature).bare
      rest := by
  obtain ⟨typeParams, params, result⟩ := signature
  have behind : (readFunction (read fuel) (bareTypeParams typeParams)).Reads
      (commaSeparated (renderParams 0 params) ++ ") => " ++ result.render)
      (function ⟨typeParams, params, result⟩).bare rest := by
    rw [bare_function]
    exact reads_readFunction (fun p member => takes p (param_mem_children member))
      (takes result (result_mem_children _)) ends
  by_cases generic : typeParams = []
  · subst generic
    have whole : (function ⟨[], params, result⟩).render =
        "(" ++ (commaSeparated (renderParams 0 params) ++ ") => " ++ result.render) := by
      simp only [render, List.isEmpty_nil, if_true, String.empty_append, String.append_assoc]
    rw [whole]
    exact readPrimary_of_mark rfl (fun _ => rfl)
      (Reads.orElse_of_eq_none behind (readClosed_eq_none takesName result.render))
  · have bounds := reads_typeParams words fun p member c bound =>
      takes c (constraint_mem_children member bound)
    have whole : (function ⟨typeParams, params, result⟩).render = "<" ++
        (commaSeparated (renderTypeParams typeParams) ++ (">" ++ ("(" ++
          (commaSeparated (renderParams 0 params) ++ ") => " ++ result.render)))) := by
      have angled : typeParams.isEmpty = false := by simpa using generic
      simp only [render, angled, Bool.false_eq_true, if_false, String.append_assoc]
    rw [whole]
    refine readPrimary_of_mark rfl (fun _ => rfl)
      (Reads.bind ?_ (Reads.bind reads_expect (Reads.bind reads_expect behind)))
    exact reads_separated bounds (renderTypeParams_ne_nil generic) (by decide)
      (fun _ => ⟨.comma, by simp⟩) ⟨.opening rfl rfl, by simp⟩ (by simp)

end Functions

end StructuralTypes.Ty
