import StructuralTypes.Diagnostic

set_option autoImplicit false

namespace StructuralTypes.Message

variable {args : List String}

section Scanning

theorem fillFrom_skip (skipped rest : List Char) :
    fillFrom args skipped.length (skipped ++ rest) = fillFrom args 0 rest := by
  induction skipped with
  | nil => rfl
  | cons c skipped ih => exact ih

/-- Text up to the next opening brace is copied. -/
theorem fillFrom_plain {text : List Char} (plain : '\x7b' ∉ text) (rest : List Char) :
    fillFrom args 0 (text ++ rest) = text ++ fillFrom args 0 rest := by
  induction text with
  | nil => rfl
  | cons c text ih =>
      obtain ⟨here, later⟩ := List.ne_and_not_mem_of_not_mem_cons plain
      rw [List.cons_append, fillFrom, if_neg (Ne.symm here), ih later, List.cons_append]

theorem fillFrom_kept {rest : List Char} (unmatched : placeholder? args rest = none) :
    fillFrom args 0 ('\x7b' :: rest) = '\x7b' :: fillFrom args 0 rest := by
  rw [fillFrom, if_pos rfl, unmatched]

theorem placeholder?_eq_some {body : List Char} (closed : '\x7d' ∉ body) {i : Nat}
    (read : index? body = some i) {arg : String} (found : args[i]? = some arg) (rest : List Char) :
    placeholder? args (body ++ '\x7d' :: rest) = some (arg, body.length + 1) := by
  have inside : ∀ c ∈ body, (c != '\x7d') = true := by
    intro c member
    rw [bne_iff_ne]
    rintro rfl
    exact closed member
  have ends : (body ++ '\x7d' :: rest).takeWhile (· != '\x7d') = body := by
    rw [List.takeWhile_append_of_pos inside, List.takeWhile_cons_of_neg (by decide),
      List.append_nil]
  have unclosed : (guard (body.length < (body ++ '\x7d' :: rest).length) : Option Unit) = some () :=
    if_pos (by simp)
  rw [placeholder?, ends, unclosed, read]
  simp [found]

/-- A placeholder with an argument is replaced by it, and the scan goes on behind the placeholder. -/
theorem fillFrom_placeholder {body : List Char} (closed : '\x7d' ∉ body) {i : Nat}
    (read : index? body = some i) {arg : String} (found : args[i]? = some arg) (rest : List Char) :
    fillFrom args 0 ('\x7b' :: (body ++ '\x7d' :: rest)) = arg.toList ++ fillFrom args 0 rest := by
  have length : body.length + 1 = (body ++ ['\x7d']).length := by simp
  have split : body ++ '\x7d' :: rest = (body ++ ['\x7d']) ++ rest := by simp
  rw [fillFrom, if_pos rfl, placeholder?_eq_some closed read found]
  dsimp only
  rw [length, split, fillFrom_skip]

end Scanning

section Indices

theorem value?_toDigits (i : Nat) : Digits.value? (Nat.toDigits 10 i) = some i := by
  have digits : (Nat.toDigits 10 i).any (fun c => !c.isDigit) = false := by
    rw [List.any_eq_false]
    intro c member
    simp [Nat.isDigit_of_mem_toDigits (by decide) (by decide) member]
  have some : (Nat.toDigits 10 i).isEmpty = false := by
    rw [List.isEmpty_eq_false_iff]
    exact Nat.toDigits_ne_nil
  rw [Digits.value?, some, digits]
  exact congrArg Option.some Nat.ofDigitChars_ten_toDigits

/-- The decimal form of an index is read as the index. -/
theorem index?_repr (i : Nat) : index? i.repr.toList = some i := by
  rw [Nat.toList_repr, index?]
  · exact value?_toDigits i
  · intro digits signed
    have first : '+' ∈ Nat.toDigits 10 i := by
      rw [signed]
      exact .head _
    have isDigit := Nat.isDigit_of_mem_toDigits (by decide) (by decide) first
    cases isDigit

theorem closingBrace_notMem_repr (i : Nat) : '\x7d' ∉ i.repr.toList := by
  intro member
  rw [Nat.toList_repr] at member
  have isDigit := Nat.isDigit_of_mem_toDigits (by decide) (by decide) member
  cases isDigit

end Indices

section Templates

/-- A placeholder for one of `count` arguments, and the text from there to the next placeholder. -/
structure Slot (count : Nat) where
  index : Fin count
  after : String

/-- A text without opening braces. -/
def Plain (text : String) : Prop := '\x7b' ∉ text.toList

instance (text : String) : Decidable (Plain text) := inferInstanceAs (Decidable (_ ∉ _))

/-- The template that starts with a text and goes on with placeholders. -/
def template {count : Nat} (start : String) (slots : List (Slot count)) : String :=
  start ++ String.join (slots.map fun slot => Code.hole slot.index ++ slot.after)

/-- The text that a template stands for. -/
def text (args : List String) (start : String) (slots : List (Slot args.length)) : String :=
  start ++ String.join (slots.map fun slot => args[slot.index] ++ slot.after)

theorem fillFrom_slots (slots : List (Slot args.length)) (plain : ∀ slot ∈ slots, Plain slot.after) :
    fillFrom args 0 (String.join (slots.map fun slot => Code.hole slot.index ++ slot.after)).toList =
      (String.join (slots.map fun slot => args[slot.index] ++ slot.after)).toList := by
  induction slots with
  | nil => rfl
  | cons slot slots ih =>
      obtain ⟨here, later⟩ := List.forall_mem_cons.mp plain
      have found : args[slot.index.val]? = some args[slot.index] := List.getElem?_eq_getElem _
      have hole (rest : List Char) : (Code.hole slot.index).toList ++ rest =
          '\x7b' :: (slot.index.val.repr.toList ++ '\x7d' :: rest) := by simp [Code.hole]
      simp only [List.map_cons, String.join_cons, String.toList_append, List.append_assoc]
      rw [hole, fillFrom_placeholder (closingBrace_notMem_repr _) (index?_repr _) found,
        fillFrom_plain here, ih later]

theorem fill_template {start : String} {slots : List (Slot args.length)} (plainStart : Plain start)
    (plain : ∀ slot ∈ slots, Plain slot.after) :
    fill (template start slots) args = text args start slots := by
  rw [fill, template, String.toList_append, fillFrom_plain plainStart, fillFrom_slots slots plain,
    text, ← String.toList_append, String.ofList_toList]

end Templates

theorem placeholder?_nil (rest : List Char) : placeholder? [] rest = none := by
  rw [placeholder?]
  refine Option.bind_eq_none_iff.mpr fun _ _ => Option.bind_eq_none_iff.mpr fun i _ => ?_
  exact Option.bind_eq_none_iff.mpr fun arg found => nomatch found

/-- Without arguments nothing is replaced, however the braces of the template stand. -/
theorem fill_nil (template : String) : fill template [] = template := by
  have same (template : List Char) : fillFrom [] 0 template = template := by
    induction template with
    | nil => rfl
    | cons c rest ih =>
        by_cases brace : c = '\x7b'
        · rw [brace, fillFrom_kept (placeholder?_nil rest), ih]
        · rw [fillFrom, if_neg brace, ih]
  rw [fill, same, String.ofList_toList]

/-- Filling copies the arguments as they are, whatever they hold, and it leaves a template without
arguments alone. -/
theorem fill_copies (args : List String) :
    (∀ (start : String) (slots : List (Slot args.length)), Plain start →
      (∀ slot ∈ slots, Plain slot.after) →
        fill (template start slots) args = text args start slots) ∧
    ∀ template : String, fill template [] = template :=
  ⟨fun _ _ => fill_template, fill_nil⟩

/-- A literal type that reads like a placeholder, and a keyword type. -/
def lookalike : List String := ["\"\x7b1\x7d\"", "number"]

def refusal : List (Slot lookalike.length) :=
  [⟨⟨0, by decide⟩, "' is not assignable to type '"⟩, ⟨⟨1, by decide⟩, "'"⟩]

theorem refusal_copied : fill Code.notAssignable.template lookalike =
    "Type '\"\x7b1\x7d\"' is not assignable to type 'number'" := by
  have written : Code.notAssignable.template = template "Type '" refusal := by decide +kernel
  have plainStart : Plain "Type '" := by decide +kernel
  have plain : ∀ slot ∈ refusal, Plain slot.after := by decide +kernel
  rw [written, (fill_copies lookalike).1 _ refusal plainStart plain]
  decide +kernel

end StructuralTypes.Message
