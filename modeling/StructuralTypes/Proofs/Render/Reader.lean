import Mathlib.Data.List.Basic
import StructuralTypes.Ty.Render

set_option autoImplicit false

namespace StructuralTypes

/-- A letter, a digit, `_` or `$`. All characters outside of ASCII count as letters. -/
def isWordChar (c : Char) : Bool := c.isAlphanum || c == '_' || c == '$' || 128 ≤ c.toNat

abbrev Reader := StateT (List Char) Option

namespace Reader

variable {α β : Type}

section Readers

def expect (text : String) : Reader Unit := fun input =>
  (input.dropPrefix? text.toList).map fun rest => ((), rest)

/-- Takes the given text if it comes next. -/
def check (text : String) : Reader Bool := (do
    expect text
    pure true) <|> pure false

/-- Takes all characters up to the first one that is not accepted. -/
def span (accepts : Char → Bool) : Reader String := fun input =>
  some (String.ofList (input.takeWhile accepts), input.dropWhile accepts)

def word : Reader String := do
  let text ← span isWordChar
  if text = "" then failure else pure text

variable (separator : String) (item : Reader α)

/-- One item or more with the separator between them, up to the limit. -/
def separatedUpTo : Nat → Reader (List α)
  | 0 => failure
  | limit + 1 => do
    let first ← item
    (do
      expect separator
      let others ← separatedUpTo limit
      pure (first :: others)) <|> pure [first]

/-- One item or more. There are no more separators in a text than characters. -/
def separated : Reader (List α) := fun input =>
  separatedUpTo separator item (input.length + 1) input

/-- Any number of items with commas between them, up to the text that closes the list. -/
def listOf (close : String) : Reader (List α) :=
  (do
    let items ← separated ", " item
    expect close
    pure items) <|> (do
    expect close
    pure [])

end Readers

variable {reader other : Reader α} {next : α → Reader β} {text more : String} {a : α} {b : β}
  {input rest : List Char}

/-- Of the text in front of the rest, the reader takes all of it and nothing else. -/
def Reads (reader : Reader α) (text : String) (value : α) (rest : List Char) : Prop :=
  reader (text.toList ++ rest) = some (value, rest)

section Sequences

theorem bind_eq_none (stuck : reader input = none) : (reader >>= next) input = none := by
  show (reader _).bind _ = _
  rw [stuck]
  rfl

theorem Reads.bind_eq (first : reader.Reads text a rest) :
    (reader >>= next) (text.toList ++ rest) = next a rest := by
  show (reader _).bind _ = _
  rw [first]
  rfl

theorem Reads.bind (first : reader.Reads text a (more.toList ++ rest))
    (second : (next a).Reads more b rest) : (reader >>= next).Reads (text ++ more) b rest := by
  rw [Reads, String.toList_append, List.append_assoc, first.bind_eq]
  exact second

theorem Reads.bind_pure {f : α → β} (only : reader.Reads text a rest) :
    (reader >>= fun value => pure (f value)).Reads text (f a) rest :=
  only.bind_eq

theorem orElse_eq_none (first : reader input = none) (second : other input = none) :
    (reader <|> other) input = none := by
  show (reader _).orElse _ = _
  rw [first]
  exact second

theorem Reads.orElse (first : reader.Reads text a rest) :
    (reader <|> other).Reads text a rest := by
  show (reader _).orElse _ = _
  rw [first]
  rfl

theorem Reads.orElse_of_eq_none (second : other.Reads text a rest)
    (stuck : reader (text.toList ++ rest) = none) : (reader <|> other).Reads text a rest := by
  show (reader _).orElse _ = _
  rw [stuck]
  exact second

end Sequences

section Words

theorem reads_expect : (expect text).Reads text () rest := by
  rw [Reads, expect, List.dropPrefix?_append_of_beq rest BEq.rfl]
  rfl

theorem expect_eq_none (absent : ¬ text.toList <+: input) : expect text input = none := by
  rw [expect, Option.map_eq_none_iff, Option.eq_none_iff_forall_ne_some]
  intro rest found
  obtain ⟨front, whole, equal⟩ := List.dropPrefix?_eq_some_iff.mp found
  rw [eq_of_beq equal] at whole
  exact absent ⟨rest, whole.symm⟩

theorem reads_check {present : Bool} (absent : present = false → ¬ text.toList <+: rest) :
    (check text).Reads (if present then text else "") present rest := by
  cases present with
  | true => exact Reads.orElse reads_expect.bind_pure
  | false => exact Reads.orElse_of_eq_none rfl (bind_eq_none (expect_eq_none (absent rfl)))

theorem reads_span {accepts : Char → Bool} (chars : ∀ c ∈ text.toList, accepts c = true)
    (stops : ∀ c ∈ rest.head?, accepts c = false) : (span accepts).Reads text text rest := by
  have front : rest.takeWhile accepts = [] := by
    cases rest with
    | nil => rfl
    | cons c rest => simp [stops c rfl]
  have back : rest.dropWhile accepts = rest := by
    cases rest with
    | nil => rfl
    | cons c rest => simp [stops c rfl]
  rw [Reads, span, List.takeWhile_append_of_pos chars, List.dropWhile_append_of_pos chars, front,
    back, List.append_nil, String.ofList_toList]

def IsWord (text : String) : Prop := text ≠ "" ∧ text.toList.all isWordChar = true

def EndsWord (rest : List Char) : Prop := ∀ c ∈ rest.head?, isWordChar c = false

instance (text : String) : Decidable (IsWord text) := inferInstanceAs (Decidable (_ ∧ _))

theorem EndsWord.of_mark {c : Char} (noWord : isWordChar c = false) : EndsWord (c :: rest) := by
  intro d first
  cases first
  exact noWord

theorem endsWord_opening {opening : String} {c : Char} {cs : List Char}
    (opens : opening.toList = c :: cs) (noWord : isWordChar c = false) :
    EndsWord ((opening ++ more).toList ++ rest) := by
  rw [String.toList_append, opens]
  exact .of_mark noWord

theorem reads_word (isWord : IsWord text) (ends : EndsWord rest) : word.Reads text text rest := by
  have taken : (span isWordChar).Reads text text rest := reads_span (List.all_eq_true.mp isWord.2) ends
  rw [Reads, word, taken.bind_eq, if_neg isWord.1]
  rfl

theorem word_eq_none (ends : EndsWord input) : word input = none := by
  have taken : (span isWordChar).Reads "" "" input := reads_span (by simp) ends
  exact taken.bind_eq

end Words

section Lists

variable {separator : String} {item : Reader α} {texts : List String} {values : List α}
  {follows : List Char → Prop}

theorem reads_separatedUpTo_single (only : item.Reads text a rest)
    (stops : ¬ separator.toList <+: rest) (limit : Nat) :
    (separatedUpTo separator item (limit + 1)).Reads text [a] rest := by
  refine Eq.trans only.bind_eq ?_
  have alone : Reads (pure [a] : Reader (List α)) "" [a] rest := rfl
  exact alone.orElse_of_eq_none (bind_eq_none (expect_eq_none stops))

theorem reads_separated_single (only : item.Reads text a rest)
    (stops : ¬ separator.toList <+: rest) : (separated separator item).Reads text [a] rest := by
  rw [Reads, separated]
  exact reads_separatedUpTo_single only stops _

/-- A list of texts has no more members than the text that joins them has characters, but one. -/
theorem length_le_intercalate (separates : separator ≠ "") (texts : List String) :
    texts.length ≤ (separator.intercalate texts).toList.length + 1 := by
  match texts with
  | [] => exact Nat.zero_le _
  | [text] => simp
  | text :: other :: texts =>
      have later := length_le_intercalate separates (other :: texts)
      have positive : 0 < separator.toList.length := by
        rw [List.length_pos_iff]
        simpa using separates
      rw [String.intercalate_cons_cons]
      simp only [String.toList_append, List.length_append, List.length_cons] at later ⊢
      omega

-- Each item is read in front of whatever may stand behind it, a separator or the rest.
variable
  (each : List.Forall₂ (fun text value => ∀ r, follows r → item.Reads text value r) texts values)

include each

theorem reads_separatedUpTo (nonempty : texts ≠ [])
    (between : ∀ r, follows (separator.toList ++ r)) (last : follows rest)
    (stops : ¬ separator.toList <+: rest) {limit : Nat} (enough : texts.length ≤ limit) :
    (separatedUpTo separator item limit).Reads (separator.intercalate texts) values rest := by
  -- Every item takes one from the limit, which never falls short of the items that are left.
  induction each generalizing limit with
  | nil => exact absurd rfl nonempty
  | cons first others ih =>
      cases limit with
      | zero => cases enough
      | succ limit =>
          cases others with
          | nil =>
              rw [String.intercalate_singleton]
              exact reads_separatedUpTo_single (first _ last) stops limit
          | cons second others =>
              rw [String.intercalate_cons_cons, separatedUpTo, String.append_assoc]
              refine Reads.bind (first _ ?_) (Reads.orElse (Reads.bind reads_expect ?_))
              · rw [String.toList_append, List.append_assoc]
                exact between _
              · exact (ih (List.cons_ne_nil _ _) (Nat.le_of_succ_le_succ enough)).bind_pure

theorem reads_separated (nonempty : texts ≠ []) (separates : separator ≠ "")
    (between : ∀ r, follows (separator.toList ++ r)) (last : follows rest)
    (stops : ¬ separator.toList <+: rest) :
    (separated separator item).Reads (separator.intercalate texts) values rest := by
  have enough := length_le_intercalate separates texts
  rw [Reads, separated]
  refine reads_separatedUpTo each nonempty between last stops ?_
  rw [List.length_append]
  omega

/-- An empty list is told from others by the item that is not there. -/
theorem reads_listOf {close : String} (between : ∀ r, follows (", ".toList ++ r))
    (last : follows (close.toList ++ rest)) (stops : ¬ ", ".toList <+: close.toList ++ rest)
    (missing : item (close.toList ++ rest) = none) :
    (listOf item close).Reads (Ty.commaSeparated texts ++ close) values rest := by
  by_cases empty : texts = []
  · subst empty
    cases each
    rw [Ty.commaSeparated, String.intercalate_nil, String.empty_append]
    refine Reads.orElse_of_eq_none (Reads.bind_pure reads_expect) ?_
    exact bind_eq_none (bind_eq_none missing)
  · refine Reads.orElse (Reads.bind ?_ reads_expect.bind_pure)
    exact reads_separated each empty (by decide) between last stops

end Lists

end Reader

end StructuralTypes
