set_option autoImplicit false

namespace StructuralTypes

inductive Json where
  | null
  | bool (value : Bool)
  /-- A number as it is written. -/
  | number (text : String)
  /-- There is no text when an escape names half of a surrogate pair only. -/
  | string (text : Option String)
  | array (items : List Json)
  /-- In the order of the text, repeated names included. -/
  | object (members : List (Option String × Json))

namespace Json

/-- Reads a value off the front of a text and returns the rest. -/
abbrev Reader (α : Type) := List Char → Option (α × List Char)

def isBlank (c : Char) : Bool := c == ' ' || c == '\n' || c == '\r' || c == '\t'

def skipBlanks (cs : List Char) : List Char := cs.dropWhile isBlank

/-- Drops the given word from the front. -/
def expect : List Char → List Char → Option (List Char)
  | [], cs => some cs
  | w :: word, c :: cs => if w = c then expect word cs else none
  | _ :: _, [] => none

def hexValue? (c : Char) : Option Nat :=
  if c.isDigit then some (c.toNat - '0'.toNat)
  else if 'a' ≤ c ∧ c ≤ 'f' then some (c.toNat - 'a'.toNat + 10)
  else if 'A' ≤ c ∧ c ≤ 'F' then some (c.toNat - 'A'.toNat + 10)
  else none

/-- The parts of a string: characters, and 16-bit units that were written as escapes. -/
inductive Piece where
  | char (c : Char)
  | unit (value : Nat)

/-- What a one-letter escape stands for. -/
def escaped? : Char → Option Char
  | '"' => some '"'
  | '\\' => some '\\'
  | '/' => some '/'
  | 'b' => some '\x08'
  | 'f' => some '\x0c'
  | 'n' => some '\n'
  | 'r' => some '\r'
  | 't' => some '\t'
  | _ => none

/-- Reads a string whose opening quote is already read. Control characters must be escaped. -/
def pieces : Reader (List Piece)
  | [] => none
  | '"' :: cs => some ([], cs)
  | '\\' :: 'u' :: a :: b :: c :: d :: cs => do
    let a ← hexValue? a
    let b ← hexValue? b
    let c ← hexValue? c
    let d ← hexValue? d
    let (rest, cs) ← pieces cs
    return (.unit (((a * 16 + b) * 16 + c) * 16 + d) :: rest, cs)
  | '\\' :: c :: cs => do
    let c ← escaped? c
    let (rest, cs) ← pieces cs
    return (.char c :: rest, cs)
  | c :: cs => do
    guard (c != '\\' && 0x20 ≤ c.toNat)
    let (rest, cs) ← pieces cs
    return (.char c :: rest, cs)

def isHighSurrogate (unit : Nat) : Bool := 0xd800 ≤ unit && unit < 0xdc00

def isLowSurrogate (unit : Nat) : Bool := 0xdc00 ≤ unit && unit < 0xe000

/-- Joins surrogate pairs; half a pair has no text. -/
def decode? : List Piece → Option (List Char)
  | [] => some []
  | .char c :: rest => (decode? rest).map (c :: ·)
  | .unit high :: .unit low :: rest =>
    if isHighSurrogate high then
      if isLowSurrogate low then
        (decode? rest).map
          (Char.ofNat (0x10000 + (high - 0xd800) * 0x400 + (low - 0xdc00)) :: ·)
      else none
    else if isLowSurrogate high then none
    else (decode? (.unit low :: rest)).map (Char.ofNat high :: ·)
  | .unit u :: rest =>
    if isHighSurrogate u || isLowSurrogate u then none
    else (decode? rest).map (Char.ofNat u :: ·)

/-- The text of a string whose opening quote is already read. -/
def text : Reader (Option String) := fun cs => do
  let (parts, cs) ← pieces cs
  return ((decode? parts).map String.ofList, cs)

/-- A non-empty run of digits. -/
def digits : Reader (List Char) := fun cs =>
  match cs.takeWhile Char.isDigit with
  | [] => none
  | ds => some (ds, cs.dropWhile Char.isDigit)

/-- Digits without a zero in front of others. -/
def integer : Reader (List Char)
  | '0' :: cs => if cs.head?.any Char.isDigit then none else some (['0'], cs)
  | cs => digits cs

/-- The part after the point, if there is a point. -/
def fraction : Reader (List Char)
  | '.' :: cs => (digits cs).map (fun (ds, cs) => ('.' :: ds, cs))
  | cs => some ([], cs)

/-- The power of ten, if there is one. -/
def power : Reader (List Char)
  | mark :: cs =>
    if mark = 'e' ∨ mark = 'E' then
      match cs with
      | '+' :: cs => (digits cs).map (fun (ds, cs) => (mark :: '+' :: ds, cs))
      | '-' :: cs => (digits cs).map (fun (ds, cs) => (mark :: '-' :: ds, cs))
      | cs => (digits cs).map (fun (ds, cs) => (mark :: ds, cs))
    else some ([], mark :: cs)
  | [] => some ([], [])

def unsigned : Reader (List Char) := fun cs => do
  let (whole, cs) ← integer cs
  let (part, cs) ← fraction cs
  let (exponent, cs) ← power cs
  return (whole ++ part ++ exponent, cs)

def numeral : Reader (List Char)
  | '-' :: cs => (unsigned cs).map (fun (ds, cs) => ('-' :: ds, cs))
  | cs => unsigned cs

mutual

/-- A value after blanks. Every character that is read pays for at most two steps. -/
def value : Nat → Reader Json
  | 0, _ => none
  | steps + 1, cs =>
    match skipBlanks cs with
    | 'n' :: cs => (expect ['u', 'l', 'l'] cs).map (fun cs => (null, cs))
    | 't' :: cs => (expect ['r', 'u', 'e'] cs).map (fun cs => (bool true, cs))
    | 'f' :: cs => (expect ['a', 'l', 's', 'e'] cs).map (fun cs => (bool false, cs))
    | '"' :: cs => (text cs).map (fun (s, cs) => (string s, cs))
    | '[' :: cs =>
      match skipBlanks cs with
      | ']' :: cs => some (array [], cs)
      | cs => (items steps cs).map (fun (vs, cs) => (array vs, cs))
    | '\x7b' :: cs =>
      match skipBlanks cs with
      | '\x7d' :: cs => some (object [], cs)
      | cs => (members steps cs).map (fun (ms, cs) => (object ms, cs))
    | cs => (numeral cs).map (fun (ds, cs) => (number (String.ofList ds), cs))

/-- One item or more, with the closing bracket. -/
def items : Nat → Reader (List Json)
  | 0, _ => none
  | steps + 1, cs => do
    let (v, cs) ← value steps cs
    match skipBlanks cs with
    | ']' :: cs => return ([v], cs)
    | ',' :: cs =>
      let (vs, cs) ← items steps cs
      return (v :: vs, cs)
    | _ => none

/-- One member or more, with the closing brace. -/
def members : Nat → Reader (List (Option String × Json))
  | 0, _ => none
  | steps + 1, cs => do
    let .cons '"' cs := skipBlanks cs | none
    let (name, cs) ← text cs
    let .cons ':' cs := skipBlanks cs | none
    let (v, cs) ← value steps cs
    match skipBlanks cs with
    | '\x7d' :: cs => return ([(name, v)], cs)
    | ',' :: cs =>
      let (ms, cs) ← members steps cs
      return ((name, v) :: ms, cs)
    | _ => none

end

/-- Reads a text that holds one value and nothing else. -/
def parse? (source : String) : Option Json := do
  let cs := source.toList
  let (v, rest) ← value (2 * cs.length + 1) cs
  guard (skipBlanks rest).isEmpty
  return v

end Json

end StructuralTypes
