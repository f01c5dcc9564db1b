import DifferentialPrivacy.Number.Decimal

set_option autoImplicit false

/-!
Documents in JavaScript object notation: the tree, its printer, and a reader that accepts exactly
the standard grammar. Numbers are kept as they are written, since nothing here computes with them,
and an object keeps its members in order, repeated names included. What the grammar allows but is no
text or no number stays in the tree without its content, so that it may still be passed by.
-/

namespace DifferentialPrivacy

inductive Json
  | null
  | bool (b : Bool)
  | number (digits : String)
  | string (s : String)
  | array (elements : List Json)
  | object (members : List (String × Json))
  /-- A string with half of a surrogate pair, an object with such a name, or a number that is too
      large. -/
  | unreadable

namespace Json

def hexPair (n : Nat) : List Char := [Nat.digitChar (n / 16), Nat.digitChar (n % 16)]

/-- A character inside quotes. Control characters that have no letter of their own are numbered. -/
def escape (c : Char) : List Char :=
  match c with
  | '"' => ['\\', '"']
  | '\\' => ['\\', '\\']
  | '\n' => ['\\', 'n']
  | '\r' => ['\\', 'r']
  | '\t' => ['\\', 't']
  | '\x08' => ['\\', 'b']
  | '\x0c' => ['\\', 'f']
  | c => if c.toNat < 0x20 then ['\\', 'u', '0', '0'] ++ hexPair c.toNat else [c]

def quote (s : String) : List Char := '"' :: s.toList.flatMap escape ++ ['"']

mutual

def print : Json → List Char
  | null => "null".toList
  | bool b => (if b then "true" else "false").toList
  | number digits => digits.toList
  | string s => quote s
  | array xs => '[' :: printElements xs ++ [']']
  | object ms => '\x7b' :: printMembers ms ++ ['\x7d']
  | unreadable => ['"', '\\', 'u', 'd', '8', '0', '0', '"']

def printElements : List Json → List Char
  | [] => []
  | [x] => x.print
  | x :: xs => x.print ++ ',' :: printElements xs

def printMembers : List (String × Json) → List Char
  | [] => []
  | [(name, x)] => quote name ++ ':' :: x.print
  | (name, x) :: ms => quote name ++ ':' :: x.print ++ ',' :: printMembers ms

end

def text (d : Json) : String := String.ofList d.print

def isBlank (c : Char) : Bool := c = ' ' || c = '\t' || c = '\n' || c = '\r'

def skipBlanks (cs : List Char) : List Char := cs.dropWhile isBlank

/-- What follows a number, if there is one. -/
def afterDigits? (cs : List Char) : Option (List Char) :=
  match cs with
  | c :: rest => if c.isDigit then some (rest.dropWhile Char.isDigit) else none
  | [] => none

def afterWhole? : List Char → Option (List Char)
  | '0' :: rest => some rest
  | cs => afterDigits? cs

def afterFraction? : List Char → Option (List Char)
  | '.' :: rest => afterDigits? rest
  | cs => some cs

def afterExponent? : List Char → Option (List Char)
  | c :: rest =>
    if c = 'e' || c = 'E' then
      match rest with
      | '+' :: digits | '-' :: digits => afterDigits? digits
      | digits => afterDigits? digits
    else some (c :: rest)
  | [] => some []

def number? (cs : List Char) : Option (Json × List Char) := do
  let rest ← afterWhole? (if cs.head? = some '-' then cs.tail else cs)
  let rest ← afterFraction? rest
  let rest ← afterExponent? rest
  let digits := cs.take (cs.length - rest.length)
  if (Decimal.ofText digits).overflows .binary64 then return (unreadable, rest)
  else return (number (String.ofList digits), rest)

def hexDigit? (c : Char) : Option Nat :=
  if c.isDigit then some (c.toNat - '0'.toNat)
  else if 'a' ≤ c ∧ c ≤ 'f' then some (c.toNat - 'a'.toNat + 10)
  else if 'A' ≤ c ∧ c ≤ 'F' then some (c.toNat - 'A'.toNat + 10)
  else none

def hexNumber? (cs : List Char) : Option Nat :=
  cs.foldlM (fun n c => (hexDigit? c).map (n * 16 + ·)) 0

def unescape? : Char → Option Char
  | '"' => some '"'
  | '\\' => some '\\'
  | '/' => some '/'
  | 'b' => some '\x08'
  | 'f' => some '\x0c'
  | 'n' => some '\n'
  | 'r' => some '\r'
  | 't' => some '\t'
  | _ => none

def isHighSurrogate (n : Nat) : Bool := 0xd800 ≤ n && n < 0xdc00

def isLowSurrogate (n : Nat) : Bool := 0xdc00 ≤ n && n < 0xe000

/-- What was read of a string: its characters, last one first, and half of a surrogate pair after
    them. A half without the other one makes the string no text. -/
structure Prefix where
  chars : Option (List Char)
  half : Option Nat

namespace Prefix

def empty : Prefix := ⟨some [], none⟩

/-- The characters, unless a half stands after them. -/
def chars? (p : Prefix) : Option (List Char) := if p.half.isSome then none else p.chars

def push (p : Prefix) (c : Char) : Prefix := ⟨p.chars?.map (c :: ·), none⟩

/-- Adds a numbered character. Those beyond four digits come as a pair of surrogates. -/
def pushNumber (p : Prefix) (n : Nat) : Prefix :=
  if isHighSurrogate n then ⟨p.chars?, some n⟩
  else if isLowSurrogate n then
    let chars := do
      let whole := Char.ofNat (0x10000 + ((← p.half) - 0xd800) * 0x400 + (n - 0xdc00))
      return whole :: (← p.chars)
    ⟨chars, none⟩
  else p.push (Char.ofNat n)

def text? (p : Prefix) : Option String := p.chars?.map fun cs => String.ofList cs.reverse

end Prefix

/-- The rest of a string after its opening quote, with what follows it. -/
def stringBody? (read : Prefix) : List Char → Option (Option String × List Char)
  | '"' :: rest => some (read.text?, rest)
  | '\\' :: 'u' :: a :: b :: c :: d :: rest =>
    match hexNumber? [a, b, c, d] with
    | none => none
    | some n => stringBody? (read.pushNumber n) rest
  | '\\' :: c :: rest =>
    match unescape? c with
    | none => none
    | some c => stringBody? (read.push c) rest
  | c :: rest => if c.toNat < 0x20 || c = '\\' then none else stringBody? (read.push c) rest
  | [] => none

def ofMembers (ms : List (Option String × Json)) : Json :=
  match ms.mapM fun m => m.1.map fun name => (name, m.2) with
  | some ms => object ms
  | none => unreadable

mutual

/-- A value at the start of the text, and what follows it. Values nest no deeper than the text is
    long, which the first argument counts down. -/
def value? : Nat → List Char → Option (Json × List Char)
  | 0, _ => none
  | fuel + 1, cs =>
    match skipBlanks cs with
    | '"' :: rest =>
      (stringBody? .empty rest).map fun (s, rest) => (s.elim unreadable string, rest)
    | '[' :: rest =>
      match skipBlanks rest with
      | ']' :: rest => some (.array [], rest)
      | rest => (elements? fuel rest).map fun (xs, rest) => (.array xs, rest)
    | '\x7b' :: rest =>
      match skipBlanks rest with
      | '\x7d' :: rest => some (.object [], rest)
      | rest => (members? fuel rest).map fun (ms, rest) => (ofMembers ms, rest)
    | 'n' :: 'u' :: 'l' :: 'l' :: rest => some (.null, rest)
    | 't' :: 'r' :: 'u' :: 'e' :: rest => some (.bool true, rest)
    | 'f' :: 'a' :: 'l' :: 's' :: 'e' :: rest => some (.bool false, rest)
    | cs => number? cs

/-- One or more elements and the closing bracket. -/
def elements? : Nat → List Char → Option (List Json × List Char)
  | 0, _ => none
  | fuel + 1, cs => do
    let (x, rest) ← value? fuel cs
    match skipBlanks rest with
    | ',' :: rest => (elements? fuel rest).map fun (xs, rest) => (x :: xs, rest)
    | ']' :: rest => some ([x], rest)
    | _ => none

/-- One or more members and the closing brace. -/
def members? : Nat → List Char → Option (List (Option String × Json) × List Char)
  | 0, _ => none
  | fuel + 1, cs =>
    match skipBlanks cs with
    | '"' :: rest => do
      let (name, rest) ← stringBody? .empty rest
      match skipBlanks rest with
      | ':' :: rest =>
        let (x, rest) ← value? fuel rest
        match skipBlanks rest with
        | ',' :: rest => (members? fuel rest).map fun (ms, rest) => ((name, x) :: ms, rest)
        | '\x7d' :: rest => some ([(name, x)], rest)
        | _ => none
      | _ => none
    | _ => none

end

def parse? (s : String) : Option Json :=
  match value? (2 * s.length + 2) s.toList with
  | some (d, rest) => if (skipBlanks rest).isEmpty then some d else none
  | none => none

mutual

/-- Whether the whole document can be read with so many arrays and objects open at once. -/
def fits : Nat → Json → Bool
  | _, unreadable => false
  | n, array xs => n ≠ 0 && fitsElements (n - 1) xs
  | n, object ms => n ≠ 0 && fitsMembers (n - 1) ms
  | _, _ => true

def fitsElements : Nat → List Json → Bool
  | _, [] => true
  | n, x :: xs => fits n x && fitsElements n xs

def fitsMembers : Nat → List (String × Json) → Bool
  | _, [] => true
  | n, (_, x) :: ms => fits n x && fitsMembers n ms

end

end Json
end DifferentialPrivacy
