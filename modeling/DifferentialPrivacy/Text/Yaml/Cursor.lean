set_option autoImplicit false

/-!
Places in a text of the YAML format: what is left of it, and the line and the column, which carry
meaning.
-/

namespace DifferentialPrivacy

namespace Yaml

/-- Between lines. Texts are read with all other line breaks turned into line feeds. -/
def isBreak (c : Char) : Bool := c = '\n' || c = '\u2028' || c = '\u2029'

def isSpace (c : Char) : Bool := c = ' ' || c = '\t'

def isGap (c : Char) : Bool := isSpace c || isBreak c

/-- What names of anchors, directives and tag handles are made of. -/
def isWordChar (c : Char) : Bool := c.isAlphanum || c = '_' || c = '-'

/-- The text with one line feed for every line break that is no separator character of its own. -/
def unifyBreaks : List Char → List Char
  | '\r' :: '\n' :: rest => '\n' :: unifyBreaks rest
  | c :: rest => (if c = '\r' || c = '\u0085' then '\n' else c) :: unifyBreaks rest
  | [] => []

/-- Characters that a text may hold at all. -/
def isAllowed (c : Char) : Bool :=
  c = '\t' || c = '\n' || c = '\r' || c = '\u0085' || (0x20 ≤ c.toNat && c.toNat ≤ 0x7e)
    || (0xa0 ≤ c.toNat && c.toNat ≠ 0xfffe && c.toNat ≠ 0xffff)

structure Cursor where
  rest : List Char
  line : Nat
  column : Nat
  /-- How many bytes came before. -/
  index : Nat

namespace Cursor

def ofText (text : List Char) : Cursor := ⟨text, 0, 0, 0⟩

def next (c : Cursor) : Cursor :=
  match c.rest with
  | [] => c
  | a :: rest =>
    if isBreak a then ⟨rest, c.line + 1, 0, c.index + a.utf8Size⟩
    else ⟨rest, c.line, c.column + 1, c.index + a.utf8Size⟩

def skip (c : Cursor) (n : Nat) : Cursor := Nat.repeat next n c

/-- The characters up to the first that fails a test, and the place after them. -/
def span (p : Char → Bool) (c : Cursor) : List Char × Cursor :=
  let taken := c.rest.takeWhile p
  (taken, c.skip taken.length)

def skipSpaces (c : Cursor) : Cursor := (c.span isSpace).2

/-- Whether a space, a line break or the end stands `n` characters ahead. -/
def gapAt (c : Cursor) (n : Nat) : Bool := (c.rest[n]?).all isGap

def atLineEnd (c : Cursor) : Bool := c.rest.head?.all isBreak

/-- Whether a line starts here with the three characters, by themselves. -/
def startsWithMarker (mark : Char) (c : Cursor) : Bool :=
  c.column = 0 && c.rest.take 3 = [mark, mark, mark] && c.gapAt 3

def atMarker (c : Cursor) : Bool := c.startsWithMarker '-' || c.startsWithMarker '.'

/-- The place after a rest of a line that may hold a comment, if it holds nothing else. -/
def lineEnd? (c : Cursor) : Option Cursor :=
  let c := c.skipSpaces
  let c := if c.rest.head? = some '#' then (c.span fun a => !isBreak a).2 else c
  if c.atLineEnd then some c.next else none

end Cursor
end Yaml
end DifferentialPrivacy
