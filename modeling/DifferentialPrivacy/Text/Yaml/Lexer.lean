import DifferentialPrivacy.Text.Yaml.Tag

set_option autoImplicit false

/-!
From text to tokens. Indentation opens and closes block collections, and a colon makes a key of what
stands before it on the same line, so the place where a key may have begun is kept until it is clear
whether a colon follows.
-/

namespace DifferentialPrivacy

namespace Yaml

structure PendingKey where
  /-- How many tokens came before. -/
  position : Nat
  /-- Nothing but a key can stand there. -/
  required : Bool
  line : Nat
  column : Nat
  index : Nat

structure Lexer where
  cursor : Cursor
  tokens : Array Token
  /-- The columns of the open block collections, the innermost first. -/
  indents : List Nat
  /-- The pending key outside brackets. -/
  blockKey : Option PendingKey
  /-- The pending keys inside the open brackets, the innermost first. -/
  flowKeys : List (Option PendingKey)
  keyAllowed : Bool

namespace Lexer

def ofText (text : List Char) : Lexer := ⟨.ofText text, #[], [], none, [], true⟩

def inFlow (s : Lexer) : Bool := !s.flowKeys.isEmpty

/-- The first column inside the innermost block collection. -/
def margin (s : Lexer) : Nat :=
  match s.indents with
  | [] => 0
  | column :: _ => column + 1

def pendingKey (s : Lexer) : Option PendingKey :=
  match s.flowKeys with
  | [] => s.blockKey
  | key :: _ => key

def setPendingKey (s : Lexer) (key : Option PendingKey) : Lexer :=
  match s.flowKeys with
  | [] => { s with blockKey := key }
  | _ :: keys => { s with flowKeys := key :: keys }

def dropKey? (s : Lexer) : Option Lexer :=
  if s.pendingKey.any (·.required) then none else some (s.setPendingKey none)

/-- A key may begin with the token that comes next. -/
def markKey? (s : Lexer) : Option Lexer :=
  if s.keyAllowed then do
    let c := s.cursor
    let required := !s.inFlow && s.indents.head? = some c.column
    return (← s.dropKey?).setPendingKey (some ⟨s.tokens.size, required, c.line, c.column, c.index⟩)
  else some s

/-- Keys do not go on to another line, and have no more bytes than this. -/
def keyLimit : Nat := 1024

def isStale (c : Cursor) (key : PendingKey) : Bool :=
  key.line < c.line || key.index + keyLimit < c.index

/-- Gives up on keys that can no longer be. -/
def dropStaleKeys? (s : Lexer) : Option Lexer :=
  let stale (key : Option PendingKey) : Bool := key.any (isStale s.cursor)
  let refresh (key : Option PendingKey) : Option PendingKey := if stale key then none else key
  if (s.blockKey :: s.flowKeys).any fun key => stale key && key.any (·.required) then none
  else some { s with blockKey := refresh s.blockKey, flowKeys := s.flowKeys.map refresh }

def push (s : Lexer) (token : Token) : Lexer := { s with tokens := s.tokens.push token }

def take (s : Lexer) (n : Nat) (token : Token) : Lexer :=
  { s.push token with cursor := s.cursor.skip n }

/-- Closes the innermost block collections as long as their columns pass a test. Inside brackets
    indentation has no meaning. -/
def closeBlocks (s : Lexer) (isClosed : Nat → Bool) : Lexer :=
  if s.inFlow then s
  else
    let closed := s.indents.takeWhile isClosed
    { s with
      indents := s.indents.drop closed.length
      tokens := s.tokens ++ Array.replicate closed.length .blockEnd }

/-- Opens a block collection at a column, unless one is open there; its token goes to `position`. -/
def indent (s : Lexer) (column position : Nat) (token : Token) : Lexer :=
  if s.inFlow || column < s.margin then s
  else
    { s with
      indents := column :: s.indents
      tokens := s.tokens.insertIdxIfInBounds position token }

/-- Opens a block collection here, where a new entry must be allowed. -/
def indentHere? (s : Lexer) (token : Token) : Option Lexer :=
  if s.inFlow then some s
  else if s.keyAllowed then some (s.indent s.cursor.column s.tokens.size token)
  else none

/-- Skips spaces, comments and line breaks, and a byte order mark that begins a line. Tabs separate
    only where they cannot be mistaken for indentation. The first argument is above the length of
    the text. -/
def skipGap (s : Lexer) : Nat → Lexer
  | 0 => s
  | fuel + 1 =>
    let c := s.cursor
    let c := if c.column = 0 && c.rest.head? = some '\ufeff' then c.next else c
    let c := (c.span fun a => a = ' ' || (a = '\t' && (s.inFlow || !s.keyAllowed))).2
    let c := if c.rest.head? = some '#' then (c.span fun a => !isBreak a).2 else c
    if c.rest.head?.any isBreak then
      { s with cursor := c.next, keyAllowed := s.keyAllowed || !s.inFlow }.skipGap fuel
    else { s with cursor := c }

/-- Begins a line that has nothing to do with the collections before it. -/
def atMargin? (s : Lexer) : Option Lexer := do
  return { ← (s.closeBlocks fun _ => true).dropKey? with keyAllowed := false }

def openFlow? (s : Lexer) (token : Token) : Option Lexer := do
  let s ← s.markKey?
  return { s.take 1 token with flowKeys := none :: s.flowKeys, keyAllowed := true }

def closeFlow? (s : Lexer) (token : Token) : Option Lexer := do
  let s ← s.dropKey?
  return { s.take 1 token with flowKeys := s.flowKeys.drop 1, keyAllowed := false }

/-- A colon: what was pending is a key, or else the key is empty. -/
def colon? (s : Lexer) : Option Lexer :=
  match s.pendingKey with
  | some key =>
    let s := { s with tokens := s.tokens.insertIdxIfInBounds key.position .key }
    let s := s.indent key.column key.position .blockMappingStart
    some { (s.setPendingKey none).take 1 .value with keyAllowed := false }
  | none => do
    let s ← s.indentHere? .blockMappingStart
    return { s.take 1 .value with keyAllowed := !s.inFlow }

/-- Takes a token that a key may begin with. -/
def leaf? (s : Lexer) (read : Cursor → Option (Token × Cursor)) : Option Lexer := do
  let s ← s.markKey?
  let (token, cursor) ← read s.cursor
  return { s.push token with cursor, keyAllowed := false }

def quotedScalar? (quote : Char) (c : Cursor) : Option (Token × Cursor) := do
  let (text, c) ← quoted? quote (c.rest.length + 1) [] c.next
  return (.scalar false text, c)

def plainScalar? (s : Lexer) : Option Lexer := do
  let s ← s.markKey?
  let (text, broken, cursor) ← plain? s.inFlow s.margin (s.cursor.rest.length + 1) [] [] s.cursor
  return { s.push (.scalar true text) with cursor, keyAllowed := broken }

def blockScalar? (folded : Bool) (s : Lexer) : Option Lexer := do
  let s ← s.dropKey?
  let (text, cursor) ← block? folded (s.indents.headD 0) s.margin s.cursor.next
  return { s.push (.scalar false text) with cursor, keyAllowed := true }

/-- What cannot begin a plain scalar. -/
def isIndicator (c : Char) : Bool := "-?:,[]\x7b\x7d#&*!|>'\"%@`".toList.contains c

/-- Whether a plain scalar begins here: with no gap and no indicator, or with an indicator that
    something follows. -/
def startsPlain (s : Lexer) (a : Char) : Bool :=
  (!isGap a && !isIndicator a) || (a = '-' && !(s.cursor.rest[1]?.any isSpace))
    || (!s.inFlow && (a = '?' || a = ':') && !s.cursor.gapAt 1)

/-- Takes one token, and those that it implies, at its first character. -/
def token? (s : Lexer) (a : Char) : Option Lexer :=
  let c := s.cursor
  let separate := s.inFlow || c.gapAt 1
  if c.column = 0 && a = '%' then do
    let s ← s.atMargin?
    let (token, cursor) ← directive? s.cursor.next
    return { s.push token with cursor }
  else if c.startsWithMarker '-' then s.atMargin?.map (·.take 3 .documentStart)
  else if c.startsWithMarker '.' then s.atMargin?.map (·.take 3 .documentEnd)
  else if a = '[' then s.openFlow? .flowSequenceStart
  else if a = '\x7b' then s.openFlow? .flowMappingStart
  else if a = ']' then s.closeFlow? .flowSequenceEnd
  else if a = '\x7d' then s.closeFlow? .flowMappingEnd
  else if a = ',' then do
    return { (← s.dropKey?).take 1 .flowEntry with keyAllowed := true }
  else if a = '-' && c.gapAt 1 then do
    let s ← (← s.indentHere? .blockSequenceStart).dropKey?
    return { s.take 1 .blockEntry with keyAllowed := true }
  else if a = '?' && separate then do
    let s ← (← s.indentHere? .blockMappingStart).dropKey?
    return { s.take 1 .key with keyAllowed := !s.inFlow }
  else if a = ':' && separate then s.colon?
  else if a = '*' then s.leaf? fun c => (anchorName? c.next).map fun (name, c) => (.alias name, c)
  else if a = '&' then s.leaf? fun c => (anchorName? c.next).map fun (name, c) => (.anchor name, c)
  else if a = '!' then s.leaf? (tag? s.inFlow)
  else if a = '|' && !s.inFlow then s.blockScalar? false
  else if a = '>' && !s.inFlow then s.blockScalar? true
  else if a = '\'' || a = '"' then s.leaf? (quotedScalar? a)
  else if s.startsPlain a then s.plainScalar?
  else none

/-- All tokens from here on. The first argument is above the length of the text. -/
def tokens? : Nat → Lexer → Option (List Token)
  | 0, _ => none
  | fuel + 1, s => do
    let s ← (s.skipGap (s.cursor.rest.length + 1)).dropStaleKeys?
    let s := s.closeBlocks (s.cursor.column < ·)
    match s.cursor.rest with
    | [] => return (← s.atMargin?).tokens.toList
    | a :: _ => tokens? fuel (← s.token? a)

end Lexer

def Token.ofText? (text : List Char) : Option (List Token) :=
  if text.all isAllowed then
    let text := unifyBreaks text
    (Lexer.ofText text).tokens? (text.length + 1)
  else none

end Yaml
end DifferentialPrivacy
