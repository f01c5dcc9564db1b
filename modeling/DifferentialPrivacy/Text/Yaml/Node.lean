import DifferentialPrivacy.Text.Yaml.Lexer

set_option autoImplicit false

/-!
From tokens to trees. An alias stays in the tree as the number of its anchor, so trees are finite
even where nodes refer to themselves. Which node it means is known only at the end of the document.
-/

namespace DifferentialPrivacy

inductive Yaml
  /-- The node with the anchor of this number. -/
  | alias (number : Nat)
  | scalar (tag : Option (List UInt8)) (plain : Bool) (text : String)
  | sequence (tag : Option (List UInt8)) (elements : List Yaml)
  | mapping (tag : Option (List UInt8)) (entries : List (Yaml × Yaml))

namespace Yaml

/-- What stands where a node may be left out. -/
def empty : Yaml := .scalar none true ""

/-- What is known while a document is read. -/
structure Composer where
  tokens : List Token
  /-- What the handles of tags stand for. -/
  handles : List (String × List UInt8)
  /-- The number of each anchor that has been named. -/
  anchors : List (String × Nat)
  /-- The numbers of the nodes that have an anchor, the last node first. -/
  numbers : List Nat
  /-- The nodes that have an anchor, each under how many such nodes begin before it. -/
  anchored : List (Nat × Yaml)

/-- Computations that take tokens, and may refuse them. -/
abbrev Compose (α : Type) := StateT Composer Option α

namespace Compose

def peek : Compose (Option Token) := return (← get).tokens.head?

def drop : Compose Unit := modify fun s => { s with tokens := s.tokens.drop 1 }

def accept (token : Token) : Compose Bool := do
  if (← peek) = some token then
    drop
    return true
  else return false

def differs (tokens : List Token) : Compose Bool := return (← peek).all fun t => !tokens.contains t

def refuse {α : Type} : Compose α := failure

def resolveTag (handle : String) (suffix : List UInt8) : Compose (List UInt8) := do
  if handle = "" then return suffix
  else
    match (← get).handles.lookup handle with
    | some expansion => return expansion ++ suffix
    | none => refuse

def tag? : Compose (Option (List UInt8)) := do
  match ← peek with
  | some (.tag handle suffix) =>
    drop
    return some (← resolveTag handle suffix)
  | _ => return none

/-- The place among the nodes with an anchor, for one that has an anchor. Its anchor has as number
    how many names there are before it, so that a name that comes again gets a new number, which the
    next new name gets too. -/
def anchor? : Compose (Option Nat) := do
  match ← peek with
  | some (.anchor name) =>
    drop
    let s ← get
    let number := s.anchors.length
    set { s with
      anchors := (name, number) :: s.anchors.filter fun a => a.1 ≠ name
      numbers := number :: s.numbers }
    return some s.numbers.length
  | _ => return none

/-- A node may have an anchor and a tag, in either order. -/
def properties : Compose (Option Nat × Option (List UInt8)) := do
  match ← anchor? with
  | some place => return (some place, ← tag?)
  | none =>
    let tag ← tag?
    return (← anchor?, tag)

/-- Keeps a node that has a place among those with an anchor. -/
def keep (place : Option Nat) (x : Yaml) : Compose Yaml := do
  match place with
  | some n => modify fun s => { s with anchored := (n, x) :: s.anchored }
  | none => pure ()
  return x

mutual

/-- A node. Block collections begin only where blocks are allowed, and one without indentation of
    its own, which is a sequence, only as part of a mapping. A lone exclamation mark is no tag for a
    scalar that is written out. The first argument bounds the number of steps and is above twice the
    number of tokens. -/
def node (blocks inMapping : Bool) : Nat → Compose Yaml
  | 0 => refuse
  | fuel + 1 => do
    match ← peek with
    | some (.alias name) =>
      drop
      match (← get).anchors.lookup name with
      | some number => return .alias number
      | none => refuse
    | _ =>
      let (place, tag) ← properties
      match ← peek with
      | some (.scalar plain text) =>
        drop
        keep place (.scalar (tag.filter (· ≠ [bang])) plain text)
      | some .flowSequenceStart =>
        drop
        keep place (.sequence tag (← flowElements true fuel))
      | some .flowMappingStart =>
        drop
        keep place (.mapping tag (← flowEntries true fuel))
      | token =>
        if inMapping && token = some .blockEntry then
          keep place (.sequence tag (← plainElements fuel))
        else if blocks && token = some .blockSequenceStart then
          drop
          keep place (.sequence tag (← blockElements fuel))
        else if blocks && token = some .blockMappingStart then
          drop
          keep place (.mapping tag (← blockEntries fuel))
        else if place.isSome || tag.isSome then keep place (.scalar tag true "")
        else refuse

/-- The elements of a sequence up to the end of its block. -/
def blockElements : Nat → Compose (List Yaml)
  | 0 => refuse
  | fuel + 1 => do
    if ← accept .blockEntry then
      let x ← if ← differs [.blockEntry, .blockEnd] then node true false fuel else pure empty
      return x :: (← blockElements fuel)
    else if ← accept .blockEnd then return []
    else refuse

/-- The elements of a sequence that has no indentation of its own. -/
def plainElements : Nat → Compose (List Yaml)
  | 0 => refuse
  | fuel + 1 => do
    if ← accept .blockEntry then
      let x ← if ← differs [.blockEntry, .key, .value, .blockEnd] then node true false fuel
        else pure empty
      return x :: (← plainElements fuel)
    else return []

/-- The entries of a mapping up to the end of its block. Keys and values may be left out, but not
    the token that announces a key. -/
def blockEntries : Nat → Compose (List (Yaml × Yaml))
  | 0 => refuse
  | fuel + 1 => do
    let part : Compose Yaml := do
      if ← differs [.key, .value, .blockEnd] then node true true fuel else pure empty
    if ← accept .key then
      let k ← part
      let x ← if ← accept .value then part else pure empty
      return (k, x) :: (← blockEntries fuel)
    else if ← accept .blockEnd then return []
    else refuse

/-- The elements up to a closing bracket. A pair by itself is a mapping. -/
def flowElements (first : Bool) : Nat → Compose (List Yaml)
  | 0 => refuse
  | fuel + 1 => do
    if ← accept .flowSequenceEnd then return []
    else
      if !first then
        if !(← accept .flowEntry) then refuse
      if ← accept .flowSequenceEnd then return []
      else
        let x ← if ← accept .key then flowPair fuel else node false false fuel
        return x :: (← flowElements false fuel)

/-- A key and a value inside a sequence. A key that is left out takes the token in its place
    along. -/
def flowPair : Nat → Compose Yaml
  | 0 => refuse
  | fuel + 1 => do
    let k ← if ← differs [.value, .flowEntry, .flowSequenceEnd] then node false false fuel
      else do
        drop
        pure empty
    let x ← flowValue .flowSequenceEnd fuel
    return .mapping none [(k, x)]

/-- What follows a key inside brackets. -/
def flowValue (close : Token) : Nat → Compose Yaml
  | 0 => refuse
  | fuel + 1 => do
    if ← accept .value then
      if ← differs [.flowEntry, close] then node false false fuel else pure empty
    else pure empty

/-- The entries up to a closing brace. What is no key has an empty value. -/
def flowEntries (first : Bool) : Nat → Compose (List (Yaml × Yaml))
  | 0 => refuse
  | fuel + 1 => do
    if ← accept .flowMappingEnd then return []
    else
      if !first then
        if !(← accept .flowEntry) then refuse
      if ← accept .flowMappingEnd then return []
      else
        let entry ← if ← accept .key then do
            let k ← if ← differs [.value, .flowEntry, .flowMappingEnd] then node false false fuel
              else pure empty
            pure (k, ← flowValue .flowMappingEnd fuel)
          else pure (← node false false fuel, empty)
        return entry :: (← flowEntries false fuel)

end

/-- Directives before a document: one version at most, and no handle twice. -/
def directives (versioned : Bool) (handles : List (String × List UInt8)) :
    List Token → Compose Unit
  | .version major minor :: tokens =>
    if versioned || major ≠ 1 || (minor ≠ 1 && minor ≠ 2) then refuse
    else directives true handles tokens
  | .handle handle expansion :: tokens =>
    if (handles.lookup handle).isSome then refuse
    else directives versioned ((handle, expansion) :: handles) tokens
  | tokens => modify fun s =>
      { s with
        tokens
        handles := handles ++ [("!", [bang]), ("!!", "tag:yaml.org,2002:".toUTF8.toList)] }

/-- The one document of a stream. After `---` it may be empty. -/
def document : Compose Yaml := do
  let tokens := (← get).tokens
  directives false [] tokens
  let fuel := 2 * tokens.length + 2
  let explicit ← accept .documentStart
  if !explicit && (← get).tokens.length ≠ tokens.length then refuse
  let atEnd ← match ← peek with
    | none | some .documentStart | some .documentEnd | some (.version _ _) | some (.handle _ _) =>
      pure true
    | some _ => pure false
  let root ← if explicit && atEnd then pure empty else node true false fuel
  modify fun s => { s with tokens := s.tokens.dropWhile (· = .documentEnd) }
  if (← get).tokens.isEmpty then return root else refuse

end Compose

/-- A document, and its nodes that aliases can mean, by number and with the last node first. -/
structure Document where
  root : Yaml
  anchored : List (Nat × Yaml)

/-- The document that a text holds: exactly one. -/
def Document.ofText? (text : List Char) : Option Document := do
  let tokens ← Token.ofText? text
  let (root, s) ← Compose.document.run ⟨tokens, [], [], [], []⟩
  let places := s.numbers.zip (List.range s.numbers.length).reverse
  return ⟨root, places.filterMap fun (n, place) => (s.anchored.lookup place).map (n, ·)⟩

/-- The node that is meant, which is never an alias: of the nodes with the same number the last. -/
def Document.resolve (d : Document) : Yaml → Yaml
  | .alias number => (d.anchored.lookup number).getD (.alias number)
  | x => x

end Yaml
end DifferentialPrivacy
