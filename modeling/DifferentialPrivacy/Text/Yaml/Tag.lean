import DifferentialPrivacy.Text.Utf8
import DifferentialPrivacy.Text.Yaml.Scalar
import DifferentialPrivacy.Text.Yaml.Token

set_option autoImplicit false

/-!
Tags, anchors and directives of the YAML format. Every reader starts after the indicator that
announces what it reads. A tag is read as bytes, which need not be the bytes of a text.
-/

namespace DifferentialPrivacy

namespace Yaml

/-- What tags are made of; some characters are left to flow collections unless the tag stands
    apart. -/
def isTagChar (apart : Bool) (c : Char) : Bool :=
  isWordChar c || c = ';' || c = '/' || c = '?' || c = ':' || c = '@' || c = '&' || c = '='
    || c = '+' || c = '$' || c = '.' || c = '!' || c = '~' || c = '*' || c = '\'' || c = '('
    || c = ')' || (apart && (c = ',' || c = '[' || c = ']'))

/-- The bytes of a tag, up to the first character that is not part of it. A byte may be written as
    two hexadecimal digits after a percent sign, and one that begins a longer character must be
    followed by the others of it, of which `missing` are still to come. -/
def tagBytes? (apart : Bool) : (missing : Nat) → List Char → Option (List UInt8 × List Char)
  | missing, '%' :: a :: b :: rest => do
    let byte ← Json.hexNumber? [a, b]
    let missing ←
      if missing = 0 then (Utf8.width? byte).map (· - 1)
      else if Utf8.isTrailing byte then some (missing - 1)
      else none
    let (bytes, rest) ← tagBytes? apart missing rest
    return (UInt8.ofNat byte :: bytes, rest)
  | 0, c :: rest =>
    if c = '%' then none
    else if isTagChar apart c then do
      let (bytes, rest) ← tagBytes? apart 0 rest
      return (UInt8.ofNat c.toNat :: bytes, rest)
    else some ([], c :: rest)
  | 0, [] => some ([], [])
  | _ + 1, _ => none

/-- The part of a tag after its handle, where something must stand unless something stood `before`
    it. A zero byte cuts off what follows it. -/
def tagSuffix? (apart : Bool) (before : List Char) (c : Cursor) :
    Option (List UInt8 × Cursor) := do
  let (bytes, rest) ← tagBytes? apart 0 c.rest
  if before.isEmpty && bytes.isEmpty then none
  else
    let bytes := (before.drop 1).map (fun a => UInt8.ofNat a.toNat) ++ bytes
    return (bytes.takeWhile (· ≠ 0), c.skip (c.rest.length - rest.length))

/-- The exclamation mark that begins the tags of an application. -/
def bang : UInt8 := UInt8.ofNat '!'.toNat

/-- A handle: an exclamation mark, and perhaps a word with another one after it. -/
def tagHandle? (c : Cursor) : Option (List Char × Cursor) :=
  match c.rest with
  | '!' :: _ =>
    let (word, c) := c.next.span isWordChar
    if c.rest.head? = some '!' then some ('!' :: word ++ ['!'], c.next) else some ('!' :: word, c)
  | _ => none

/-- A tag. A lone exclamation mark is a tag without a handle. -/
def tag? (flow : Bool) (c : Cursor) : Option (Token × Cursor) := do
  let ((handle, suffix), c) ←
    if c.rest[1]? = some '<' then do
      let (suffix, c) ← tagSuffix? true [] (c.skip 2)
      if c.rest.head? = some '>' then pure (("", suffix), c.next) else none
    else do
      let (handle, c) ← tagHandle? c
      if 2 ≤ handle.length && handle.getLast? = some '!' then do
        let (suffix, c) ← tagSuffix? false [] c
        pure ((String.ofList handle, suffix), c)
      else do
        let (suffix, c) ← tagSuffix? false handle c
        pure (if suffix.isEmpty then ("", [bang]) else ("!", suffix), c)
  if c.gapAt 0 || (flow && c.rest.head? = some ',') then return (.tag handle suffix, c) else none

def anchorName? (c : Cursor) : Option (String × Cursor) :=
  let (name, c) := c.span isWordChar
  let ends := c.rest.head?.all fun a =>
    isGap a || a = '?' || a = ':' || a = ',' || a = ']' || a = '\x7d' || a = '%' || a = '@'
      || a = '\x60'
  if name.isEmpty || !ends then none else some (String.ofList name, c)

def versionNumber? (c : Cursor) : Option (Nat × Cursor) :=
  let (digits, c) := c.span Char.isDigit
  if digits.isEmpty || 9 < digits.length then none
  else some (digits.foldl (fun n d => n * 10 + (d.toNat - '0'.toNat)) 0, c)

/-- A directive, with the end of its line. -/
def directive? (c : Cursor) : Option (Token × Cursor) := do
  let (name, c) := c.span isWordChar
  if !c.gapAt 0 then none
  else
    let c := c.skipSpaces
    let (token, c) ←
      if name = "YAML".toList then do
        let (major, c) ← versionNumber? c
        if c.rest.head? = some '.' then do
          let (minor, c) ← versionNumber? c.next
          pure (Token.version major minor, c)
        else none
      else if name = "TAG".toList then do
        let (handle, c) ← tagHandle? c
        if (handle = ['!'] || handle.getLast? = some '!') && c.rest.head?.any isSpace then do
          let (expansion, c) ← tagSuffix? true [] c.skipSpaces
          if c.gapAt 0 then pure (Token.handle (String.ofList handle) expansion, c) else none
        else none
      else none
    return (token, ← c.lineEnd?)

end Yaml
end DifferentialPrivacy
