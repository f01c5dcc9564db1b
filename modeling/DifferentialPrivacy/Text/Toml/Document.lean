import DifferentialPrivacy.Text.Toml.Scalar

set_option autoImplicit false

/-!
Documents of the TOML format, version 1.0: values, statements line by line, and the tree that they
build.
-/

namespace DifferentialPrivacy

namespace Toml

/-- The rest after spaces, line breaks and comments. The first argument is as long as the text. -/
def skipLines : Nat → List Char → List Char
  | 0, cs => cs
  | fuel + 1, cs =>
    match skipBlanks cs with
    | '#' :: rest => skipLines fuel (skipComment ('#' :: rest))
    | cs => cs

mutual

/-- A value. Arrays and tables in braces nest less than `depth` deep; the first argument bounds the
    number of steps and is never reached. -/
def value? : Nat → (depth : Nat) → Reader Toml
  | 0, _, _ => none
  | fuel + 1, depth, cs =>
    match cs with
    | '[' :: rest =>
      if depth ≤ 1 then none
      else do
        let (elements, rest) ← elements? fuel (depth - 1) (skipLines rest.length rest)
        return (.array elements, rest)
    | '\x7b' :: rest =>
      if depth ≤ 1 then none
      else
        match skipSpaces rest with
        | '\x7d' :: rest => some (.table .inline [], rest)
        | rest => do
          let (members, rest) ← members? fuel (depth - 1) [] rest
          return (.table .inline members, rest)
    | '"' :: _ | '\'' :: _ => do
      let (s, rest) ← string? cs
      return (.string s, rest)
    | cs => word? cs

/-- The rest of an array from an element or the closing bracket on. The last element may have a
    comma after it. -/
def elements? : Nat → (depth : Nat) → Reader (List Toml)
  | 0, _, _ => none
  | _ + 1, _, ']' :: rest => some ([], rest)
  | fuel + 1, depth, cs => do
    let (x, rest) ← value? fuel depth cs
    match skipLines rest.length rest with
    | ',' :: rest => do
      let (xs, rest) ← elements? fuel depth (skipLines rest.length rest)
      return (x :: xs, rest)
    | ']' :: rest => return ([x], rest)
    | _ => none

/-- The rest of a table in braces from a key on, on one line, with the members read before. -/
def members? : Nat → (depth : Nat) → Members → Reader Members
  | 0, _, _, _ => none
  | fuel + 1, depth, read, cs => do
    let ((path, key), rest) ← path? cs
    let (x, rest) ← value? fuel depth (skipSpaces (← expect? '=' rest))
    let read ← assign path key x .header read
    match skipSpaces rest with
    | ',' :: rest => members? fuel depth read rest
    | '\x7d' :: rest => return (read, rest)
    | _ => none

end

/-- The tree read so far, and the path of the table that is open. -/
structure Draft where
  root : Members
  current : List String

/-- A table is opened by its header, in single or double brackets. -/
def header? (d : Draft) (cs : List Char) : Option (Draft × List Char) :=
  match cs with
  | '[' :: '[' :: rest => do
    let ((path, key), rest) ← path? rest
    let rest ← lineEnd? (← expect? ']' (← expect? ']' rest))
    return (⟨← openElement path key d.root, path ++ [key]⟩, rest)
  | _ => do
    let ((path, key), rest) ← path? (← expect? '[' cs)
    let rest ← lineEnd? (← expect? ']' rest)
    return (⟨← openTable path key d.root, path ++ [key]⟩, rest)

def keyValue? (d : Draft) (cs : List Char) : Option (Draft × List Char) := do
  let ((path, key), rest) ← path? cs
  let (x, rest) ← value? (2 * rest.length + 2) depthLimit (skipSpaces (← expect? '=' rest))
  let rest ← lineEnd? rest
  return (⟨← assignUnder d.current path key x d.root, d.current⟩, rest)

/-- Reads lines to the end. The first argument is above the number of lines. -/
def lines? : Nat → Draft → List Char → Option Draft
  | 0, _, _ => none
  | fuel + 1, d, cs =>
    match skipSpaces cs with
    | [] => some d
    | '[' :: rest => do
      let (d, rest) ← header? d ('[' :: rest)
      lines? fuel d rest
    | c :: rest =>
      if c = '#' || c = '\n' || c = '\r' then (lineEnd? (c :: rest)).bind (lines? fuel d)
      else do
        let (d, rest) ← keyValue? d (c :: rest)
        lines? fuel d rest

/-- A whole document. A byte order mark may stand before it. -/
def parse? (text : List Char) : Option Members := do
  let text := if text.head? = some '\ufeff' then text.drop 1 else text
  return (← lines? (text.length + 1) ⟨[], []⟩ text).root

end Toml
end DifferentialPrivacy
