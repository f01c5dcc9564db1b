import DifferentialPrivacy.Text.Json
import DifferentialPrivacy.Text.Yaml.Cursor

set_option autoImplicit false

/-!
Scalars of the YAML format: quoted, plain, and in blocks. Breaks between lines are folded: a single
one becomes a space, and of several the first vanishes.
-/

namespace DifferentialPrivacy

namespace Yaml

/-- What spaces and line breaks inside a scalar come to. If a first break is `escaped`, it leaves
    nothing behind. -/
def fold (escaped : Bool) (gap : List Char) : List Char :=
  match escaped, gap.filter isBreak with
  | false, [] => gap
  | false, ['\n'] => [' ']
  | false, '\n' :: breaks => breaks
  | _, breaks => breaks

/-! ### Quoted scalars -/

/-- How many hexadecimal digits an escape takes. -/
def escapeWidth? : Char → Option Nat
  | 'x' => some 2
  | 'u' => some 4
  | 'U' => some 8
  | _ => none

def escapeLetter? : Char → Option Char
  | '0' => some '\x00'
  | 'a' => some '\x07'
  | 'b' => some '\x08'
  | 't' => some '\t'
  | '\t' => some '\t'
  | 'n' => some '\n'
  | 'v' => some '\x0b'
  | 'f' => some '\x0c'
  | 'r' => some '\r'
  | 'e' => some '\x1b'
  | ' ' => some ' '
  | '"' => some '"'
  | '/' => some '/'
  | '\\' => some '\\'
  | 'N' => some '\u0085'
  | '_' => some '\u00a0'
  | 'L' => some '\u2028'
  | 'P' => some '\u2029'
  | _ => none

/-- The character that an escape stands for, from the character after its backslash on, and how long
    it is from there. -/
def escape? : List Char → Option (Char × Nat)
  | [] => none
  | a :: rest =>
    match escapeLetter? a with
    | some b => some (b, 1)
    | none => do
      let width ← escapeWidth? a
      let digits := rest.take width
      if digits.length = width then
        let code ← Json.hexNumber? digits
        if code.isValidChar then return (Char.ofNat code, width + 1) else none
      else none

/-- The rest of a scalar after its opening `quote`. The first argument is above the length of the
    text. -/
def quoted? (quote : Char) : Nat → (read : List Char) → Cursor → Option (String × Cursor)
  | 0, _, _ => none
  | fuel + 1, read, c =>
    if c.atMarker then none
    else
      match c.rest with
      | [] => none
      | a :: rest =>
        if a = quote then
          if a = '\'' && rest.head? = some '\'' then quoted? quote fuel ('\'' :: read) (c.skip 2)
          else some (String.ofList read.reverse, c.next)
        else if isGap a then
          let (gap, c) := c.span isGap
          quoted? quote fuel ((fold false gap).reverse ++ read) c
        else if a = '\\' && quote = '"' then
          if rest.head?.any isBreak then
            let (gap, c) := (c.skip 2).span isGap
            quoted? quote fuel ((fold true gap).reverse ++ read) c
          else do
            let (b, width) ← escape? rest
            quoted? quote fuel (b :: read) (c.skip (width + 1))
        else quoted? quote fuel (a :: read) c.next

/-! ### Plain scalars -/

def isFlowIndicator (c : Char) : Bool :=
  c = ',' || c = '[' || c = ']' || c = '\x7b' || c = '\x7d'

/-- The part of a plain scalar up to a gap or to what ends it. Inside brackets a colon must not
    stand right before an indicator. -/
def plainPart? (flow : Bool) : List Char → Option (List Char)
  | [] => some []
  | a :: rest =>
    if isGap a then some []
    else if a = ':' && rest.head?.all isGap then some []
    else if flow && a = ':' && rest.head?.any fun b => isFlowIndicator b || b = '?' then none
    else if flow && isFlowIndicator a then some []
    else (plainPart? flow rest).map (a :: ·)

/-- Whether a tab stands left of the margin in a line that begins inside the gap. -/
def tabInMargin (margin : Nat) : (column : Option Nat) → List Char → Bool
  | _, [] => false
  | column, a :: rest =>
    if isBreak a then tabInMargin margin (some 0) rest
    else (a = '\t' && column.any (· < margin)) || tabInMargin margin (column.map (· + 1)) rest

/-- A plain scalar that begins at or after `margin`, whether a line break came after its last part,
    and the place where it ends. `gap` stands between what was read and the next part. -/
def plain? (flow : Bool) (margin : Nat) :
    Nat → (read gap : List Char) → Cursor → Option (String × Bool × Cursor)
  | 0, _, _, _ => none
  | fuel + 1, read, gap, c =>
    let finish := some (String.ofList read.reverse, gap.any isBreak, c)
    if c.atMarker || c.rest.head? = some '#' then finish
    else do
      match ← plainPart? flow c.rest with
      | [] => finish
      | part =>
        let read := part.reverse ++ (fold false gap).reverse ++ read
        let (gap, c) := (c.skip part.length).span isGap
        if tabInMargin margin none gap then none
        else if gap.isEmpty || (!flow && c.column < margin) then
          some (String.ofList read.reverse, gap.any isBreak, c)
        else plain? flow margin fuel read gap c

/-! ### Blocks -/

/-- What becomes of the line breaks at the end of a block. -/
inductive Chomping
  | strip
  | clip
  | keep
deriving DecidableEq, Repr

/-- The breaks of blank lines, the indentation of the block, and the place of its next line. When
    the indentation is not given, the longest line of spaces up to there decides, but a block has at
    least `least`. -/
def blankLines? (indent : Option Nat) (least : Nat) :
    Nat → (breaks : List Char) → (longest : Nat) → Cursor → Option (List Char × Nat × Cursor)
  | 0, _, _, _ => none
  | fuel + 1, breaks, longest, c =>
    let spaces := (c.rest.takeWhile (· = ' ')).length
    let c := c.skip (match indent with | some n => min spaces (n - c.column) | none => spaces)
    let longest := max longest c.column
    let inMargin := indent.all (c.column < ·)
    match c.rest with
    | a :: _ =>
      if inMargin && a = '\t' then none
      else if isBreak a then blankLines? indent least fuel (breaks ++ [a]) longest c.next
      else some (breaks, indent.getD (max longest least), c)
    | [] => some (breaks, indent.getD (max longest least), c)

/-- The lines of a block, from one that follows `breaks`. In a folded block the break before a line
    is folded unless one of its neighbours starts with a space. -/
def blockLines? (folded : Bool) (indent : Nat) (chomping : Chomping) : Nat → (read : List Char) →
    (lineBreak : Option Char) → (breaks : List Char) → (spaced : Bool) → Cursor →
    Option (String × Cursor)
  | 0, _, _, _, _, _ => none
  | fuel + 1, read, lineBreak, breaks, spaced, c =>
    if c.column = indent && !c.rest.isEmpty then
      let spacedNow := c.rest.head?.any isSpace
      let joint :=
        if folded && lineBreak = some '\n' && !spaced && !spacedNow then
          if breaks.isEmpty then [' '] else breaks
        else lineBreak.toList ++ breaks
      let (line, c) := c.span fun a => !isBreak a
      let read := line.reverse ++ joint.reverse ++ read
      match blankLines? (some indent) indent (c.rest.length + 2) [] 0 c.next with
      | none => none
      | some (breaks, _, next) =>
        blockLines? folded indent chomping fuel read c.rest.head? breaks spacedNow next
    else
      let kept :=
        match chomping with
        | .strip => []
        | .clip => lineBreak.toList
        | .keep => lineBreak.toList ++ breaks
      some (String.ofList (read.reverse ++ kept), c)

/-- A digit that gives the indentation of a block. -/
def indentDigit? (c : Cursor) : Option (Option Nat × Cursor) :=
  match c.rest with
  | a :: _ =>
    if a = '0' then none
    else if a.isDigit then some (some (a.toNat - '0'.toNat), c.next)
    else some (none, c)
  | [] => some (none, c)

def chomping? (c : Cursor) : Option Chomping × Cursor :=
  match c.rest with
  | '-' :: _ => (some .strip, c.next)
  | '+' :: _ => (some .keep, c.next)
  | _ => (none, c)

/-- A block, from after its indicator on. Its indentation counts from `column`, the column of the
    collection around it, which is left of the `margin`. -/
def block? (folded : Bool) (column margin : Nat) (c : Cursor) : Option (String × Cursor) := do
  let (before, c) := chomping? c
  let (digit, c) ← indentDigit? c
  let (chomping, c) := if before.isSome then (before, c) else chomping? c
  let c ← c.lineEnd?
  let fuel := c.rest.length + 2
  let (breaks, indent, c) ← blankLines? (digit.map (column + ·)) (max margin 1) fuel [] 0 c
  blockLines? folded indent (chomping.getD .clip) fuel [] none breaks false c

end Yaml
end DifferentialPrivacy
