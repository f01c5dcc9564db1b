import DifferentialPrivacy.Text.Json
import DifferentialPrivacy.Text.Toml.Basic

set_option autoImplicit false

/-!
Keys, strings, numbers and dates of the TOML format. Every reader takes a text and gives what stands
at its start, together with the rest.
-/

namespace DifferentialPrivacy

namespace Toml

/-- A reader of things at the start of a text. -/
abbrev Reader (α : Type) := List Char → Option (α × List Char)

def isSpace (c : Char) : Bool := c = ' ' || c = '\t'

def skipSpaces (cs : List Char) : List Char := cs.dropWhile isSpace

/-- The rest after a line break, if the text starts with one. -/
def newline? : List Char → Option (List Char)
  | '\n' :: rest => some rest
  | '\r' :: '\n' :: rest => some rest
  | _ => none

/-- What may stand in comments, and in strings but for their own quote and backslash. -/
def isPlain (c : Char) : Bool := c = '\t' || 0x20 ≤ c.toNat && c.toNat ≠ 0x7f

def skipComment : List Char → List Char
  | '#' :: rest => rest.dropWhile isPlain
  | cs => cs

/-- The rest after the end of a line, before which there may be spaces and a comment. -/
def lineEnd? (cs : List Char) : Option (List Char) :=
  match skipComment (skipSpaces cs) with
  | [] => some []
  | cs => newline? cs

/-! ### Strings -/

/-- The character of a number that ends an escape, written with `n` digits. -/
def numbered? (n : Nat) (cs : List Char) : Option (Char × List Char) := do
  let digits := cs.take n
  if digits.length = n then
    let code ← Json.hexNumber? digits
    if code.isValidChar then return (Char.ofNat code, cs.drop n) else none
  else none

/-- The character that an escape stands for, from after its backslash. -/
def escape? : Reader Char
  | 'b' :: rest => some ('\x08', rest)
  | 't' :: rest => some ('\t', rest)
  | 'n' :: rest => some ('\n', rest)
  | 'f' :: rest => some ('\x0c', rest)
  | 'r' :: rest => some ('\r', rest)
  | '"' :: rest => some ('"', rest)
  | '\\' :: rest => some ('\\', rest)
  | 'u' :: rest => numbered? 4 rest
  | 'U' :: rest => numbered? 8 rest
  | _ => none

def skipBlanks : List Char → List Char
  | '\r' :: '\n' :: rest => skipBlanks rest
  | c :: rest => if isSpace c || c = '\n' then skipBlanks rest else c :: rest
  | [] => []

/-- The rest of a string on one line, after its opening `quote`; only double quotes have escapes.
    The first argument is as long as the text. -/
def lineString? (quote : Char) (read : List Char) : Nat → Reader String
  | 0, _ => none
  | fuel + 1, cs =>
    match cs with
    | [] => none
    | c :: rest =>
      if c = quote then some (String.ofList read.reverse, rest)
      else if c = '\\' && quote = '"' then do
        let (c, rest) ← escape? rest
        lineString? quote (c :: read) fuel rest
      else if isPlain c then lineString? quote (c :: read) fuel rest
      else none

/-- The rest of a string on several lines. Three quotes end it, and one or two more that stand
    before them belong to it. Line breaks count as a line feed, and one that is escaped vanishes
    together with all blanks after it. -/
def blockString? (quote : Char) (read : List Char) : Nat → Reader String
  | 0, _ => none
  | fuel + 1, cs =>
    match cs with
    | [] => none
    | c :: rest =>
      if c = quote then
        let quotes := (cs.takeWhile (· = quote)).length
        let inside := if quotes < 3 then quotes else min (quotes - 3) 2
        let read := List.replicate inside quote ++ read
        if quotes < 3 then blockString? quote read fuel (cs.drop quotes)
        else some (String.ofList read.reverse, cs.drop (inside + 3))
      else if c = '\\' && quote = '"' then
        match newline? (skipSpaces rest) with
        | some rest => blockString? quote read fuel (skipBlanks rest)
        | none => do
          let (c, rest) ← escape? rest
          blockString? quote (c :: read) fuel rest
      else if isPlain c then blockString? quote (c :: read) fuel rest
      else do blockString? quote ('\n' :: read) fuel (← newline? cs)

/-- A string in the given quotes. A line break after three opening quotes does not count. -/
def quoted? (quote : Char) (cs : List Char) : Option (String × List Char) :=
  match cs with
  | a :: b :: c :: rest =>
    if a = quote && b = quote && c = quote then
      blockString? quote [] cs.length ((newline? rest).getD rest)
    else if a = quote then lineString? quote [] cs.length (b :: c :: rest)
    else none
  | a :: rest => if a = quote then lineString? quote [] cs.length rest else none
  | [] => none

def string? : Reader String
  | '"' :: rest => quoted? '"' ('"' :: rest)
  | '\'' :: rest => quoted? '\'' ('\'' :: rest)
  | _ => none

/-! ### Keys -/

def isKeyChar (c : Char) : Bool := c.isAlphanum || c = '_' || c = '-'

def simpleKey? (cs : List Char) : Option (String × List Char) :=
  match cs with
  | '"' :: rest => lineString? '"' [] cs.length rest
  | '\'' :: rest => lineString? '\'' [] cs.length rest
  | cs =>
    match cs.takeWhile isKeyChar with
    | [] => none
    | key => some (String.ofList key, cs.dropWhile isKeyChar)

/-- How deep values may nest, and how many keys a path may have, is less than this. -/
def depthLimit : Nat := 80

/-- Keys with dots between them, and spaces around each. -/
def keysWithin? : Nat → Reader (List String)
  | 0, _ => none
  | fuel + 1, cs => do
    let (key, rest) ← simpleKey? (skipSpaces cs)
    match skipSpaces rest with
    | '.' :: rest =>
      let (keys, rest) ← keysWithin? fuel rest
      return (key :: keys, rest)
    | rest => return ([key], rest)

def path? (cs : List Char) : Option ((List String × String) × List Char) := do
  let (keys, rest) ← keysWithin? (depthLimit - 1) cs
  return ((keys.dropLast, ← keys.getLast?), rest)

/-! ### Numbers and dates -/

/-- `n` decimal digits, as a number that is not below `low` and not above `high`. -/
def digits? (n low high : Nat) (cs : List Char) : Option (Nat × List Char) :=
  let digits := cs.take n
  let value := Decimal.ofDigits digits
  if digits.length = n && digits.all Char.isDigit && low ≤ value && value ≤ high then
    some (value, cs.drop n)
  else none

def daysIn (year month : Nat) : Nat :=
  if month = 2 then
    if year % 4 = 0 && (year % 100 ≠ 0 || year % 400 = 0) then 29 else 28
  else if month = 4 || month = 6 || month = 9 || month = 11 then 30
  else 31

def expect? (c : Char) : List Char → Option (List Char)
  | d :: rest => if d = c then some rest else none
  | [] => none

/-- What follows a day of the calendar. -/
def afterDay? (cs : List Char) : Option (List Char) := do
  let (year, rest) ← digits? 4 0 9999 cs
  let (month, rest) ← digits? 2 1 12 (← expect? '-' rest)
  let (_, rest) ← digits? 2 1 (daysIn year month) (← expect? '-' rest)
  return rest

/-- What follows a time of the day. Its last minute may have a leap second. -/
def afterTime? (cs : List Char) : Option (List Char) := do
  let (_, rest) ← digits? 2 0 23 cs
  let (_, rest) ← digits? 2 0 59 (← expect? ':' rest)
  let (_, rest) ← digits? 2 0 60 (← expect? ':' rest)
  match rest with
  | '.' :: c :: fraction => return if c.isDigit then fraction.dropWhile Char.isDigit else rest
  | _ => return rest

/-- What follows a distance from universal time, if one is there. -/
def afterOffset (cs : List Char) : List Char :=
  match cs with
  | 'Z' :: rest | 'z' :: rest => rest
  | '+' :: rest | '-' :: rest =>
    let offset? : Option (List Char) := do
      let (_, rest) ← digits? 2 0 23 rest
      let (_, rest) ← digits? 2 0 59 (← expect? ':' rest)
      return rest
    offset?.getD cs
  | _ => cs

/-- What follows a day, perhaps with a time, or a time alone. -/
def afterDate? (cs : List Char) : Option (List Char) :=
  match afterDay? cs with
  | none => afterTime? cs
  | some [] => some []
  | some (c :: rest) =>
    if c = 'T' || c = 't' || c = ' ' then
      match afterTime? rest with
      | some rest => some (afterOffset rest)
      | none => some (c :: rest)
    else some (c :: rest)

/-- Digits with single underscores between them. -/
def afterDigitsBy? (isDigit : Char → Bool) : List Char → Option (List Char)
  | c :: rest => if isDigit c then some (go rest) else none
  | [] => none
where
  go : List Char → List Char
    | '_' :: c :: rest => if isDigit c then go rest else '_' :: c :: rest
    | c :: rest => if isDigit c then go rest else c :: rest
    | [] => []

/-- A whole decimal number; only zero starts with a zero. -/
def afterWhole? (cs : List Char) : Option (List Char) :=
  match Decimal.skipSign cs with
  | '0' :: rest => some rest
  | cs => afterDigitsBy? Char.isDigit cs

def afterExponent? : List Char → Option (List Char)
  | c :: rest =>
    if c = 'e' || c = 'E' then afterDigitsBy? Char.isDigit (Decimal.skipSign rest) else none
  | [] => none

/-- A fraction, an exponent, or both. -/
def afterFloat? (cs : List Char) : Option (List Char) := do
  match ← afterWhole? cs with
  | '.' :: rest =>
    let rest ← afterDigitsBy? Char.isDigit rest
    if rest.head? = some 'e' || rest.head? = some 'E' then afterExponent? rest else return rest
  | rest => afterExponent? rest

/-- What was read of a text of which a rest is left, without underscores. -/
def digitsBefore (cs rest : List Char) : List Char :=
  (cs.take (cs.length - rest.length)).filter (· ≠ '_')

/-- A number may be too large for the binary format of 64 bits only if it is negative. -/
def float? (cs : List Char) : Option (Toml × List Char) :=
  match afterFloat? cs with
  | some rest =>
    let text := digitsBefore cs rest
    if text.head? ≠ some '-' && (Decimal.ofText text).overflows .binary64 then none
    else some (.number (String.ofList text), rest)
  | none =>
    match Decimal.skipSign cs with
    | 'i' :: 'n' :: 'f' :: rest | 'n' :: 'a' :: 'n' :: rest =>
      some (.number (String.ofList (digitsBefore cs rest)), rest)
    | _ => none

/-- Whole numbers fit the signed integers of 64 bits. -/
def integer? (cs : List Char) : Option (Toml × List Char) := do
  let radix (base : Nat) (isDigit : Char → Bool) (rest : List Char) : Option (List Char × Int) := do
    let after ← afterDigitsBy? isDigit rest
    let value := (digitsBefore rest after).foldl (fun v c => v * base + (Json.hexDigit? c).getD 0) 0
    return (after, value)
  let (rest, value) ← match cs with
    | '0' :: 'x' :: rest => radix 16 (fun c => (Json.hexDigit? c).isSome) rest
    | '0' :: 'o' :: rest => radix 8 (fun c => '0' ≤ c && c ≤ '7') rest
    | '0' :: 'b' :: rest => radix 2 (fun c => c = '0' || c = '1') rest
    | cs => do
      let rest ← afterWhole? cs
      pure (rest, Decimal.ofSignedDigits (digitsBefore cs rest))
  if -twoPow 63 ≤ value ∧ value < twoPow 63 then
    return (.number (String.ofList (digitsBefore cs rest)), rest)
  else none

/-- A date, a number or a truth value. -/
def word? (cs : List Char) : Option (Toml × List Char) :=
  match cs with
  | 't' :: 'r' :: 'u' :: 'e' :: rest => some (.bool true, rest)
  | 'f' :: 'a' :: 'l' :: 's' :: 'e' :: rest => some (.bool false, rest)
  | cs =>
    match afterDate? cs with
    | some rest => some (.date (String.ofList (cs.take (cs.length - rest.length))), rest)
    | none =>
      match afterFloat? cs with
      | some _ => float? cs
      | none => (integer? cs).or (float? cs)

end Toml
end DifferentialPrivacy
