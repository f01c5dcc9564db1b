set_option autoImplicit false

/-!
Configuration trees of the TOML format, and how statements build them up.

A table may be opened once by a header, and may only be added to afterwards in the way it came
about: `Toml.Origin` says which. `Toml.changeTable` walks a path of keys and keeps to these rules.
-/

namespace DifferentialPrivacy

inductive Toml.Origin
  /-- Written out in braces, and complete. -/
  | inline
  /-- Opened by a header of its own. -/
  | header
  /-- Named by a header further down only. -/
  | implied
  /-- Named by dotted keys. -/
  | dotted
deriving DecidableEq, Repr

/-- Nothing here computes with numbers and dates, so they are kept as written. -/
inductive Toml
  | string (s : String)
  | bool (b : Bool)
  | number (digits : String)
  | date (digits : String)
  | array (elements : List Toml)
  | table (origin : Toml.Origin) (members : List (String × Toml))
  /-- Tables under headers in double brackets. -/
  | tables (elements : List (List (String × Toml)))

namespace Toml

abbrev Members := List (String × Toml)

/-- Members with the one under a key replaced by its image, or added if there was none. -/
def changeMember (key : String) (f : Option Toml → Option Toml) : Members → Option Members
  | [] => (f none).map fun x => [(key, x)]
  | (k, x) :: ms =>
    if k = key then (f (some x)).map fun y => (k, y) :: ms
    else (changeMember key f ms).map ((k, x) :: ·)

/-- Adds a member under a key that is not taken. -/
def addMember (key : String) (x : Toml) : Members → Option Members :=
  changeMember key fun
    | none => some x
    | some _ => none

/-- Whether a path may lead through the table. Dotted keys do not extend what a header opened. -/
def Origin.admits : (table step : Origin) → Bool
  | inline, _ => false
  | header, dotted => false
  | _, _ => true

/-- Changes the table at the end of a path, where `step` says what the path is written in. Missing
    tables come about on the way; of tables under double brackets the last one is meant. -/
def changeTable (step : Origin) (f : Origin → Members → Option Members) :
    List String → Origin → Members → Option Members
  | [], origin, ms => f origin ms
  | key :: path, _, ms =>
    changeMember key (fun
      | none => (changeTable step f path step []).map (.table step)
      | some (.table origin inner) =>
        if origin.admits step then (changeTable step f path origin inner).map (.table origin)
        else none
      | some (.tables elements) => do
        let last ← elements.getLast?
        return .tables (elements.dropLast ++ [← changeTable step f path .header last])
      | some _ => none) ms

/-- Adds what a line `path.key = x` says to a table. Tables that the path names must have come about
    by dotted keys. -/
def assign (path : List String) (key : String) (x : Toml) : Origin → Members → Option Members :=
  changeTable .dotted (fun origin ms =>
    if path.isEmpty || origin = .dotted then addMember key x ms else none) path

/-- Opens a table, which may be there because of a header further down. -/
def openTable (path : List String) (key : String) : Members → Option Members :=
  changeTable .implied (fun _ =>
    changeMember key fun
      | none => some (.table .header [])
      | some (.table .implied ms) => some (.table .header ms)
      | some _ => none) path .header

/-- Opens a further table under a header in double brackets. -/
def openElement (path : List String) (key : String) : Members → Option Members :=
  changeTable .implied (fun _ =>
    changeMember key fun
      | none => some (.tables [[]])
      | some (.tables elements) => some (.tables (elements ++ [[]]))
      | some _ => none) path .header

/-- Adds what a line says to the table that `current` leads to. -/
def assignUnder (current path : List String) (key : String) (x : Toml) : Members → Option Members :=
  changeTable .implied (assign path key x) current .header

end Toml
end DifferentialPrivacy
