import DifferentialPrivacy.Capability
import DifferentialPrivacy.Text.Record
import DifferentialPrivacy.Text.Toml.Document
import DifferentialPrivacy.Text.Yaml.Node

set_option autoImplicit false

/-!
Capabilities in documents. They are a record with one optional field `enabled`, a list of names, and
a settings file is a record with a field `capabilities` that holds them. Further fields are ignored,
and a field that counts must not come twice. With braces or tables the record of capabilities may
also be written as a list of its fields, with indentation it may not.
-/

namespace DifferentialPrivacy

/-- The value under a field, and nothing for one that is missing; a field given twice is no
    record. -/
def uniqueField? {α : Type} (name : String) (members : List (String × α)) : Option (Option α) :=
  match members.filter fun m => m.1 = name with
  | [] => some none
  | [m] => some (some m.2)
  | _ => none

/-! ### Notation with braces -/

def Capability.read? (r : Reading) : Option Capability := r.name?.bind ofName?

namespace Capabilities

def readNames? (r : Reading) : Option Capabilities := do
  return ofList (← (← r.elements?).mapM Capability.read?)

def read? (r : Reading) : Option Capabilities :=
  match r.json with
  | .array _ => do
    match ← r.elements? with
    | [] => return empty
    | [names] => readNames? names
    | _ => none
  | _ => do
    match ← uniqueField? "enabled" (← r.members?) with
    | none => return empty
    | some names => readNames? names

def toJson (s : Capabilities) : Json :=
  .object [("enabled", .array (s.toList.map fun c => .string c.name))]

end Capabilities

/-! ### Settings files with tables -/

namespace Toml

/-- The elements of an array, also of one that is made of tables under headers. -/
def sequence? : Toml → Option (List Toml)
  | array xs => some xs
  | tables xs => some (xs.map (.table .header))
  | _ => none

/-- A name, which may also be the only key of a table with nothing under it. -/
def name? : Toml → Option String
  | string s => some s
  | table _ [(key, x)] =>
    match x with
    | array [] | tables [] | table _ [] => some key
    | _ => none
  | _ => none

def names? (x : Toml) : Option Capabilities := do
  return .ofList (← (← x.sequence?).mapM fun x => x.name?.bind Capability.ofName?)

/-- A date counts as a record without any known field. -/
def capabilities? : Toml → Option Capabilities
  | date _ => some .empty
  | table _ ms =>
    match ms.lookup "enabled" with
    | none => some .empty
    | some x => x.names?
  | x => do
    match ← x.sequence? with
    | [] => return .empty
    | x :: _ => x.names?

/-- The capabilities in the text of a settings file. -/
def settings? (text : List Char) : Option Capabilities := do
  (← (← parse? text).lookup "capabilities").capabilities?

end Toml

/-! ### Settings files with indentation -/

namespace Yaml.Document

/-- A scalar without quotes that is empty stands for any collection. -/
def isBlank : Yaml → Bool
  | .scalar _ plain text => plain && text = ""
  | _ => false

/-- What follows the exclamation mark of a tag, if that is a text. -/
def tagName? : List UInt8 → Option String
  | b :: bytes => if b = bang then (Utf8.decode? bytes).map String.ofList else none
  | [] => none

/-- A name, which may also be a tag on an empty scalar or a null. -/
def name? (d : Document) (x : Yaml) : Option String :=
  match d.resolve x with
  | .scalar tag plain text =>
    match tag.bind tagName? with
    | some name =>
      if plain && ["", "~", "null", "Null", "NULL"].contains text then some name else none
    | none => some text
  | _ => none

def names? (d : Document) (x : Yaml) : Option Capabilities :=
  match d.resolve x with
  | .sequence _ xs => do return .ofList (← xs.mapM fun x => (d.name? x).bind Capability.ofName?)
  | x => if isBlank x then some .empty else none

/-- The fields of a record. Its keys must be scalars. -/
def members? (d : Document) (entries : List (Yaml × Yaml)) : Option (List (String × Yaml)) :=
  entries.mapM fun (key, x) =>
    match d.resolve key with
    | .scalar _ _ text => some (text, x)
    | _ => none

def capabilities? (d : Document) (x : Yaml) : Option Capabilities :=
  match d.resolve x with
  | .mapping _ entries => do
    match ← uniqueField? "enabled" (← d.members? entries) with
    | none => return .empty
    | some x => d.names? x
  | x => if isBlank x then some .empty else none

/-- The capabilities in the text of a settings file. -/
def settings? (text : List Char) : Option Capabilities := do
  let d ← Document.ofText? text
  match d.root with
  | .mapping _ entries => d.capabilities? (← ← uniqueField? "capabilities" (← d.members? entries))
  | _ => none

end Yaml.Document
end DifferentialPrivacy
