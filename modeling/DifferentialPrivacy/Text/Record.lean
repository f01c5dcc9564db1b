import DifferentialPrivacy.Text.Json

set_option autoImplicit false

/-!
How choices, tagged values and records are written as documents.

A choice without content is its name. A tagged value is an object with the name under `kind` and the
content, if it has any, under `of`; a record is an object with its fields. Members with other names
are ignored and no member that counts may be repeated. Both may also be written as arrays of their
parts in order. Documents are read down to a fixed depth.
-/

namespace DifferentialPrivacy

/-- Arrays and objects that may be open around a value that is read. -/
def Json.depthLimit : Nat := 127

/-- A document to be read: how deep it may still nest, and whether it was set aside before it was
    known what it holds. -/
structure Reading where
  depth : Nat
  deferred : Bool
  json : Json

namespace Reading

def ofText? (text : String) : Option Reading :=
  (Json.parse? text).map fun json => ⟨Json.depthLimit, false, json⟩

/-- A part of the document, one level further in. -/
def inner (r : Reading) (json : Json) : Reading := ⟨r.depth - 1, r.deferred, json⟩

def elements? (r : Reading) : Option (List Reading) :=
  match r.json with
  | .array xs => if r.depth = 0 then none else some (xs.map r.inner)
  | _ => none

def members? (r : Reading) : Option (List (String × Reading)) :=
  match r.json with
  | .object ms => if r.depth = 0 then none else some (ms.map fun m => (m.1, r.inner m.2))
  | _ => none

/-- Whether there is no content. What was set aside may say so by an empty object. -/
def isUnit (r : Reading) : Bool :=
  match r.json with
  | .null => true
  | .object [] => r.deferred
  | _ => false

/-- The name of a choice without content, which may be written out as the one member of an
    object. -/
def name? (r : Reading) : Option String :=
  match r.json with
  | .string s => some s
  | .object [(s, content)] =>
    if r.depth ≠ 0 ∧ (r.inner content).isUnit then some s else none
  | _ => none

/-- The name and the content of a tagged value. Content that comes before its name is set aside as a
    whole. -/
def tagged? (r : Reading) : Option (String × Option Reading) :=
  match r.json with
  | .array _ =>
    match r.elements? with
    | some [kind, content] => kind.name?.map fun k => (k, some content)
    | _ => none
  | _ => do
    let members ← r.members?
    match members.filter fun m => m.1 = "kind" || m.1 = "of" with
    | [("kind", kind)] => return (← kind.name?, none)
    | [("kind", kind), ("of", content)] => return (← kind.name?, some content)
    | [("of", content), ("kind", kind)] =>
      if content.json.fits content.depth then
        return (← kind.name?, some { content with deferred := true })
      else none
    | _ => none

/-- The content under a field that must be there once. -/
def field? (members : List (String × Reading)) (name : String) : Option Reading :=
  match members.filter fun m => m.1 = name with
  | [m] => some m.2
  | _ => none

/-- The fields of a record, all of which must be there. -/
def record? (r : Reading) (names : List String) : Option (List Reading) :=
  match r.json with
  | .array _ => do
    let elements ← r.elements?
    if elements.length = names.length then some elements else none
  | _ => do
    let members ← r.members?
    names.mapM (field? members)

end Reading

/-- A tagged value as a document. -/
def Json.tagged (kind : String) (content : Option Json) : Json :=
  match content with
  | none => .object [("kind", .string kind)]
  | some content => .object [("kind", .string kind), ("of", content)]

end DifferentialPrivacy
