import DifferentialPrivacy.Settings.Basic
import DifferentialPrivacy.Settings.Document

set_option autoImplicit false

/-!
Settings files: which format a file is in, what it enables, and what can be wrong with it.
-/

namespace DifferentialPrivacy

inductive SettingsFormat
  | toml
  | yaml
deriving DecidableEq, Repr

/-- What follows the last dot of a file's name, unless nothing comes before that dot. -/
def extension? (name : String) : Option String :=
  let reversed := name.toList.reverse
  let extension := (reversed.takeWhile (· ≠ '.')).reverse
  if extension.length + 1 < reversed.length then some (String.ofList extension) else none

/-- The format that goes with a file's name. -/
def SettingsFormat.ofName (name : String) : SettingsFormat :=
  if extension? name = some "yaml" || extension? name = some "yml" then yaml else toml

/-- What is found under a file's name. -/
inductive FileState
  | missing
  | directory
  | bytes (content : List UInt8)

inductive ReadFault
  | missing
  | directory
  | notUnicode
deriving DecidableEq, Repr

def ReadFault.message : ReadFault → String
  | missing => "No such file or directory (os error 2)"
  | directory => "Is a directory (os error 21)"
  | notUnicode => "stream did not contain valid UTF-8"

inductive SettingsError
  | unreadable (name : String) (fault : ReadFault)
  | malformed (format : SettingsFormat)
  | invalid (fault : SettingsFault)
deriving DecidableEq, Repr

def SettingsError.message : SettingsError → String
  | unreadable name fault => "cannot read " ++ name ++ ": " ++ fault.message
  | malformed .toml => "malformed Toml capability file"
  | malformed .yaml => "malformed Yaml capability file"
  | invalid fault => fault.message

namespace FileState

def text : FileState → Except ReadFault (List Char)
  | missing => .error .missing
  | directory => .error .directory
  | bytes content =>
    match Utf8.decode? content with
    | some text => .ok text
    | none => .error .notUnicode

end FileState

namespace Capabilities

/-- Refuses capabilities that have no effect. -/
def validate (s : Capabilities) : Except SettingsFault Unit :=
  if s.contrib then .ok ()
  else
    match s.toList with
    | [] => .ok ()
    | c :: _ => .error (.withoutContrib c)

def ofSettings? : SettingsFormat → List Char → Option Capabilities
  | .toml, text => Toml.settings? text
  | .yaml, text => Yaml.Document.settings? text

/-- The capabilities that a settings file enables, in the given format or in the one that goes with
    its name. -/
def ofFile (name : String) (format : Option SettingsFormat) (state : FileState) :
    Except SettingsError Capabilities := do
  let format := format.getD (.ofName name)
  let text ← state.text.mapError (.unreadable name)
  match ofSettings? format text with
  | none => throw (.malformed format)
  | some s =>
    s.validate.mapError .invalid
    return s

end Capabilities
end DifferentialPrivacy
