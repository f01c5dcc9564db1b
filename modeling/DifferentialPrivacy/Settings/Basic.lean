import DifferentialPrivacy.Capability
import DifferentialPrivacy.Text.Blank
import DifferentialPrivacy.Text.Quoted

set_option autoImplicit false

/-!
Capabilities as users write them: single names, lists with commas, and the environment variable that
holds such a list.
-/

namespace DifferentialPrivacy

/-- The environment variable that capabilities are taken from. -/
def capabilitiesVariable : String := "VERIDP_CAPABILITIES"

/-- Why a set of capabilities is refused. -/
inductive SettingsFault
  | unknown (name : String)
  | notUnicode (bytes : List UInt8)
  /-- Nothing can be built without the contrib capability, so others by themselves are a mistake. -/
  | withoutContrib (c : Capability)
deriving DecidableEq, Repr

def SettingsFault.message (fault : SettingsFault) : String :=
  "invalid capability set: " ++
    match fault with
    | unknown name => "unknown capability `" ++ name ++ "`"
    | notUnicode bytes =>
      capabilitiesVariable ++ " is not valid unicode: environment variable was not valid unicode: "
        ++ Text.quoteBytes bytes
    | withoutContrib c => "`" ++ c.name ++ "` has no effect unless `contrib` is enabled"

/-- The capability with the given name, around which there may be blanks. -/
def Capability.parse (text : List Char) : Except SettingsFault Capability :=
  let name := String.ofList (Text.trim text)
  match ofName? name with
  | some c => .ok c
  | none => .error (.unknown name)

namespace Capabilities

/-- The capabilities in a list with commas, in which pieces may be empty. The first piece that is no
    name is the error. -/
def parseList (text : List Char) : Except SettingsFault Capabilities := do
  let names := (Text.pieces ',' text).filter fun piece => !(Text.trim piece).isEmpty
  return ofList (← names.mapM Capability.parse)

/-- The capabilities in an environment variable, none if it is not set. -/
def ofVariable : Option (List UInt8) → Except SettingsFault Capabilities
  | none => .ok empty
  | some bytes =>
    match Utf8.decode? bytes with
    | some text => parseList text
    | none => .error (.notUnicode bytes)

end Capabilities
end DifferentialPrivacy
