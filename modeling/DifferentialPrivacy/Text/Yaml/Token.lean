set_option autoImplicit false

/-!
The tokens of the YAML format. Where indentation or a colon decides the structure, tokens that stand
for no text of their own mark it, so that a stream of tokens has the structure of a bracketed
language.
-/

namespace DifferentialPrivacy

namespace Yaml

inductive Token
  | version (major minor : Nat)
  /-- From here on `handle` at the start of a tag stands for `expansion`. -/
  | handle (handle : String) (expansion : List UInt8)
  | documentStart
  | documentEnd
  | blockSequenceStart
  | blockMappingStart
  /-- The end of a sequence or mapping in block style. -/
  | blockEnd
  | flowSequenceStart
  | flowSequenceEnd
  | flowMappingStart
  | flowMappingEnd
  | blockEntry
  | flowEntry
  | key
  | value
  | alias (name : String)
  | anchor (name : String)
  | tag (handle : String) (suffix : List UInt8)
  /-- `plain` is a scalar without quotes that is no block. -/
  | scalar (plain : Bool) (text : String)
deriving DecidableEq, Repr

end Yaml
end DifferentialPrivacy
