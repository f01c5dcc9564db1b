import DifferentialPrivacy.Descriptor.Basic
import DifferentialPrivacy.Text.Record

set_option autoImplicit false

/-!
Descriptors as documents, in both directions.
-/

namespace DifferentialPrivacy

namespace Atom

def all : List Atom :=
  [.bool, .num (.int .i8), .num (.int .i16), .num (.int .i32), .num (.int .i64),
    .num (.int .isize), .num (.int .u8), .num (.int .u16), .num (.int .u32), .num (.int .u64),
    .num (.int .usize), .num (.float .binary32), .num (.float .binary64), .string]

/-- The name of an atom in documents, in lower case throughout. -/
def tag : Atom → String
  | .bool => "bool"
  | .num t => t.name
  | .string => "string"

def ofTag? (s : String) : Option Atom := all.find? fun a => a.tag = s

def toJson (a : Atom) : Json := .string a.tag

def read? (r : Reading) : Option Atom := r.name?.bind ofTag?

end Atom

namespace DomainDescriptor

mutual

def toJson : DomainDescriptor → Json
  | all a => .tagged "All" a.toJson
  | bounded a => .tagged "Bounded" a.toJson
  | vector d => .tagged "Vector" d.toJson
  | sized d => .tagged "Sized" d.toJson
  | map k v => .tagged "Map" (some (.array [k.toJson, v.toJson]))
  | product ds => .tagged "Product" (some (.array (toJsonParts ds)))

def toJsonParts : List DomainDescriptor → List Json
  | [] => []
  | d :: ds => d.toJson :: toJsonParts ds

end

/-- Reads a domain, whose parts nest no deeper than the first argument. -/
def readWithin? : Nat → Reading → Option DomainDescriptor
  | 0, _ => none
  | fuel + 1, r => do
    let (kind, content) ← r.tagged?
    let content ← content
    match kind with
    | "All" => return .all (← Atom.read? content)
    | "Bounded" => return .bounded (← Atom.read? content)
    | "Vector" => return .vector (← readWithin? fuel content)
    | "Sized" => return .sized (← readWithin? fuel content)
    | "Map" =>
      match ← content.elements? with
      | [k, v] => return .map (← readWithin? fuel k) (← readWithin? fuel v)
      | _ => none
    | "Product" => return .product (← (← content.elements?).mapM (readWithin? fuel))
    | _ => none

/-- Every domain opens an object or an array, so the depth of the document bounds that of the
    domain. -/
def read? (r : Reading) : Option DomainDescriptor := readWithin? (r.depth + 1) r

end DomainDescriptor

/-- A kind as a document, with its atom as content. -/
def jsonOfParts (parts : String × Option Atom) : Json := .tagged parts.1 (parts.2.map Atom.toJson)

/-- A kind that is one of those listed, and has an atom exactly if they do. -/
def readParts? {α : Type} (plain : List α) (withAtom : List (Atom → α))
    (parts : α → String × Option Atom) (r : Reading) : Option α := do
  let (kind, content) ← r.tagged?
  match plain.find? fun x => (parts x).1 = kind with
  | some x =>
    match content with
    | none => return x
    | some content => if content.json matches .null then return x else none
  | none =>
    let a ← Atom.read? (← content)
    (withAtom.map (· a)).find? fun x => (parts x).1 = kind

namespace MetricDescriptor

def toJson (d : MetricDescriptor) : Json := jsonOfParts d.parts

def read? : Reading → Option MetricDescriptor :=
  readParts? [symmetric, insertDelete, changeOne, hamming, discrete] [absolute, l1, l2] parts

end MetricDescriptor

namespace MeasureDescriptor

def toJson (d : MeasureDescriptor) : Json := jsonOfParts d.parts

def read? : Reading → Option MeasureDescriptor :=
  readParts? []
    [maxDivergence, smoothedMaxDivergence, fixedSmoothedMaxDivergence, zeroConcentratedDivergence]
    parts

end MeasureDescriptor

namespace TransformationDescriptor

def fields : List String := ["input_domain", "output_domain", "input_metric", "output_metric"]

def toJson (d : TransformationDescriptor) : Json :=
  .object (fields.zip
    [d.inputDomain.toJson, d.outputDomain.toJson, d.inputMetric.toJson, d.outputMetric.toJson])

def read? (r : Reading) : Option TransformationDescriptor := do
  match ← r.record? fields with
  | [input, output, metric, metric'] =>
    return ⟨← DomainDescriptor.read? input, ← DomainDescriptor.read? output,
      ← MetricDescriptor.read? metric, ← MetricDescriptor.read? metric'⟩
  | _ => none

end TransformationDescriptor

namespace MeasurementDescriptor

def fields : List String := ["input_domain", "output_domain", "input_metric", "output_measure"]

def toJson (d : MeasurementDescriptor) : Json :=
  .object (fields.zip
    [d.inputDomain.toJson, d.outputDomain.toJson, d.inputMetric.toJson, d.outputMeasure.toJson])

def read? (r : Reading) : Option MeasurementDescriptor := do
  match ← r.record? fields with
  | [input, output, metric, measure] =>
    return ⟨← DomainDescriptor.read? input, ← DomainDescriptor.read? output,
      ← MetricDescriptor.read? metric, ← MeasureDescriptor.read? measure⟩
  | _ => none

end MeasurementDescriptor

end DifferentialPrivacy
