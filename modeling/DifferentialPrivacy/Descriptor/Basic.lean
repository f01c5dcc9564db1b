import DifferentialPrivacy.Value

set_option autoImplicit false

/-!
Descriptors: what a consumer outside the library sees of domains, metrics, measures and the steps
built from them. They can be printed, compared, and shipped as documents.
-/

namespace DifferentialPrivacy

/-- How an atom is printed inside a descriptor. -/
def Atom.display : Atom → String
  | .bool => "bool"
  | .num t => t.name
  | .string => "String"

inductive DomainDescriptor
  | all (a : Atom)
  | bounded (a : Atom)
  | vector (element : DomainDescriptor)
  | sized (collection : DomainDescriptor)
  | map (key value : DomainDescriptor)
  | product (parts : List DomainDescriptor)

inductive MetricDescriptor
  | symmetric
  | insertDelete
  | changeOne
  | hamming
  | discrete
  | absolute (a : Atom)
  | l1 (a : Atom)
  | l2 (a : Atom)
deriving DecidableEq, Repr

inductive MeasureDescriptor
  | maxDivergence (a : Atom)
  | smoothedMaxDivergence (a : Atom)
  | fixedSmoothedMaxDivergence (a : Atom)
  | zeroConcentratedDivergence (a : Atom)
deriving DecidableEq, Repr

structure TransformationDescriptor where
  inputDomain : DomainDescriptor
  outputDomain : DomainDescriptor
  inputMetric : MetricDescriptor
  outputMetric : MetricDescriptor

structure MeasurementDescriptor where
  inputDomain : DomainDescriptor
  outputDomain : DomainDescriptor
  inputMetric : MetricDescriptor
  outputMeasure : MeasureDescriptor

namespace DomainDescriptor

mutual

def display : DomainDescriptor → String
  | all a => "AllDomain<" ++ a.display ++ ">"
  | bounded a => "BoundedDomain<" ++ a.display ++ ">"
  | vector d => "VectorDomain<" ++ d.display ++ ">"
  | sized d => "SizedDomain<" ++ d.display ++ ">"
  | map k v => "MapDomain<" ++ k.display ++ ", " ++ v.display ++ ">"
  | product ds => "ProductDomain<" ++ displayParts ds ++ ">"

/-- The parts of a product, with a comma between neighbours. -/
def displayParts : List DomainDescriptor → String
  | [] => ""
  | [d] => d.display
  | d :: ds => d.display ++ ", " ++ displayParts ds

end

mutual

def same : DomainDescriptor → DomainDescriptor → Bool
  | all a, all b => a = b
  | bounded a, bounded b => a = b
  | vector d, vector e => same d e
  | sized d, sized e => same d e
  | map k v, map l w => same k l && same v w
  | product ds, product es => sameParts ds es
  | _, _ => false

def sameParts : List DomainDescriptor → List DomainDescriptor → Bool
  | [], [] => true
  | d :: ds, e :: es => same d e && sameParts ds es
  | _, _ => false

end

mutual

theorem same_iff : (d e : DomainDescriptor) → (same d e = true ↔ d = e)
  | all a, e => by cases e <;> simp [same]
  | bounded a, e => by cases e <;> simp [same]
  | vector d, e => by cases e <;> simp [same, same_iff d]
  | sized d, e => by cases e <;> simp [same, same_iff d]
  | map k v, e => by cases e <;> simp [same, same_iff k, same_iff v]
  | product ds, e => by cases e <;> simp [same, sameParts_iff ds]

theorem sameParts_iff : (ds es : List DomainDescriptor) → (sameParts ds es = true ↔ ds = es)
  | [], es => by cases es <;> simp [sameParts]
  | d :: ds, es => by cases es <;> simp [sameParts, same_iff d, sameParts_iff ds]

end

instance : DecidableEq DomainDescriptor := fun d e => decidable_of_iff _ (same_iff d e)

end DomainDescriptor

/-- The parts of a descriptor that is a name, perhaps with one atom: its kind and that atom. -/
def MetricDescriptor.parts : MetricDescriptor → String × Option Atom
  | symmetric => ("SymmetricDistance", none)
  | insertDelete => ("InsertDeleteDistance", none)
  | changeOne => ("ChangeOneDistance", none)
  | hamming => ("HammingDistance", none)
  | discrete => ("DiscreteDistance", none)
  | absolute a => ("AbsoluteDistance", some a)
  | l1 a => ("L1Distance", some a)
  | l2 a => ("L2Distance", some a)

@[inherit_doc MetricDescriptor.parts]
def MeasureDescriptor.parts : MeasureDescriptor → String × Option Atom
  | maxDivergence a => ("MaxDivergence", some a)
  | smoothedMaxDivergence a => ("SmoothedMaxDivergence", some a)
  | fixedSmoothedMaxDivergence a => ("FixedSmoothedMaxDivergence", some a)
  | zeroConcentratedDivergence a => ("ZeroConcentratedDivergence", some a)

/-- A kind, and the atom it is over in round brackets. -/
def displayKind : String × Option Atom → String
  | (kind, none) => kind
  | (kind, some a) => kind ++ "(" ++ a.display ++ ")"

def MetricDescriptor.display (d : MetricDescriptor) : String := displayKind d.parts

def MeasureDescriptor.display (d : MeasureDescriptor) : String := displayKind d.parts

/-- Domains and then distances, each from input to output. -/
def displayStep (what inputDomain outputDomain inputMetric output : String) : String :=
  what ++ "(" ++ inputDomain ++ " -> " ++ outputDomain ++ ", " ++ inputMetric ++ " -> " ++ output
    ++ ")"

def TransformationDescriptor.display (d : TransformationDescriptor) : String :=
  displayStep "Transformation" d.inputDomain.display d.outputDomain.display d.inputMetric.display
    d.outputMetric.display

def MeasurementDescriptor.display (d : MeasurementDescriptor) : String :=
  displayStep "Measurement" d.inputDomain.display d.outputDomain.display d.inputMetric.display
    d.outputMeasure.display

end DifferentialPrivacy
