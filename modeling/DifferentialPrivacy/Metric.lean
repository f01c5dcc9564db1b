import DifferentialPrivacy.Descriptor.Basic

set_option autoImplicit false

/-!
Metrics: distances between the inputs of a step. Two metrics of one kind never differ, so a metric
is an index of the steps that use it, and a chain of steps fits or is not written at all.
-/

namespace DifferentialPrivacy

/-- Distances between whole datasets, in numbers of records. -/
inductive DatasetMetric
  /-- The size of the symmetric difference of multisets. -/
  | symmetric
  /-- Edit distance with insertions and deletions only. -/
  | insertDelete
  /-- The number of records changed, for datasets of equal size. -/
  | changeOne
  /-- The number of positions that differ. -/
  | hamming
  /-- Zero when equal, one otherwise. -/
  | discrete
deriving DecidableEq, Repr

inductive Metric
  | dataset (m : DatasetMetric)
  /-- `|x - y|` between scalars. -/
  | absolute (t : NumType)
  /-- The sum of the absolute differences between vectors or maps. -/
  | l1 (t : NumType)
  /-- Euclidean distance between vectors. -/
  | l2 (t : NumType)
deriving DecidableEq, Repr

namespace Metric

abbrev symmetric : Metric := dataset .symmetric

abbrev discrete : Metric := dataset .discrete

/-- Distances between datasets are counts of records. -/
abbrev distanceType : Metric → NumType
  | dataset _ => .int .u32
  | absolute t | l1 t | l2 t => t

abbrev Distance (m : Metric) : Type := m.distanceType.Carrier

def descriptor : Metric → MetricDescriptor
  | dataset .symmetric => .symmetric
  | dataset .insertDelete => .insertDelete
  | dataset .changeOne => .changeOne
  | dataset .hamming => .hamming
  | dataset .discrete => .discrete
  | absolute t => .absolute (.num t)
  | l1 t => .l1 (.num t)
  | l2 t => .l2 (.num t)

end Metric
end DifferentialPrivacy
