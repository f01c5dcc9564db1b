import DifferentialPrivacy.Number.Machine
import DifferentialPrivacy.Dataset.Sum
import DifferentialPrivacy.Dataset.Tally
import DifferentialPrivacy.Dataset.Clamp
import DifferentialPrivacy.Release.Noise
import DifferentialPrivacy.Release.RandomizedResponse
import DifferentialPrivacy.Release.ThresholdedCounts
import DifferentialPrivacy.Step
import DifferentialPrivacy.Descriptor.Codec
import DifferentialPrivacy.Settings.File
import DifferentialPrivacy.Proofs.Dataset.ClippedSum
import DifferentialPrivacy.Proofs.Metric.SymmetricDistance
import DifferentialPrivacy.Proofs.Dataset.Records
import DifferentialPrivacy.Proofs.Dataset.SumStability
import DifferentialPrivacy.Proofs.Random.Law
import DifferentialPrivacy.Proofs.Random.Outcome
import DifferentialPrivacy.Proofs.Release.Mechanism
import DifferentialPrivacy.Proofs.Accounting.MappedLoss
import DifferentialPrivacy.Proofs.Release.DiscreteNoise
import DifferentialPrivacy.Proofs.Release.ResponsePrivacy
import DifferentialPrivacy.Proofs.Number.DirectedBounds
import DifferentialPrivacy.Proofs.Release.DiscreteLoss
import DifferentialPrivacy.Proofs.Domain.Equality
import DifferentialPrivacy.Proofs.Pipeline.Chain
import DifferentialPrivacy.Proofs.Pipeline.Validity
import DifferentialPrivacy.Proofs.Pipeline.ChainedMap
import DifferentialPrivacy.Proofs.Pipeline.ChainedInvoke
import DifferentialPrivacy.Proofs.Accounting.ComposedRelease
import DifferentialPrivacy.Proofs.Number.ExactDifference
import DifferentialPrivacy.Proofs.Number.SumError
import DifferentialPrivacy.Proofs.Accounting.ComposedLoss
import DifferentialPrivacy.Proofs.Dataset.Tallies
import DifferentialPrivacy.Proofs.Dataset.CountStability
import DifferentialPrivacy.Proofs.Dataset.RoundedCounts
import DifferentialPrivacy.Proofs.Dataset.ClampStability
import DifferentialPrivacy.Proofs.Release.ConcentratedLoss
import DifferentialPrivacy.Proofs.Number.NumberLine
import DifferentialPrivacy.Proofs.Number.DirectedOrder
import DifferentialPrivacy.Proofs.Number.LeastBounds
import DifferentialPrivacy.Proofs.Number.HalfSquares
import DifferentialPrivacy.Proofs.Accounting.SamplingRate
import DifferentialPrivacy.Proofs.Pipeline.MonotoneMap
import DifferentialPrivacy.Proofs.Accounting.MonotoneLoss
import DifferentialPrivacy.Proofs.Pipeline.TotalPipeline
import DifferentialPrivacy.Proofs.Number.DifferenceError
import DifferentialPrivacy.Proofs.Release.ResponseLoss
import DifferentialPrivacy.Proofs.Number.ElementarySign
import DifferentialPrivacy.Proofs.Accounting.ReportedLoss
import DifferentialPrivacy.Proofs.Number.ShortestDecimal
import DifferentialPrivacy.Proofs.Number.DecimalText
import DifferentialPrivacy.Proofs.Domain.Equivalence
import DifferentialPrivacy.Proofs.Text.UniqueReading
import DifferentialPrivacy.Proofs.Domain.DomainText
import DifferentialPrivacy.Proofs.Domain.ErasedEquality
import DifferentialPrivacy.Proofs.Pipeline.ErasedOutput
import DifferentialPrivacy.Proofs.Pipeline.Bracketing
import DifferentialPrivacy.Proofs.Pipeline.CapabilityGate
import DifferentialPrivacy.Proofs.Text.JsonText
import DifferentialPrivacy.Proofs.Text.Rearrangement
import DifferentialPrivacy.Proofs.Descriptor.Damage
import DifferentialPrivacy.Proofs.Descriptor.RoundTrip
import DifferentialPrivacy.Proofs.Accounting.PinnedDelta
import DifferentialPrivacy.Proofs.Number.Midpoint
import DifferentialPrivacy.Proofs.Accounting.Bisection
import DifferentialPrivacy.Proofs.Number.ElementaryAccuracy
import DifferentialPrivacy.Proofs.Release.ResponseOdds
import DifferentialPrivacy.Proofs.Accounting.ConversionOverflow
import DifferentialPrivacy.Proofs.Accounting.LossCurve
import DifferentialPrivacy.Proofs.Number.RoundingError
import DifferentialPrivacy.Proofs.Accounting.SlopeSign
import DifferentialPrivacy.Proofs.Accounting.OptimalOrder
import DifferentialPrivacy.Proofs.Number.Reciprocal
import DifferentialPrivacy.Proofs.Accounting.ConversionError
import DifferentialPrivacy.Proofs.Accounting.MonotoneConversion
import DifferentialPrivacy.Proofs.Dataset.SumAgreement
import DifferentialPrivacy.Proofs.Dataset.RecordCounts
import DifferentialPrivacy.Proofs.Accounting.MonotoneAmplification
import DifferentialPrivacy.Proofs.Release.ThresholdTail
import DifferentialPrivacy.Proofs.Settings.CapabilityList
import DifferentialPrivacy.Proofs.Pipeline.ScaledDistance
import DifferentialPrivacy.Proofs.Number.ExponentialAccuracy
import DifferentialPrivacy.Proofs.Random.SuccessProbability
import DifferentialPrivacy.Proofs.Random.Repetition
import DifferentialPrivacy.Proofs.Number.NearestSquare
import DifferentialPrivacy.Proofs.Random.GeometricDraw
import DifferentialPrivacy.Proofs.Random.DiscreteLaplaceDraw
import DifferentialPrivacy.Proofs.Number.Widening
import DifferentialPrivacy.Proofs.Release.SilentNoise
import DifferentialPrivacy.Proofs.Release.LaplaceRange
import DifferentialPrivacy.Proofs.Random.GaussianBias
import DifferentialPrivacy.Proofs.Release.GaussianRejection
import DifferentialPrivacy.Proofs.Descriptor.DescriptorText
import DifferentialPrivacy.Proofs.Random.StreamPosition
import DifferentialPrivacy.Proofs.Random.WordMixing
import DifferentialPrivacy.Proofs.Release.LaplaceLoss
import DifferentialPrivacy.Proofs.Number.FloatLine
import DifferentialPrivacy.Proofs.Number.EncodedValue
import DifferentialPrivacy.Proofs.Number.Neighbours
