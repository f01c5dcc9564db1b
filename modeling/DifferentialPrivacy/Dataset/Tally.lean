import DifferentialPrivacy.Pipeline.Transformation

set_option autoImplicit false

/-!
Counts of records. A count that the output type cannot hold becomes the largest value of that type.
-/

namespace DifferentialPrivacy

def NumType.ofCount (t : NumType) (n : Nat) : t.Carrier := (t.ofInt? n).getD t.max

/-- How often each record occurs, in the order of first occurrences. -/
def tallies (records : List Value) : List (Value × Nat) :=
  records.foldl add []
where
  add (counts : List (Value × Nat)) (record : Value) : List (Value × Nat) :=
    match counts with
    | [] => [(record, 1)]
    | (key, n) :: rest =>
      if key = record then (key, n + 1) :: rest else (key, n) :: add rest record

namespace Transformation

def count (caps : Capabilities) (record : Atom) (output : NumType) :
    Result (Transformation .symmetric (.absolute output)) := do
  caps.require [.contrib]
  return {
    inputDomain := .vectorOf record
    outputDomain := .all (.num output)
    function := fun v => .ok (.num output (output.ofCount (v.size?.getD 0)))
    stabilityMap := scaleBy .symmetric (.absolute output) output.one }

/-- The number of occurrences of each distinct record. One record more or less moves one count by at
    most one. It is meant for records that can be hashed, which floats cannot; equal records are those
    that are equal bit for bit. -/
def countBy (caps : Capabilities) (key : Atom) (output : NumType) :
    Result (Transformation .symmetric (.l1 output)) := do
  caps.require [.contrib]
  return {
    inputDomain := .vectorOf key
    outputDomain := .map (.all key) (.all (.num output))
    function := fun v =>
      .ok (.map ((tallies v.elements).map fun e => (e.1, .num output (output.ofCount e.2))))
    stabilityMap := scaleBy .symmetric (.l1 output) output.one }

end Transformation
end DifferentialPrivacy
