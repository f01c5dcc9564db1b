set_option autoImplicit false

/-!
Opt-in capabilities. Nothing consults global state: whoever builds a step passes the set of
capabilities, and `Capabilities.missing?` is asked before any other argument is looked at.
-/

namespace DifferentialPrivacy

inductive Capability
  /-- Steps whose proofs have not been vetted by others. -/
  | contrib
  /-- Mechanisms that sample continuous noise with machine floats. -/
  | floatingPoint
  /-- Steps whose guarantee rests on the caller's honesty. -/
  | honestButCurious
deriving DecidableEq, Repr

namespace Capability

def all : List Capability := [contrib, floatingPoint, honestButCurious]

theorem mem_all (c : Capability) : c ∈ all := by cases c <;> decide

def name : Capability → String
  | contrib => "contrib"
  | floatingPoint => "floating-point"
  | honestButCurious => "honest-but-curious"

/-- The identifier shown when a set of capabilities is printed for debugging. -/
def label : Capability → String
  | contrib => "Contrib"
  | floatingPoint => "FloatingPoint"
  | honestButCurious => "HonestButCurious"

/-- The capability that is spelled exactly so. -/
def ofName? (s : String) : Option Capability := all.find? fun c => c.name = s

theorem ofName?_name (c : Capability) : ofName? c.name = some c := by cases c <;> decide +kernel

end Capability

/-- A set of capabilities. -/
structure Capabilities where
  contrib : Bool
  floatingPoint : Bool
  honestButCurious : Bool
deriving DecidableEq, Repr

namespace Capabilities

def empty : Capabilities := ⟨false, false, false⟩

def all : Capabilities := ⟨true, true, true⟩

def contains (s : Capabilities) : Capability → Bool
  | .contrib => s.contrib
  | .floatingPoint => s.floatingPoint
  | .honestButCurious => s.honestButCurious

instance : Membership Capability Capabilities := ⟨fun s c => s.contains c = true⟩

instance (c : Capability) (s : Capabilities) : Decidable (c ∈ s) :=
  inferInstanceAs (Decidable (s.contains c = true))

/-- The set with the membership of one capability decided anew. -/
def set (s : Capabilities) (c : Capability) (enabled : Bool) : Capabilities :=
  match c with
  | .contrib => { s with contrib := enabled }
  | .floatingPoint => { s with floatingPoint := enabled }
  | .honestButCurious => { s with honestButCurious := enabled }

def insert (s : Capabilities) (c : Capability) : Capabilities := s.set c true

def erase (s : Capabilities) (c : Capability) : Capabilities := s.set c false

def ofList (cs : List Capability) : Capabilities := cs.foldl insert empty

/-- The members, in the order of `Capability.all`. -/
def toList (s : Capabilities) : List Capability := Capability.all.filter s.contains

/-- The first of the required capabilities that is not in the set. -/
def missing? (s : Capabilities) (required : List Capability) : Option Capability :=
  required.find? fun c => !s.contains c

/-- The form shown for debugging. -/
def text (s : Capabilities) : String :=
  "Capabilities \x7b enabled: \x7b" ++ ", ".intercalate (s.toList.map Capability.label)
    ++ "\x7d \x7d"

end Capabilities
end DifferentialPrivacy
