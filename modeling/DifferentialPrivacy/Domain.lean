import DifferentialPrivacy.Descriptor.Basic

set_option autoImplicit false

/-!
Domains: sets of admissible values. Main definitions: `Domain.contains`, membership;
`Domain.eq`, the equality that links in a chain are checked by; `Domain.text`, what messages show.
-/

namespace DifferentialPrivacy

/-- A closed interval of a numeric type; that its ends compare keeps not-a-number out. -/
structure Interval (t : NumType) where
  lower : t.Carrier
  upper : t.Carrier
  le : t.le lower upper = true

namespace Interval

variable {t : NumType}

def contains (i : Interval t) (x : t.Carrier) : Bool := t.le i.lower x && t.le x i.upper

def eq (i j : Interval t) : Bool := t.eq i.lower j.lower && t.eq i.upper j.upper

def text (i : Interval t) : String := "[" ++ t.text i.lower ++ ", " ++ t.text i.upper ++ "]"

end Interval

/-- The types of domains: how one is built, without the ends of its intervals, its sizes and the
    number of its parts. All parts of a product are of one type. -/
inductive DomainType
  | all (a : Atom)
  | bounded (t : NumType)
  | vector (element : DomainType)
  | sized (collection : DomainType)
  | map (key value : DomainType)
  | product (part : DomainType)
  | erased
deriving DecidableEq, Repr

/-- The type of the values that the domains of a type are made for. -/
def DomainType.carrier : DomainType → ValueType
  | all a => .atom a
  | bounded t => .atom (.num t)
  | vector d | product d => .list d.carrier
  | sized d => d.carrier
  | map k v => .map k.carrier v.carrier
  | erased => .erased

inductive Domain
  /-- Every value of an atom that is not null. -/
  | all (a : Atom)
  | bounded (t : NumType) (interval : Interval t)
  | vector (element : Domain)
  /-- The members of a collection domain that have exactly this size. -/
  | sized (collection : Domain) (size : Nat)
  | map (key value : Domain)
  /-- Lists with one element for each part, drawn from it. The parts are of the type given beside them,
      which a product of no parts has as well. -/
  | product (part : DomainType) (parts : List Domain)
  | erased (wrapped : Domain)

/-- The non-null values of an atom. -/
def Atom.contains : Atom → Value → Bool
  | .bool, .bool _ => true
  | .string, .string _ => true
  | .num t, .num s x => s = t && !s.isNull x
  | _, _ => false

/-- The members of an interval; a number of another type is none. -/
def Interval.containsValue {t : NumType} (i : Interval t) : Value → Bool
  | .num s x => if h : s = t then i.contains (h ▸ x) else false
  | _ => false

namespace Domain

abbrev vectorOf (a : Atom) : Domain := .vector (.all a)

def type : Domain → DomainType
  | all a => .all a
  | bounded t _ => .bounded t
  | vector d => .vector d.type
  | sized d _ => .sized d.type
  | map k v => .map k.type v.type
  | product part _ => .product part
  | erased _ => .erased

/-- The type of the members. -/
def valueType (d : Domain) : ValueType := d.type.carrier

mutual

def contains : Domain → Value → Bool
  | all a, v => a.contains v
  | bounded _ i, v => i.containsValue v
  | vector d, .list xs => xs.all fun x => d.contains x
  | sized d n, v => v.size? = some n && d.contains v
  | map k d, .map es => es.all fun e => k.contains e.1 && d.contains e.2
  | product _ ds, .list xs => containsEach ds xs
  | erased d, .erased t v => t = d.valueType && d.contains v
  | _, _ => false

def containsEach : List Domain → List Value → Bool
  | [], [] => true
  | d :: ds, x :: xs => d.contains x && containsEach ds xs
  | _, _ => false

end

mutual

/-- The form shown in messages. It names the atoms of unrestricted domains, but only the ends of
    intervals. -/
def text : Domain → String
  | all a => "AllDomain(" ++ a.display ++ ")"
  | bounded _ i => "BoundedDomain(" ++ i.text ++ ")"
  | vector d => "VectorDomain(" ++ d.text ++ ")"
  | sized d n => "SizedDomain(" ++ d.text ++ ", size=" ++ toString n ++ ")"
  | map k v => "MapDomain(" ++ k.text ++ " => " ++ v.text ++ ")"
  | product _ ds => "ProductDomain([" ++ textParts ds ++ "])"
  | erased d => "AnyDomain(" ++ d.text ++ ")"

def textParts : List Domain → String
  | [] => ""
  | [d] => d.text
  | d :: ds => d.text ++ ", " ++ textParts ds

end

mutual

/-- Equality of type and parameters. Interval ends are compared as numbers, and erased domains by
    their text alone. -/
def eq : Domain → Domain → Bool
  | all a, all b => a = b
  | bounded s i, bounded t j => if h : s = t then (h ▸ i).eq j else false
  | vector d, vector e => d.eq e
  | sized d m, sized e n => d.eq e && m = n
  | map k v, map l w => k.eq l && v.eq w
  | product s ds, product t es => s = t && eqParts ds es
  | erased d, erased e => d.text = e.text
  | _, _ => false

def eqParts : List Domain → List Domain → Bool
  | [], [] => true
  | d :: ds, e :: es => d.eq e && eqParts ds es
  | _, _ => false

end

mutual

/-- An erased domain is described as what it wraps. -/
def descriptor : Domain → DomainDescriptor
  | all a => .all a
  | bounded t _ => .bounded (.num t)
  | vector d => .vector d.descriptor
  | sized d _ => .sized d.descriptor
  | map k v => .map k.descriptor v.descriptor
  | product _ ds => .product (descriptors ds)
  | erased d => d.descriptor

def descriptors : List Domain → List DomainDescriptor
  | [] => []
  | d :: ds => d.descriptor :: descriptors ds

end

end Domain
end DifferentialPrivacy
