import DifferentialPrivacy.Number.Numeric

set_option autoImplicit false

/-!
The values that flow through transformations and measurements, and their types.
-/

namespace DifferentialPrivacy

inductive Atom
  | bool
  | num (t : NumType)
  | string
deriving DecidableEq, Repr

/-- The type that a value was given when it was erased. -/
inductive ValueType
  | atom (a : Atom)
  | list (element : ValueType)
  | map (key value : ValueType)
  | erased
deriving DecidableEq, Repr

def ValueType.name : ValueType → String
  | atom .bool => "bool"
  | atom (.num t) => t.name
  | atom .string => "alloc::string::String"
  | list t => "alloc::vec::Vec<" ++ t.name ++ ">"
  | map k v => "std::collections::hash::map::HashMap<" ++ k.name ++ ", " ++ v.name ++ ">"
  | erased => "any"

inductive Value
  | bool (b : Bool)
  | num (t : NumType) (x : t.Carrier)
  | string (s : String)
  | list (elements : List Value)
  /-- No key occurs twice. -/
  | map (entries : List (Value × Value))
  /-- A value together with the type it had before. -/
  | erased (type : ValueType) (value : Value)

namespace Value

def int {t : IntType} (n : Integer t) : Value := .num (.int t) n

def float {f : Format} (x : Binary f) : Value := .num (.float f) x

mutual

/-- Equality of values bit for bit: not-a-number is itself, and the two zeros differ. -/
def same : Value → Value → Bool
  | bool a, bool b => a = b
  | num s x, num t y => decide ((⟨s, x⟩ : Number) = ⟨t, y⟩)
  | string a, string b => a = b
  | list xs, list ys => sameList xs ys
  | map xs, map ys => sameEntries xs ys
  | erased s x, erased t y => s = t && same x y
  | _, _ => false

def sameList : List Value → List Value → Bool
  | [], [] => true
  | x :: xs, y :: ys => same x y && sameList xs ys
  | _, _ => false

def sameEntries : List (Value × Value) → List (Value × Value) → Bool
  | [], [] => true
  | (k, x) :: xs, (l, y) :: ys => same k l && same x y && sameEntries xs ys
  | _, _ => false

end

mutual

theorem same_iff : (x y : Value) → (same x y = true ↔ x = y)
  | bool a, y => by cases y <;> simp [same]
  | num s x, y => by
    cases y with
    | num t y =>
      simp only [same, decide_eq_true_eq, Number.mk.injEq]
      exact ⟨fun ⟨h, hx⟩ => by subst h; cases hx; rfl, fun h => by cases h; exact ⟨rfl, HEq.rfl⟩⟩
    | _ => simp [same]
  | string a, y => by cases y <;> simp [same]
  | list xs, y => by cases y <;> simp [same, sameList_iff xs]
  | map xs, y => by cases y <;> simp [same, sameEntries_iff xs]
  | erased s x, y => by cases y <;> simp [same, same_iff x]

theorem sameList_iff : (xs ys : List Value) → (sameList xs ys = true ↔ xs = ys)
  | [], ys => by cases ys <;> simp [sameList]
  | x :: xs, ys => by cases ys <;> simp [sameList, same_iff x, sameList_iff xs]

theorem sameEntries_iff : (xs ys : List (Value × Value)) → (sameEntries xs ys = true ↔ xs = ys)
  | [], ys => by cases ys <;> simp [sameEntries]
  | (k, x) :: xs, ys => by
    cases ys with
    | nil => simp [sameEntries]
    | cons y ys =>
      obtain ⟨l, y⟩ := y
      simp [sameEntries, same_iff k, same_iff x, sameEntries_iff xs, and_assoc]

end

instance : DecidableEq Value := fun x y => decidable_of_iff _ (same_iff x y)

def elements : Value → List Value
  | list xs => xs
  | map es => es.map Prod.snd
  | v => [v]

def size? : Value → Option Nat
  | list xs => some xs.length
  | map es => some es.length
  | _ => none

def lookup? (key : Value) : List (Value × Value) → Option Value
  | [] => none
  | (k, v) :: es => if k = key then some v else lookup? key es

/-- Entries with the value under `key` replaced by its image, or started if there is none. -/
def updateEntry (key : Value) (f : Option Value → Value) :
    List (Value × Value) → List (Value × Value)
  | [] => [(key, f none)]
  | (k, v) :: es => if k = key then (k, f (some v)) :: es else (k, v) :: updateEntry key f es

/-- The map with the given entries; the last value given for a key holds. -/
def mapOf (entries : List (Value × Value)) : Value :=
  .map (entries.foldl (fun es e => updateEntry e.1 (fun _ => e.2) es) [])

end Value
end DifferentialPrivacy
