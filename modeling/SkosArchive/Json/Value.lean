import SkosArchive.Rdf.Iri

namespace SkosArchive

/-- A JSON value. A number is `mantissa / 10 ^ scale`, an integer if the scale
is zero; the members of an object keep their order. -/
inductive Json where
  | null
  | bool (value : Bool)
  | number (mantissa : Int) (scale : Nat)
  | string (text : String)
  | array (items : List Json)
  | object (members : List (String × Json))
deriving Inhabited

namespace Json

def integer (n : Int) : Json := .number n 0

def iri (i : Iri) : Json := .string i.text

def option {α : Type} (f : α → Json) : Option α → Json
  | none => .null
  | some a => f a

def list {α : Type} (f : α → Json) (l : List α) : Json := .array (l.map f)

def string? : Json → Option String
  | .string s => some s
  | _ => none

def bool? : Json → Option Bool
  | .bool b => some b
  | _ => none

def iri? (j : Json) : Option Iri := j.string?.map Iri.mk

/-- A natural number of 64 bits. -/
def word? : Json → Option UInt64
  | .number n 0 => if 0 ≤ n ∧ n < UInt64.size then some (UInt64.ofNat n.toNat) else none
  | _ => none

def option? {α : Type} (f : Json → Option α) : Json → Option (Option α)
  | .null => some none
  | j => (f j).map some

def list? {α : Type} (f : Json → Option α) : Json → Option (List α)
  | .array items => items.mapM f
  | _ => none

/-- The name of a constant: a string, or an object with that name alone and
the value null. -/
def constant? : Json → Option String
  | .string s => some s
  | .object [(name, .null)] => some name
  | _ => none

def member? (name : String) (members : List (String × Json)) : Option Json :=
  (members.find? fun m => m.1 = name).map (·.2)

/-- The fields of a record: the members of an object by name, or the items of
a list in the order of the names. Members of other names are passed over. -/
def fields? (names : List String) : Json → Option (List (Option Json))
  | .object members => some (names.map fun n => member? n members)
  | .array items => if items.length = names.length then some (items.map some) else none
  | _ => none

/-- The fields of a record in which each has a default, so that a list may
end early. -/
def settings? (names : List String) : Json → Option (List (Option Json))
  | .object members => some (names.map fun n => member? n members)
  | .array items =>
    if items.length ≤ names.length then
      some (items.map some ++ List.replicate (names.length - items.length) none)
    else none
  | _ => none

/-- The alternative that a value is of and the value without its tag: a member
of an object, or the first item of a list. -/
def tagged? (tag : String) : Json → Option (String × Json)
  | .object members => do
    let name ← (← member? tag members).string?
    some (name, .object (members.filter fun m => m.1 ≠ tag))
  | .array (.string name :: items) => some (name, .array items)
  | _ => none

def required {α : Type} (f : Json → Option α) (field : Option Json) : Option α := field.bind f

/-- An absent field counts as null. -/
def optional {α : Type} (f : Json → Option α) : Option Json → Option (Option α)
  | none => some none
  | some j => option? f j

def defaulted {α : Type} (value : α) (f : Json → Option α) : Option Json → Option α
  | none => some value
  | some j => f j

end Json

end SkosArchive
