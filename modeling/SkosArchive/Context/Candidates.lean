import SkosArchive.Error

namespace SkosArchive

/-- The outcome of choosing among the graphs that declare a vocabulary. -/
inductive Choice where
  | graph (graph : Iri)
  | ambiguous (candidates : IriSet)
deriving DecidableEq

namespace Choice

variable {m : Type → Type} [Monad m]

/-- Whether the chain of parents of a graph meets a candidate before it ends or
meets a graph again. At most `steps` parents are looked up. -/
def isDerived (parentOf : Iri → m (Option Iri)) (candidates : IriSet) :
    (steps : Nat) → (visited : List Iri) → Iri → m Bool
  | 0, _, _ => pure false
  | steps + 1, visited, g => do
    match ← parentOf g with
    | none => pure false
    | some parent =>
      if parent ∈ candidates then pure true
      else if parent ∈ visited then pure false
      else isDerived parentOf candidates steps (parent :: visited) parent

def underived (parentOf : Iri → m (Option Iri)) (candidates : IriSet) (steps : Nat) :
    List Iri → m (List Iri)
  | [] => pure []
  | g :: graphs => do
    let derived ← isDerived parentOf candidates steps [g] g
    let rest ← underived parentOf candidates steps graphs
    pure (if derived then rest else g :: rest)

/-- A vocabulary that no graph declares stands in the graph of its own name and
one that a single graph declares stands there. Among several graphs the choice
is the only one that is not derived from a candidate. `steps` has to exceed the
number of graphs that have a parent. -/
def among (parentOf : Iri → m (Option Iri)) (steps : Nat) (vocabulary : Iri)
    (candidates : List Iri) : m Choice :=
  let set : IriSet := Ascending.ofList candidates
  match set.toList with
  | [] => pure (.graph vocabulary)
  | [g] => pure (.graph g)
  | graphs => do
    match ← underived parentOf set steps graphs with
    | [g] => pure (.graph g)
    | _ => pure (.ambiguous set)

def toExcept (vocabulary : Iri) : Choice → Except Error Iri
  | .graph g => .ok g
  | .ambiguous candidates => .error (.ambiguousContext vocabulary candidates)

end Choice

end SkosArchive
