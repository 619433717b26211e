import SkosArchive.Context.Direct

namespace SkosArchive

/-- That a graph declares a vocabulary. -/
structure Declaration where
  graph : Iri
  vocabulary : Iri
deriving DecidableEq

/-- That a graph says, within itself, to be derived from another. -/
structure Derivation where
  graph : Iri
  parent : Iri
deriving DecidableEq

namespace Derivation

def ofQuad? (q : Quad) : Option Derivation :=
  if q.subject = q.graph then q.objectIri?.map fun parent => ⟨q.graph, parent⟩ else none

end Derivation

/-- All declarations and derivations that were stored at one time. -/
structure ContextIndex where
  declarations : List Declaration
  derivations : List Derivation
deriving DecidableEq

namespace ContextIndex

/-- Two scans of the whole store. -/
def build (c : Connection) : Except StorageError ContextIndex := do
  let declarations ← c.find
    { predicate := some Names.type, object := some (.iri Names.vocabulary) }
  let derivations ← c.find { predicate := some Names.derivedFrom }
  return { declarations := declarations.map fun q => ⟨q.graph, q.subject⟩
           derivations := derivations.filterMap Derivation.ofQuad? }

def vocabularies (index : ContextIndex) : IriSet :=
  Ascending.ofList (index.declarations.map Declaration.vocabulary)

def contextsOf (index : ContextIndex) (vocabulary : Iri) : List Iri :=
  (index.declarations.filter fun d => d.vocabulary = vocabulary).map Declaration.graph

def vocabularyIn (index : ContextIndex) (context : Iri) : Option Iri :=
  (index.declarations.find? fun d => d.graph = context).map Declaration.vocabulary

def parentOf (index : ContextIndex) (graph : Iri) : Option Iri :=
  (index.derivations.find? fun d => d.graph = graph).map Derivation.parent

def contextOf (index : ContextIndex) (vocabulary : Iri) : Except Error Iri :=
  Choice.toExcept vocabulary <| Id.run <|
    Choice.among (fun g => pure (index.parentOf g)) (index.derivations.length + 1) vocabulary
      (index.contextsOf vocabulary)

end ContextIndex

/-- Answers from the index of the last successful load, and from the store
until there is one. -/
structure ContextCache where
  index : Option ContextIndex
deriving DecidableEq

namespace ContextCache

def empty : ContextCache := ⟨none⟩

def load (c : Connection) : Except Error ContextCache :=
  match ContextIndex.build c with
  | .ok index => .ok ⟨some index⟩
  | .error e => .error (.persistence e)

/-- The cache after a load and how the load ended; a failed one changes
nothing. -/
def reload (cache : ContextCache) (c : Connection) : Except Error Unit × ContextCache :=
  match load c with
  | .ok loaded => (.ok (), loaded)
  | .error e => (.error e, cache)

def isLoaded (cache : ContextCache) : Bool := cache.index.isSome

def contextOf (cache : ContextCache) (c : Connection) (vocabulary : Iri) : Except Error Iri :=
  match cache.index with
  | some index => index.contextOf vocabulary
  | none => c.contextOf vocabulary

def vocabularyIn (cache : ContextCache) (c : Connection) (context : Iri) :
    Except Error (Option Iri) :=
  match cache.index with
  | some index => .ok (index.vocabularyIn context)
  | none => c.vocabularyIn context

end ContextCache

end SkosArchive
