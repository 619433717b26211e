import SkosArchive.Store.Connection
import SkosArchive.Vocabulary.Basic

namespace SkosArchive

namespace Connection

/-- Whether any graph declares `vocabulary` a vocabulary. -/
def isDeclared (c : Connection) (vocabulary : Iri) : Except Error Bool :=
  c.holds { subject := some vocabulary, predicate := some Names.type,
            object := some (.iri Names.vocabulary) }

def hasType (c : Connection) (asset type : Iri) : Except Error Bool :=
  c.holds { subject := some asset, predicate := some Names.type, object := some (.iri type) }

/-- Whether `asset` has the type of a snapshot in any graph. -/
def isSnapshot (c : Connection) (asset : Iri) : Except Error Bool := do
  if ← c.hasType asset Names.vocabularySnapshot then return true
  c.hasType asset Names.termSnapshot

end Connection

namespace Vocabulary

def objectsOf (quads : List Quad) (predicate : Iri) : List Term :=
  (quads.filter fun q => q.predicate = predicate).map Quad.object

/-- The description that `quads` give of `iri`: the first glossary, the first
document, every import, and the last statement on the language. -/
def describe (iri : Iri) (quads : List Quad) : Vocabulary where
  iri := iri
  glossary := (objectsOf quads Names.hasGlossary).findSome? Term.iri?
  document := (objectsOf quads Names.describesDocument).findSome? Term.iri?
  imports := Ascending.ofList ((objectsOf quads Names.importsVocabulary).filterMap Term.iri?)
  language := (objectsOf quads Names.primaryLanguage).getLast?.bind fun o =>
    o.literal?.map Literal.value

end Vocabulary

namespace Connection

/-- The vocabulary as `context` describes it. -/
def vocabularyAt (c : Connection) (vocabulary context : Iri) :
    Except Error (Option Vocabulary) := do
  let quads ← c.quads { graph := some context, subject := some vocabulary }
  return if quads.isEmpty then none else some (Vocabulary.describe vocabulary quads)

/-- The terms in the vocabulary's glossary, within `context`. -/
def termsAt (c : Connection) (vocabulary : Vocabulary) (context : Iri) :
    Except Error (List VocabularyTerm) :=
  match vocabulary.glossary with
  | none => .ok []
  | some glossary => do
    let quads ← c.quads
      { graph := some context, predicate := some Names.inScheme, object := some (.iri glossary) }
    return quads.map fun q => ⟨q.subject, vocabulary.iri, glossary⟩

/-- The first vocabulary, over all graphs, that has `glossary` as its glossary. -/
def ownerOfGlossary (c : Connection) (glossary : Iri) : Except Error (Option Iri) := do
  let quads ← c.quads
    { predicate := some Names.hasGlossary, object := some (.iri glossary), limit := some 1 }
  return quads.head?.map Quad.subject

def firstOwner (c : Connection) : List Iri → Except Error (Option Iri)
  | [] => .ok none
  | glossary :: glossaries => do
    match ← c.ownerOfGlossary glossary with
    | some owner => return some owner
    | none => c.firstOwner glossaries

/-- The vocabulary that owns `term`, looked up over all graphs. -/
def vocabularyOfTerm (c : Connection) (term : Iri) : Except Error (Option Iri) := do
  let quads ← c.quads { subject := some term, predicate := some Names.inScheme }
  c.firstOwner (quads.filterMap Quad.objectIri?)

/-- The vocabularies that own one of the resources. -/
def owners (c : Connection) : List Iri → Except Error (List Iri)
  | [] => .ok []
  | resource :: resources => do
    let owner ← c.vocabularyOfTerm resource
    let rest ← c.owners resources
    return match owner with
      | some o => o :: rest
      | none => rest

end Connection

/-- The vocabularies of a store, each read from the graph that `contextOf`
gives. -/
structure Catalogue where
  connection : Connection
  contextOf : Iri → Except Error Iri

/-- A vocabulary and the graph it was read from. -/
structure Located where
  vocabulary : Vocabulary
  context : Iri
deriving DecidableEq

namespace Catalogue

def find (c : Catalogue) (vocabulary : Iri) : Except Error (Option Located) := do
  let context ← c.contextOf vocabulary
  let found ← c.connection.vocabularyAt vocabulary context
  return found.map fun v => ⟨v, context⟩

def terms (c : Catalogue) (found : Located) : Except Error (List VocabularyTerm) :=
  c.connection.termsAt found.vocabulary found.context

end Catalogue

end SkosArchive
