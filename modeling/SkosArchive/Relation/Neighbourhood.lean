import SkosArchive.Relation.Property
import SkosArchive.Vocabulary.Catalogue

namespace SkosArchive

/-- Where one step from a vocabulary leads: over the links of its terms, and
over its imports. -/
structure Neighbourhood where
  mapped : IriSet
  imports : IriSet
deriving DecidableEq

namespace Catalogue

/-- The resources that `term` links to within `context`. -/
def linkedFrom (c : Catalogue) (relations : RelationSet) (context term : Iri) :
    Except Error (List Iri) := do
  let quads ← c.connection.quads { graph := some context, subject := some term }
  return (quads.filter fun q => relations.follows q.predicate).filterMap Quad.objectIri?

/-- The owners of what the terms link to. -/
def mappedFrom (c : Catalogue) (relations : RelationSet) (context : Iri) :
    List VocabularyTerm → Except Error (List Iri)
  | [] => .ok []
  | term :: terms => do
    let targets ← c.linkedFrom relations context term.iri
    let owners ← c.connection.owners targets
    let rest ← c.mappedFrom relations context terms
    return owners ++ rest

/-- The neighbourhood of a vocabulary without a description is empty; where no
property is followed, terms are not read. Links within the vocabulary add
nothing. -/
def neighbourhood (c : Catalogue) (relations : RelationSet) (vocabulary : Iri) :
    Except Error Neighbourhood := do
  match ← c.find vocabulary with
  | none => return ⟨.empty, .empty⟩
  | some found =>
    if relations.isEmpty then return ⟨.empty, found.vocabulary.imports⟩
    let terms ← c.terms found
    let owners ← c.mappedFrom relations found.context terms
    let mapped := owners.filter fun o => o ≠ vocabulary
    return ⟨Ascending.ofList mapped, found.vocabulary.imports⟩

end Catalogue

end SkosArchive
