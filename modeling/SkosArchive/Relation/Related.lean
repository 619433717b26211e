import SkosArchive.Relation.Neighbourhood
import SkosArchive.Relation.Reachability
import SkosArchive.Relation.Strategy
import SkosArchive.Relation.TermLink

namespace SkosArchive.Catalogue

/-- The vocabulary and those one mapping hop away. -/
def skosRelated (c : Catalogue) (relations : RelationSet) (vocabulary : Iri) :
    Except Error IriSet := do
  let next ← c.neighbourhood relations vocabulary
  return next.mapped.insert vocabulary

/-- Mapping hops first, then imports, each in ascending order. -/
def neighbours (c : Catalogue) (relations : RelationSet) (vocabulary : Iri) :
    Except Error (List Iri) := do
  let next ← c.neighbourhood relations vocabulary
  return next.mapped.toList ++ next.imports.toList

/-- Every vocabulary that is reached over mapping links and imports. All but
the origin stand in the store as a subject or an object, so the search cannot
take more than two from each row. -/
def recursiveRelated (c : Catalogue) (relations : RelationSet) (vocabulary : Iri) :
    Except Error IriSet := do
  let fuel := 2 * c.connection.store.rows.toList.length + 1
  let reached ← Reachable.from? (c.neighbours relations) fuel vocabulary
  return Ascending.ofList reached

/-- The vocabulary and the owners of what active links join to its terms. -/
def linkRelated (c : Catalogue) (linkGraph vocabulary : Iri) : Except Error IriSet := do
  match ← c.find vocabulary with
  | none => return Ascending.ofList [vocabulary]
  | some found =>
    let terms := (← c.terms found).map VocabularyTerm.iri
    if terms.isEmpty then return Ascending.ofList [vocabulary]
    let links ← c.links linkGraph
    let owners ← c.connection.owners (links.filterMap (TermLink.outerEnd? terms))
    return Ascending.ofList (vocabulary :: owners)

/-- The vocabularies related to `vocabulary`, itself among them. Links of a
link graph carry no property, so `relations` does not bear on them. -/
def related (c : Catalogue) (resolver : Resolver) (relations : RelationSet) (vocabulary : Iri) :
    Except Error IriSet :=
  match resolver with
  | .skos => c.skosRelated relations vocabulary
  | .recursive => c.recursiveRelated relations vocabulary
  | .externalLink linkGraph => c.linkRelated linkGraph vocabulary

end SkosArchive.Catalogue
