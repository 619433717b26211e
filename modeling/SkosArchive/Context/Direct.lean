import SkosArchive.Context.Candidates
import SkosArchive.Store.Connection

namespace SkosArchive.Connection

/-- The graphs that declare `vocabulary` a vocabulary. -/
def declaringGraphs (c : Connection) (vocabulary : Iri) : Except Error (List Iri) := do
  let quads ← c.quads
    { subject := some vocabulary, predicate := some Names.type,
      object := some (.iri Names.vocabulary) }
  return quads.map Quad.graph

/-- The graph that `graph` says, within itself, to be derived from; the first
one counts. -/
def parentOf (c : Connection) (graph : Iri) : Except Error (Option Iri) := do
  let quads ← c.quads
    { graph := some graph, subject := some graph, predicate := some Names.derivedFrom }
  return quads.findSome? Quad.objectIri?

/-- The graph that holds `vocabulary`, by what is stored now. -/
def contextOf (c : Connection) (vocabulary : Iri) : Except Error Iri := do
  let candidates ← c.declaringGraphs vocabulary
  let choice ← Choice.among c.parentOf (c.store.rows.toList.length + 1) vocabulary candidates
  choice.toExcept vocabulary

/-- The first vocabulary that `context` declares, by what is stored now. -/
def vocabularyIn (c : Connection) (context : Iri) : Except Error (Option Iri) := do
  let quads ← c.quads
    { graph := some context, predicate := some Names.type,
      object := some (.iri Names.vocabulary) }
  return quads.head?.map Quad.subject

end SkosArchive.Connection
