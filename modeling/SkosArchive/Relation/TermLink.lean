import SkosArchive.Rdf.Literal
import SkosArchive.Vocabulary.Catalogue

namespace SkosArchive

/-- A node of a link graph. -/
structure TermLink where
  source : Option Iri
  target : Option Iri
  active : Bool
deriving DecidableEq

namespace TermLink

/-- Of several statements about one position the last one counts; a source or
target that is no IRI is absent, an activity that is no truth value is false. -/
def describe (quads : List Quad) : TermLink where
  source := (Vocabulary.objectsOf quads Names.linkSource).getLast?.bind Term.iri?
  target := (Vocabulary.objectsOf quads Names.linkTarget).getLast?.bind Term.iri?
  active := ((Vocabulary.objectsOf quads Names.linkActive).getLast?.bind fun o =>
    o.literal?.bind Literal.bool?).getD false

/-- The nodes that `quads` describe, in ascending order of their names. -/
def ofQuads (quads : List Quad) : List TermLink :=
  let nodes : IriSet := Ascending.ofList (quads.map Quad.subject)
  nodes.toList.map fun node => describe (quads.filter fun q => q.subject = node)

/-- The end that lies outside `terms`, if the link is active and its other end
lies inside. -/
def outerEnd? (terms : List Iri) (link : TermLink) : Option Iri :=
  match link with
  | ⟨some source, some target, true⟩ =>
    if source ∈ terms ∧ target ∉ terms then some target
    else if source ∉ terms ∧ target ∈ terms then some source
    else none
  | _ => none

end TermLink

namespace Catalogue

def links (c : Catalogue) (linkGraph : Iri) : Except Error (List TermLink) := do
  let quads ← c.connection.quads { graph := some linkGraph }
  return TermLink.ofQuads quads

end Catalogue

end SkosArchive
