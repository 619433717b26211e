import SkosArchive.Rdf.Iri

namespace SkosArchive

/-- A text with an optional language tag and an optional datatype. -/
structure Literal where
  value : String
  language : Option String
  datatype : Option Iri
deriving DecidableEq

inductive Term where
  | iri (iri : Iri)
  | literal (literal : Literal)
deriving DecidableEq

namespace Term

def iri? : Term → Option Iri
  | .iri i => some i
  | .literal _ => none

def literal? : Term → Option Literal
  | .iri _ => none
  | .literal l => some l

end Term

/-- A statement inside a named graph. -/
structure Quad where
  subject : Iri
  predicate : Iri
  object : Term
  graph : Iri
deriving DecidableEq

namespace Quad

def objectIri? (q : Quad) : Option Iri := q.object.iri?

def objectLiteral? (q : Quad) : Option Literal := q.object.literal?

end Quad

end SkosArchive
