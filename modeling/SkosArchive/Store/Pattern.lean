import SkosArchive.Store.Row

namespace SkosArchive

/-- What a query asks for. An absent position may hold anything; the limit
bounds the number of answers. -/
structure Pattern where
  graph : Option Iri := none
  subject : Option Iri := none
  predicate : Option Iri := none
  object : Option Term := none
  limit : Option Nat := none
deriving DecidableEq

namespace Pattern

def covers (p : Pattern) (r : Row) : Bool :=
  p.graph.all (· = r.graph) && p.subject.all (· = r.subject) &&
    p.predicate.all (· = r.predicate) &&
    p.object.all fun o => Row.objectColumns o = (r.object, r.kind, r.language, r.datatype)

/-- Whether rows of the same texts are found in the order in which they came,
which is so where they are looked up by subject or predicate over all graphs. An
object that is given leaves no two rows of the same texts. -/
def byArrival (p : Pattern) : Bool :=
  p.graph.isNone && p.object.isNone && (p.subject.isSome || p.predicate.isSome)

end Pattern

end SkosArchive
