import SkosArchive.Error
import SkosArchive.Rdf.Term

namespace SkosArchive

/-- A quad as it is stored. The kind says what the object is; an absent
language or datatype is the empty text. -/
structure Row where
  graph : Iri
  subject : Iri
  predicate : Iri
  object : String
  kind : String
  language : String
  datatype : String
deriving DecidableEq

namespace Row

def columns (r : Row) : List String :=
  [r.graph.text, r.subject.text, r.predicate.text, r.object, r.kind, r.language, r.datatype]

/-- The texts that the rows of an answer are ordered by. -/
def texts (r : Row) : List String := [r.graph.text, r.subject.text, r.predicate.text, r.object]

theorem columns_inj {r s : Row} (h : r.columns = s.columns) : r = s := by
  obtain ⟨⟨g⟩, ⟨u⟩, ⟨p⟩, o, k, l, d⟩ := r
  obtain ⟨⟨g'⟩, ⟨u'⟩, ⟨p'⟩, o', k', l', d'⟩ := s
  simp only [columns, List.cons.injEq, and_true] at h
  obtain ⟨rfl, rfl, rfl, rfl, rfl, rfl, rfl⟩ := h
  rfl

/-- Rows are ordered by graph, subject, predicate and object text, and then by
kind, language and datatype. -/
instance : TotalOrder Row where
  lt a b := List.Lex Text.Before a.columns b.columns
  decidableLT a b := List.decidableLex Text.Before a.columns b.columns
  lt_irrefl a := List.lex_irrefl Text.before_irrefl a.columns
  lt_trans := List.lex_trans Text.before_trans
  eq_of_not_lt h k :=
    columns_inj (List.lex_trichotomous (fun _ _ => Text.eq_of_not_before) k h)

/-- Puts `r` behind the rows of the same texts that came before it. -/
def settle (arrival : Row → Nat) (r : Row) : List Row → List Row
  | [] => [r]
  | b :: l =>
    if arrival b < arrival r ∧ b.texts = r.texts then b :: settle arrival r l else r :: b :: l

/-- Ascending rows, with those of the same texts in the order in which they came. -/
def arrange (arrival : Row → Nat) (l : List Row) : List Row := l.foldr (settle arrival) []

/-- The last four columns. -/
def objectColumns : Term → String × String × String × String
  | .iri i => (i.text, "iri", "", "")
  | .literal l => (l.value, "literal", l.language.getD "", (l.datatype.map Iri.text).getD "")

def ofQuad (q : Quad) : Row :=
  let (object, kind, language, datatype) := objectColumns q.object
  ⟨q.graph, q.subject, q.predicate, object, kind, language, datatype⟩

def absentIfEmpty (s : String) : Option String := if s = "" then none else some s

def toQuad (r : Row) : Except StorageError Quad :=
  if r.kind = "iri" then .ok ⟨r.subject, r.predicate, .iri ⟨r.object⟩, r.graph⟩
  else if r.kind = "literal" then
    .ok ⟨r.subject, r.predicate,
      .literal ⟨r.object, absentIfEmpty r.language, (absentIfEmpty r.datatype).map Iri.mk⟩, r.graph⟩
  else .error (.unknownKind r.kind r.subject)

end Row

end SkosArchive
