import SkosArchive.Store.Pattern

namespace SkosArchive

/-- A change to the store. -/
inductive Update where
  | insert (quads : List Quad)
  | delete (pattern : Pattern)
  | dropGraph (graph : Iri)
deriving DecidableEq

/-- The stored rows. A graph exists as long as it holds a row. Nothing can be
inserted into a graph whose name begins with one of the texts in `sealed`. -/
structure Store where
  rows : Ascending Row
  sealed : List String
deriving DecidableEq

namespace Store

def empty : Store := ⟨.empty, []⟩

/-- The largest limit that a query can carry. -/
def maxLimit : Nat := 9223372036854775807

def select (s : Store) (p : Pattern) : List Row := s.rows.toList.filter p.covers

/-- The rows that a pattern covers, by their texts. Those of the same texts stand
in the order in which they came or else ascend, as the pattern has it. -/
def answer (s : Store) (arrival : Row → Nat) (p : Pattern) : List Row :=
  if p.byArrival then Row.arrange arrival (s.select p) else s.select p

/-- The quads of an answer, up to the limit. -/
def find (s : Store) (arrival : Row → Nat) (p : Pattern) : Except StorageError (List Quad) :=
  match p.limit with
  | none => (s.answer arrival p).mapM Row.toQuad
  | some n =>
    if n ≤ maxLimit then ((s.answer arrival p).take n).mapM Row.toQuad
    else .error .limitTooLarge

def ask (s : Store) (p : Pattern) : Bool := s.rows.toList.any p.covers

def graphs (s : Store) : IriSet := Ascending.ofList (s.rows.toList.map Row.graph)

def isSealed (s : Store) (graph : Iri) : Bool :=
  s.sealed.any fun t => t.toList.isPrefixOf graph.text.toList

def put (s : Store) (r : Row) : Store := { s with rows := s.rows.insert r }

def insert (s : Store) : List Quad → Except StorageError Store
  | [] => .ok s
  | q :: quads =>
    if s.isSealed q.graph then .error .graphProtected
    else (s.put (.ofQuad q)).insert quads

def delete (s : Store) (p : Pattern) : Store :=
  { s with rows := s.rows.filter fun r => !p.covers r }

def dropGraph (s : Store) (graph : Iri) : Store :=
  { s with rows := s.rows.filter fun r => r.graph ≠ graph }

def update (s : Store) : Update → Except StorageError Store
  | .insert quads => s.insert quads
  | .delete p => .ok (s.delete p)
  | .dropGraph g => .ok (s.dropGraph g)

/-- Makes all the changes, or none if one of them fails. -/
def apply (s : Store) (updates : List Update) : Except StorageError Store :=
  updates.foldlM update s

def ofQuads (quads : List Quad) : Store :=
  { rows := Ascending.ofList (quads.map Row.ofQuad), sealed := [] }

def sealAgainst (s : Store) (beginning : String) : Store :=
  { s with sealed := beginning :: s.sealed }

end Store

end SkosArchive
