import SkosArchive.Error
import SkosArchive.Rdf.Names

namespace SkosArchive

/-- The SKOS properties that link terms, in their conventional order. -/
inductive SkosProperty where
  | broader
  | narrower
  | related
  | broadMatch
  | narrowMatch
  | exactMatch
  | closeMatch
  | relatedMatch
deriving DecidableEq

namespace SkosProperty

def all : List SkosProperty :=
  [broader, narrower, related, broadMatch, narrowMatch, exactMatch, closeMatch, relatedMatch]

def rank : SkosProperty → Nat
  | broader => 0
  | narrower => 1
  | related => 2
  | broadMatch => 3
  | narrowMatch => 4
  | exactMatch => 5
  | closeMatch => 6
  | relatedMatch => 7

theorem rank_inj {a b : SkosProperty} (h : a.rank = b.rank) : a = b := by
  cases a <;> cases b <;> first | rfl | cases h

instance : TotalOrder SkosProperty where
  lt a b := a.rank < b.rank
  decidableLT a b := inferInstanceAs (Decidable (a.rank < b.rank))
  lt_irrefl a := Nat.lt_irrefl a.rank
  lt_trans := Nat.lt_trans
  eq_of_not_lt h k := rank_inj (Nat.le_antisymm (Nat.not_lt.1 k) (Nat.not_lt.1 h))

/-- The name used in configurations and on the command line. -/
def name : SkosProperty → String
  | broader => "broader"
  | narrower => "narrower"
  | related => "related"
  | broadMatch => "broad_match"
  | narrowMatch => "narrow_match"
  | exactMatch => "exact_match"
  | closeMatch => "close_match"
  | relatedMatch => "related_match"

def iri : SkosProperty → Iri
  | broader => ⟨Names.skos ++ "broader"⟩
  | narrower => ⟨Names.skos ++ "narrower"⟩
  | related => ⟨Names.skos ++ "related"⟩
  | broadMatch => ⟨Names.skos ++ "broadMatch"⟩
  | narrowMatch => ⟨Names.skos ++ "narrowMatch"⟩
  | exactMatch => ⟨Names.skos ++ "exactMatch"⟩
  | closeMatch => ⟨Names.skos ++ "closeMatch"⟩
  | relatedMatch => ⟨Names.skos ++ "relatedMatch"⟩

def ofName? (s : String) : Option SkosProperty := all.find? fun p => p.name = s

def ofName (s : String) : Except ConfigError SkosProperty :=
  match ofName? s with
  | some p => .ok p
  | none => .error (.unknownProperty s)

end SkosProperty

/-- The properties that a traversal follows. -/
abbrev RelationSet := Ascending SkosProperty

namespace RelationSet

/-- Related and exact matches. -/
def standard : RelationSet := Ascending.ofList [.relatedMatch, .exactMatch]

def ofNames (names : List String) : Except ConfigError RelationSet :=
  (names.mapM SkosProperty.ofName).map Ascending.ofList

def follows (relations : RelationSet) (predicate : Iri) : Bool :=
  relations.toList.any fun p => p.iri = predicate

end RelationSet

end SkosArchive
