import SkosArchive.Rdf.Iri

namespace SkosArchive

/-- What happens to a vocabulary. -/
inductive VocabularyChange where
  | created
  | removing
  | removed
deriving DecidableEq

namespace VocabularyChange

def all : List VocabularyChange := [created, removing, removed]

def name : VocabularyChange → String
  | created => "created"
  | removing => "removing"
  | removed => "removed"

def ofName? (s : String) : Option VocabularyChange := all.find? fun c => c.name = s

end VocabularyChange

/-- A vocabulary has appeared, is about to disappear, or has disappeared. -/
structure VocabularyEvent where
  change : VocabularyChange
  vocabulary : Iri
deriving DecidableEq

end SkosArchive
