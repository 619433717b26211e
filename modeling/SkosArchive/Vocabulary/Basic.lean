import SkosArchive.Rdf.Iri

namespace SkosArchive

/-- A vocabulary as its description tells; the glossary is the concept scheme
that holds its terms. -/
structure Vocabulary where
  iri : Iri
  glossary : Option Iri
  document : Option Iri
  imports : IriSet
  language : Option String
deriving DecidableEq

/-- A term of a vocabulary's glossary. -/
structure VocabularyTerm where
  iri : Iri
  vocabulary : Iri
  glossary : Iri
deriving DecidableEq

end SkosArchive
