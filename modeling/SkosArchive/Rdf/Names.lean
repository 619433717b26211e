import SkosArchive.Rdf.Iri

namespace SkosArchive.Names

def rdf : String := "http://www.w3.org/1999/02/22-rdf-syntax-ns#"
def xsd : String := "http://www.w3.org/2001/XMLSchema#"
def skos : String := "http://www.w3.org/2004/02/skos/core#"
def model : String := "https://w3id.org/termgraph/model#"

def type : Iri := ⟨rdf ++ "type"⟩

def dateTime : Iri := ⟨xsd ++ "dateTime"⟩

def inScheme : Iri := ⟨skos ++ "inScheme"⟩

def vocabulary : Iri := ⟨model ++ "Vocabulary"⟩
def hasGlossary : Iri := ⟨model ++ "hasGlossary"⟩
def describesDocument : Iri := ⟨model ++ "describesDocument"⟩
def importsVocabulary : Iri := ⟨model ++ "importsVocabulary"⟩
def primaryLanguage : Iri := ⟨model ++ "primaryLanguage"⟩

def derivedFrom : Iri := ⟨model ++ "derivedFrom"⟩

def vocabularySnapshot : Iri := ⟨model ++ "VocabularySnapshot"⟩
def termSnapshot : Iri := ⟨model ++ "TermSnapshot"⟩
def versionOf : Iri := ⟨model ++ "versionOf"⟩
def created : Iri := ⟨model ++ "created"⟩

def workspace : Iri := ⟨model ++ "Workspace"⟩
def referencesContext : Iri := ⟨model ++ "referencesContext"⟩
def basedOnVocabulary : Iri := ⟨model ++ "basedOnVocabulary"⟩
def hasChangeTrackingContext : Iri := ⟨model ++ "hasChangeTrackingContext"⟩

def linkSource : Iri := ⟨model ++ "linkSource"⟩
def linkTarget : Iri := ⟨model ++ "linkTarget"⟩
def linkActive : Iri := ⟨model ++ "linkActive"⟩

end SkosArchive.Names
