import SkosArchive.Error

namespace SkosArchive

/-- How related vocabularies are found: over one hop of mapping links, over
mapping links and imports to any depth, or over one layer of a link graph. -/
inductive Strategy where
  | skos
  | recursive
  | externalLink
deriving DecidableEq

namespace Strategy

def all : List Strategy := [skos, recursive, externalLink]

def name : Strategy → String
  | skos => "skos"
  | recursive => "recursive"
  | externalLink => "external_link"

def ofName? (s : String) : Option Strategy := all.find? fun t => t.name = s

def ofName (s : String) : Except ConfigError Strategy :=
  match ofName? s with
  | some t => .ok t
  | none => .error (.unknownStrategy s)

end Strategy

/-- A strategy together with what it reads from. -/
inductive Resolver where
  | skos
  | recursive
  | externalLink (linkGraph : Iri)
deriving DecidableEq

namespace Strategy

def resolver (strategy : Strategy) (linkGraph : Option Iri) : Except ConfigError Resolver :=
  match strategy, linkGraph with
  | skos, _ => .ok .skos
  | recursive, _ => .ok .recursive
  | externalLink, some g => .ok (.externalLink g)
  | externalLink, none => .error .linkGraphMissing

end Strategy

end SkosArchive
