import SkosArchive.Rdf.Names
import SkosArchive.Time.Rfc3339

namespace SkosArchive

/-- What a snapshot is a version of. -/
inductive SnapshotKind where
  | vocabulary
  | term
deriving DecidableEq

namespace SnapshotKind

def all : List SnapshotKind := [vocabulary, term]

def name : SnapshotKind → String
  | vocabulary => "vocabulary"
  | term => "term"

def type : SnapshotKind → Iri
  | vocabulary => Names.vocabularySnapshot
  | term => Names.termSnapshot

def ofType? (i : Iri) : Option SnapshotKind := all.find? fun k => k.type = i

def ofName? (s : String) : Option SnapshotKind := all.find? fun k => k.name = s

end SnapshotKind

/-- A copy of an asset as it was at one time. -/
structure Snapshot where
  iri : Iri
  created : Instant
  versionOf : Iri
  kind : SnapshotKind
deriving DecidableEq

namespace Snapshot

/-- What is appended to the names of all that a snapshot copies. -/
def suffix (separator : String) (t : Instant) : String :=
  separator ++ "/" ++ String.ofList (Rfc3339.compactText t.truncate)

end Snapshot

end SkosArchive
