import SkosArchive.Rdf.Iri

namespace SkosArchive

/-- Why a call to the storage failed. -/
inductive StorageError where
  | callFailed
  | unreachable (reason : String)
  | readOnly
  | graphProtected
  | limitTooLarge
  | unknownKind (kind : String) (subject : Iri)
  | notDatabase
  | cannotOpen (path : String)
  | noJournal
  | diskFailure
  | unknownHost (name : String)
  | unknownMode (kind name : String)
  | modeRefused (name : String)
deriving DecidableEq

namespace StorageError

def message : StorageError → String
  | callFailed => "IO error: injected fault"
  | unreachable reason => "IO error: " ++ reason
  | readOnly => "Database error: attempt to write a readonly database"
  | graphProtected => "Database error: rejected graph"
  | limitTooLarge => "Database error: datatype mismatch"
  | unknownKind kind subject =>
    "Invalid stored term: unknown object kind '" ++ kind ++ "' for <" ++ subject.text ++ ">"
  | notDatabase => "Database error: file is not a database"
  | cannotOpen path => "Database error: unable to open database file: " ++ path
  | noJournal => "Database error: unable to open database file"
  | diskFailure => "Database error: disk I/O error"
  | unknownHost name => "Database error: invalid uri authority: " ++ name
  | unknownMode kind name => "Database error: no such " ++ kind ++ " mode: " ++ name
  | modeRefused name => "Database error: access mode not allowed: " ++ name

end StorageError

/-- Why a configuration cannot be used. -/
inductive ConfigError where
  | unreadable (reason : String)
  | notText
  | malformed
  | unfitSeparator (separator : String)
  | linkGraphUnset
  | zeroInterval
  | unknownProperty (name : String)
  | unknownStrategy (name : String)
  | linkGraphMissing
deriving DecidableEq

namespace ConfigError

def message : ConfigError → String
  | unreadable reason => "IO error: " ++ reason
  | notText => "IO error: stream did not contain valid UTF-8"
  | malformed => "YAML parse error: not a configuration document"
  | unfitSeparator separator =>
    "Invalid configuration: snapshot separator '" ++ separator ++
      "' must be non-empty and contain no whitespace"
  | linkGraphUnset =>
    "Invalid configuration: external_link strategy requires relations.external_link_graph"
  | zeroInterval => "Invalid configuration: drop_queue.flush_interval_secs must be positive"
  | unknownProperty name => "Invalid configuration: unknown SKOS relation '" ++ name ++ "'"
  | unknownStrategy name => "Invalid configuration: unknown relation strategy '" ++ name ++ "'"
  | linkGraphMissing => "Invalid configuration: external_link strategy requires a link graph"

end ConfigError

/-- What a lookup was for. A parent is the graph that another is derived from. -/
inductive Sought where
  | vocabulary
  | snapshot
  | workspace
  | parent
deriving DecidableEq

namespace Sought

def name : Sought → String
  | vocabulary => "Vocabulary"
  | snapshot => "Snapshot"
  | workspace => "Workspace"
  | parent => "Parent"

end Sought

/-- Why an operation on the archive failed. A storage error that ended a larger
operation is `persistence`, one of a call made for its own sake `storage`. -/
inductive Error where
  | ambiguousContext (vocabulary : Iri) (candidates : IriSet)
  | notFound (what : Sought) (iri : Iri)
  | alreadySnapshot (vocabulary : Iri)
  | notSnapshot (iri : Iri)
  | termSnapshot (iri : Iri)
  | snapshotConflict (graph : Iri)
  | persistence (cause : StorageError)
  | storage (cause : StorageError)
  | config (cause : ConfigError)
deriving DecidableEq

namespace Error

def message : Error → String
  | ambiguousContext vocabulary candidates =>
    "Ambiguous context for vocabulary " ++ vocabulary.text ++ ": candidates " ++
      ", ".intercalate (candidates.toList.map fun g => "<" ++ g.text ++ ">")
  | notFound what iri => what.name ++ " not found: " ++ iri.text
  | alreadySnapshot vocabulary =>
    "Unsupported operation: " ++ vocabulary.text ++ " is itself a snapshot"
  | notSnapshot iri => "Unsupported operation: " ++ iri.text ++ " is not a snapshot"
  | termSnapshot iri =>
    "Unsupported operation: " ++ iri.text ++
      " is a term snapshot; remove the vocabulary snapshot instead"
  | snapshotConflict graph => "Snapshot already exists: " ++ graph.text
  | persistence cause => "Persistence error: " ++ cause.message
  | storage cause => cause.message
  | config cause => "Configuration error: " ++ cause.message

end Error

end SkosArchive
