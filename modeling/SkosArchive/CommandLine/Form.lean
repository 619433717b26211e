import SkosArchive.Relation.Property
import SkosArchive.Time.Rfc3339

namespace SkosArchive.CommandLine

/-- Which texts an option takes. -/
inductive ValueKind where
  | text
  | path
  | property
  | time
deriving DecidableEq

namespace ValueKind

def accepts : ValueKind → String → Bool
  | text, _ => true
  | path, s => s ≠ ""
  | property, s => (SkosProperty.ofName? s).isSome
  | time, s => (Rfc3339.readLenient s.toList).isSome

end ValueKind

/-- An option with a value, which has a name in the help. -/
structure Flag where
  long : String
  valueName : String
  kind : ValueKind
  repeatable : Bool
  help : String
deriving DecidableEq

/-- What follows the options of a command. -/
structure Operand where
  name : String
  many : Bool
deriving DecidableEq

/-- A command by the words that name it. One without an operand has
subcommands. -/
structure Form where
  path : List String
  about : String
  operand : Option Operand
  flags : List Flag
deriving DecidableEq

def dbFlag : Flag := ⟨"db", "DB", .path, false, "Path to SQLite database file"⟩

def configFlag : Flag := ⟨"config", "CONFIG", .path, false, "Path to YAML configuration file"⟩

/-- The options that every command takes. -/
def sharedFlags : List Flag := [dbFlag, configFlag]

def workspaceFlag : Flag :=
  ⟨"workspace", "WORKSPACE", .text, false, "Resolve inside this workspace"⟩

def relationFlag : Flag :=
  ⟨"relation", "RELATIONS", .property, true,
    "SKOS relation to follow (repeatable); defaults to the configured set"⟩

def atFlag : Flag :=
  ⟨"at", "AT", .time, false, "Only the snapshot valid at this RFC 3339 instant"⟩

def forms : List Form :=
  [⟨[], "SKOS vocabulary contexts and cascading snapshots", none, []⟩,
    ⟨["context"], "Resolve the graph holding a vocabulary", some ⟨"VOCABULARY", false⟩,
      [workspaceFlag]⟩,
    ⟨["vocabulary-in"], "Find the vocabulary declared in a graph", some ⟨"CONTEXT", false⟩, []⟩,
    ⟨["related"], "List vocabularies related to a vocabulary", some ⟨"VOCABULARY", false⟩,
      [relationFlag]⟩,
    ⟨["snapshot"], "Manage snapshots", none, []⟩,
    ⟨["snapshot", "create"], "Snapshot a vocabulary and its related vocabularies",
      some ⟨"VOCABULARY", false⟩, []⟩,
    ⟨["snapshot", "remove"], "Remove a snapshot and the rest of its cascade",
      some ⟨"SNAPSHOT", false⟩, []⟩,
    ⟨["snapshot", "list"], "List snapshots of a vocabulary or term, newest first",
      some ⟨"ASSET", false⟩, [atFlag]⟩,
    ⟨["workspace"], "Inspect workspaces", none, []⟩,
    ⟨["workspace", "show"], "Show the vocabularies a workspace references",
      some ⟨"WORKSPACE", false⟩, []⟩,
    ⟨["drop-graph"], "Drop graphs through the deferred drop queue", some ⟨"GRAPHS", true⟩, []⟩]

def form? (path : List String) : Option Form := forms.find? fun f => f.path = path

namespace Form

def name (f : Form) : String := f.path.getLast?.getD ""

def subforms (f : Form) : List Form :=
  forms.filter fun g => g.path.length = f.path.length + 1 ∧ f.path.isPrefixOf g.path

def subform? (f : Form) (name : String) : Option Form := form? (f.path ++ [name])

def flag? (f : Form) (long : String) : Option Flag :=
  (f.flags ++ sharedFlags).find? fun g => g.long = long

end Form

end SkosArchive.CommandLine
