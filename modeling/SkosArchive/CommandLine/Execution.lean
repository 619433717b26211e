import SkosArchive.Archive.Json
import SkosArchive.CommandLine.Invocation
import SkosArchive.Json.Printer

namespace SkosArchive.CommandLine

/-- How a call of the program ends: its code, what it prints, and the message
of the error that ended it. -/
structure Outcome where
  code : Nat
  output : String
  error : Option String
deriving DecidableEq

namespace Outcome

def success (output : String) : Outcome := ⟨0, output, none⟩

def failure (message : String) : Outcome := ⟨1, "", some ("Error: " ++ message)⟩

def unconfigured (e : ConfigError) : Outcome := failure ("Failed to load config: " ++ e.message)

def unopened (e : StorageError) : Outcome := failure ("Failed to open database: " ++ e.message)

/-- A misused command line; the complaint goes with the program's usage. -/
def misuse : Outcome := ⟨2, "", none⟩

end Outcome

def operations : Command → List Operation
  | .context v (some w) => [.contextIn w v]
  | .context v none => [.context v]
  | .vocabularyIn g => [.vocabularyIn g]
  | .related v properties =>
    [.related v (if properties.isEmpty then none else some (Ascending.ofList properties))]
  | .createSnapshot v => [.createSnapshot v]
  | .removeSnapshot s => [.removeSnapshot s]
  | .listSnapshots x none => [.snapshotsOf x]
  | .listSnapshots x (some t) => [.snapshotValidAt x t]
  | .showWorkspace w => [.workspace w]
  | .dropGraphs graphs => graphs.map .enqueueDrop ++ [.flushDrops]

/-- Answers are printed as JSON, the number of dropped graphs in words. -/
def report (command : Command) (answer : Answer) : String :=
  match command, answer with
  | .dropGraphs _, .count n => "Dropped " ++ toString n ++ " graph(s)\n"
  | _, answer => answer.toJson.pretty 0 ++ "\n"

/-- Carries out the operations up to the first failure; the last answer is
reported. -/
def perform (env : Environment) (command : Command) (last : Answer) :
    List Operation → Archive → Outcome × Store
  | [], a => (.success (report command last), a.store)
  | op :: ops, a =>
    match a.perform env op with
    | (.ok answer, a) => perform env command answer ops a
    | (.error e, a) => (.failure e.message, a.store)

/-- Runs a command over a store: the outcome, and the store to be kept. -/
def execute (env : Environment) (config : Config) (store : Store) (command : Command) :
    Outcome × Store :=
  match Archive.start env config store with
  | .error e => (.failure ("Failed to initialise: " ++ e.message), store)
  | .ok archive => perform env command .done (operations command) archive

end SkosArchive.CommandLine
