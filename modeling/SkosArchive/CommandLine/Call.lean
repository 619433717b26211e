import SkosArchive.CommandLine.Execution
import SkosArchive.Files.Tree

namespace SkosArchive.CommandLine

/-- Runs a command over the files of a tree. The configuration is read before
the database is opened; a store that was opened is kept, also after a failure. -/
def Invocation.run (i : Invocation) (now : Instant) (defaultDb : String) (t : Tree) :
    Outcome × Tree :=
  match t.config i.config with
  | .error e => (.unconfigured e, t)
  | .ok config =>
    match t.openStore (i.db.getD defaultDb) with
    | (.error e, t) => (.unopened e, t)
    | (.ok (location, store), t) =>
      let (outcome, store) := execute ⟨now, location.mode.faults⟩ config store i.command
      (outcome, t.keepStore location store)

/-- A call of the program with the words of its command line. -/
def call (words : List String) (now : Instant) (defaultDb : String) (t : Tree) : Outcome × Tree :=
  match Request.ofWords words with
  | .run i => i.run now defaultDb t
  | .show text => (.success text, t)
  | .misuse => (.misuse, t)

end SkosArchive.CommandLine
