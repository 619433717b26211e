import SkosArchive.CommandLine.Execution
import SkosArchive.Config.Yaml
import SkosArchive.Files.Path
import SkosArchive.Store.Listing
import SkosArchive.Store.Location
import Std.Time.DateTime.Timestamp

namespace SkosArchive.CommandLine

def currentInstant : IO Instant := do
  let t := (← Std.Time.Timestamp.now).val
  match Instant.of? t.second.val t.nano.val.toNat with
  | some t => return t
  | none => throw (IO.userError "the clock is out of range")

def reason : IO.Error → String
  | .noFileOrDirectory .. => "No such file or directory (os error 2)"
  | e => toString e

def readConfig : Option String → IO (Except ConfigError Config)
  | none => return .ok .standard
  | some path => do
    match ← (IO.FS.readBinFile path).toBaseIO with
    | .ok bytes => return Config.ofBytes bytes
    | .error e => return .error (.unreadable (reason e))

/-- The database of a user who names none. -/
def defaultDatabase : IO String := do
  let home := (← IO.getEnv "HOME").getD ""
  let data := (← IO.getEnv "XDG_DATA_HOME").getD (home ++ "/.local/share")
  return data ++ "/termgraph/termgraph.db"

def fileOf (l : Location) : IO String := do
  return Path.resolve (toString (← IO.currentDir)) l.path

/-- A database that is to be created is empty if it is not there; the directory
around it is made. -/
def readStore (name : String) : IO (Except StorageError (Location × Store)) := do
  let around := Path.join (Path.isAbsolute name) (Path.around name)
  if around ≠ "" then
    if let .error e ← (IO.FS.createDirAll around).toBaseIO then
      return .error (.unreachable (reason e))
  match Location.ofName name with
  | .error e => return .error e
  | .ok l =>
    if l.inMemory then return l.mode.fresh.map (l, ·)
    match ← (IO.FS.readBinFile (← fileOf l)).toBaseIO with
    | .ok bytes => return (Store.ofBytes bytes).map (l, ·)
    | .error (.noFileOrDirectory ..) =>
      return if l.mode = .create then .ok (l, .empty) else .error (.cannotOpen name)
    | .error _ => return .error (.cannotOpen name)

def writeStore (l : Location) (store : Store) : IO (Except IO.Error Unit) :=
  if l.inMemory || l.mode = .read then return .ok ()
  else do
    (IO.FS.writeFile (← fileOf l) store.toText).toBaseIO

def finish (outcome : Outcome) : IO UInt32 := do
  IO.print outcome.output
  if let some message := outcome.error then IO.eprintln message
  return UInt32.ofNat outcome.code

def run (i : Invocation) : IO UInt32 := do
  match ← readConfig i.config with
  | .error e => finish (.unconfigured e)
  | .ok config =>
    let name ← match i.db with
      | some name => pure name
      | none => defaultDatabase
    match ← readStore name with
    | .error e => finish (.unopened e)
    | .ok (location, store) =>
      let env := ⟨← currentInstant, location.mode.faults⟩
      let (outcome, store) := execute env config store i.command
      match ← writeStore location store with
      | .ok () => finish outcome
      | .error _ => finish (.unopened (.cannotOpen name))

def answer : Request → IO UInt32
  | .run i => run i
  | .show text => finish (.success text)
  | .misuse => do
    IO.eprintln ("Usage: " ++ programName ++ " [OPTIONS] <COMMAND>")
    finish .misuse

end SkosArchive.CommandLine

def main (args : List String) : IO UInt32 :=
  SkosArchive.CommandLine.answer (.ofWords args)
