import SkosArchive.Config.Yaml
import SkosArchive.Files.Path
import SkosArchive.Store.Location

namespace SkosArchive

/-- What stands at a place in a tree of files. -/
inductive Entry where
  | directory
  | text (content : String)
  | database (content : Store)

/-- Why a path leads to no file. -/
inductive PathError where
  | missing
  | occupied
  | notDirectory
  | isDirectory
  | nameTooLong
deriving DecidableEq

namespace PathError

def message : PathError → String
  | missing => "No such file or directory (os error 2)"
  | occupied => "File exists (os error 17)"
  | notDirectory => "Not a directory (os error 20)"
  | isDirectory => "Is a directory (os error 21)"
  | nameTooLong => "File name too long (os error 36)"

end PathError

/-- Files and directories by the names on the way to them from the root, and
the directory where relative paths begin. That one is always there. -/
structure Tree where
  entries : List (List String × Entry)
  here : List String

namespace Tree

def entry? (t : Tree) (way : List String) : Option Entry :=
  if way.isPrefixOf t.here then some .directory
  else (t.entries.find? fun e => e.1 = way).map (·.2)

def put (t : Tree) (way : List String) (e : Entry) : Tree :=
  { t with entries := (way, e) :: t.entries.filter fun f => f.1 ≠ way }

def start (t : Tree) (path : String) : List String :=
  if Path.isAbsolute path then [] else t.here

/-- How many octets a name may have. -/
def nameLimit : Nat := 255

/-- How many octets a path may have. -/
def pathLimit : Nat := 4095

/-- How many octets the path of a journal may have. -/
def journalLimit : Nat := 512

/-- The journal of a database stands beside it under its name with this. -/
def journalSuffix : String := "-journal"

/-- Where the parts of a path lead; there has to be a directory before each of
them. -/
def follow (t : Tree) (way : List String) : List String → Except PathError (List String)
  | [] => .ok way
  | part :: parts =>
    match t.entry? way with
    | none => .error .missing
    | some .directory =>
      if nameLimit < part.utf8ByteSize then .error .nameTooLong
      else t.follow (Path.step way part) parts
    | some _ => .error .notDirectory

def file (t : Tree) (path : String) : Except PathError Entry := do
  if pathLimit < path.utf8ByteSize then throw .nameTooLong
  let way ← t.follow (t.start path) (Path.parts path)
  match t.entry? way with
  | none => .error .missing
  | some .directory => .error .isDirectory
  | some e => .ok e

/-- Makes a directory in one that is there, unless it is there itself. -/
def makeDirectory (t : Tree) (way : List String) : Except PathError (List String) × Tree :=
  match t.entry? way with
  | none => (.ok way, t.put way .directory)
  | some .directory => (.ok way, t)
  | some _ => (.error .occupied, t)

/-- Makes a directory, given by its parts from the last to the first, and those
around it as far as they are missing. What could be made stays there if this
fails later. -/
def makeDirectories (t : Tree) (start : List String) :
    List String → Except PathError (List String) × Tree
  | [] => (.ok start, t)
  | part :: outer =>
    match t.follow start (part :: outer).reverse with
    | .ok way => t.makeDirectory way
    | .error .missing =>
      match t.makeDirectories start outer with
      | (.error e, t) => (.error e, t)
      | (.ok way, t) =>
        match t.follow way [part] with
        | .ok way => t.makeDirectory way
        | .error e => (.error e, t)
    | .error e => (.error e, t)

/-- Makes the directory around a file of this name. -/
def makeAround (t : Tree) (name : String) : Except PathError (List String) × Tree :=
  let around := Path.around name
  if pathLimit < (Path.join (Path.isAbsolute name) around).utf8ByteSize then
    (.error .nameTooLong, t)
  else t.makeDirectories (t.start name) around.reverse

/-- A step towards a database. A file on the way is an obstacle even where the
path goes back, and so is a path that becomes too long. -/
def advance? (t : Tree) (way : List String) (part : String) : Option (List String) :=
  let next := Path.step way part
  if way.length < next.length then
    match t.entry? way with
    | some (.text _) | some (.database _) => none
    | _ =>
      if part.utf8ByteSize ≤ nameLimit ∧ Path.size next < journalLimit then some next else none
  else some next

/-- The place of a database; there has to be room for the path of its journal. -/
def place? (t : Tree) (path : String) : Option (List String) :=
  ((Path.parts path).foldlM t.advance? (t.start path)).filter fun way =>
    !way.isEmpty && Path.size way + journalSuffix.utf8ByteSize ≤ journalLimit

/-- A database that is to be created begins as an empty file. -/
def createFile (t : Tree) (l : Location) : Tree :=
  if l.inMemory || l.mode ≠ .create then t
  else match t.place? l.path with
    | none => t
    | some way =>
      match t.entry? way, t.entry? way.dropLast with
      | none, some .directory => t.put way (.text "")
      | _, _ => t

/-- Whether the journal of the database at a place can have its name. -/
def hasJournal (way : List String) : Bool :=
  way.getLast?.all fun name => (name ++ journalSuffix).utf8ByteSize ≤ nameLimit

/-- The store in a file. Of other files only one without a second octet passes
for a database without content. A directory opens for reading, but cannot be
read. -/
def stored (t : Tree) (name : String) (l : Location) : Except StorageError Store :=
  if l.inMemory then l.mode.fresh
  else match t.place? l.path with
    | none => .error (.cannotOpen name)
    | some way =>
      match t.entry? way with
      | some (.database s) => .ok s
      | some (.text s) =>
        if 1 < s.utf8ByteSize then .error .notDatabase
        else do
          let store ← l.mode.fresh
          if hasJournal way then return store else .error .noJournal
      | some .directory => .error (if l.mode = .read then .diskFailure else .cannotOpen name)
      | none => .error (.cannotOpen name)

/-- Opens the database of this name; the directory around it is made first. -/
def openStore (t : Tree) (name : String) : Except StorageError (Location × Store) × Tree :=
  match t.makeAround name with
  | (.error e, t) => (.error (.unreachable e.message), t)
  | (.ok _, t) =>
    match Location.ofName name with
    | .error e => (.error e, t)
    | .ok l =>
      let t := t.createFile l
      ((t.stored name l).map (l, ·), t)

/-- Keeps a store in its file, if it has one. -/
def keepStore (t : Tree) (l : Location) (s : Store) : Tree :=
  if l.inMemory then t
  else match t.place? l.path with
    | none => t
    | some way => t.put way (.database s)

/-- The configuration in a file, the standard one without a path. -/
def config (t : Tree) : Option String → Except ConfigError Config
  | none => .ok .standard
  | some path =>
    match t.file path with
    | .ok (.text s) => Config.ofText s
    | .ok _ => .error .notText
    | .error e => .error (.unreadable e.message)

end Tree

end SkosArchive
