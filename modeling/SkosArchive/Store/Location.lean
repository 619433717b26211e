import SkosArchive.Store.Connection
import SkosArchive.Text.Digits
import SkosArchive.Text.Split

namespace SkosArchive

/-- How a database is opened. Only `create` makes one that is missing. -/
inductive Mode where
  | memory
  | read
  | write
  | create
deriving DecidableEq

namespace Mode

def ofName? : String → Option Mode
  | "memory" => some memory
  | "ro" => some read
  | "rw" => some write
  | "rwc" => some create
  | _ => none

/-- Whether a database that is to be opened as `m` may be opened as `other`
instead. -/
def allows (m other : Mode) : Bool :=
  match other, m with
  | memory, _ | _, memory | _, create => true
  | read, _ => true
  | write, write => true
  | _, _ => false

/-- Nothing can be written to a database that is opened for reading. -/
def faults (m : Mode) : Service where
  fails _ call :=
    match m, call with
    | read, .apply _ => some .readOnly
    | _, _ => none

/-- What is in a database without content; its tables have to be written
first. -/
def fresh : Mode → Except StorageError Store
  | read => .error .readOnly
  | _ => .ok .empty

end Mode

/-- The file of a database and how it is opened. -/
structure Location where
  path : String
  mode : Mode
deriving DecidableEq

namespace Location

/-- The octet that a percent sign stands for with the two digits behind it. -/
def escaped? : Char → List Char → Option UInt8
  | '%', high :: low :: _ => do
    return UInt8.ofNat (16 * (← Text.hexValue? high) + (← Text.hexValue? low))
  | _, _ => none

/-- The octets of a part of an address; an escaped octet of zero ends it. The
first `skipped` characters belong to an escape before them. -/
def octets : (skipped : Nat) → List Char → List UInt8
  | _, [] => []
  | skipped + 1, _ :: s => octets skipped s
  | 0, c :: s =>
    match escaped? c s with
    | none => (String.singleton c).toUTF8.toList ++ octets 0 s
    | some o => if o = 0 then [] else o :: octets 2 s

/-- The text of a part of an address, as it stands if its octets are no text. -/
def decode (s : List Char) : String :=
  (String.fromUTF8? ⟨(octets 0 s).toArray⟩).getD (String.ofList s)

/-- The options behind the question mark of an address. -/
def options (s : List Char) : List (String × String) :=
  ((Text.split '&' s).map fun o =>
    (decode (o.takeWhile (· ≠ '=')), decode ((o.dropWhile (· ≠ '=')).drop 1))).filter fun o =>
      o.1 ≠ ""

/-- Takes account of an option; those of other names have no effect. -/
def withOption (m : Mode) (o : String × String) : Except StorageError Mode :=
  if o.1 = "mode" then
    match Mode.ofName? o.2 with
    | none => .error (.unknownMode "access" o.2)
    | some other => if m.allows other then .ok other else .error (.modeRefused o.2)
  else if o.1 = "cache" ∧ o.2 ≠ "shared" ∧ o.2 ≠ "private" then
    .error (.unknownMode "cache" o.2)
  else .ok m

/-- A database in memory has no file. An empty path and this name stand for one
in any mode. -/
def inMemory (l : Location) : Bool :=
  l.mode = .memory || l.path = "" || l.path = ":memory:"

/-- The address behind its scheme. It may name the own host. -/
def ofAddress (s : List Char) : Except StorageError Location := do
  let s ← match s with
    | '/' :: '/' :: s =>
      let host := String.ofList (s.takeWhile (· ≠ '/'))
      if host = "" ∨ host = "localhost" then .ok (s.dropWhile (· ≠ '/'))
      else .error (.unknownHost host)
    | s => .ok s
  let s := s.takeWhile (· ≠ '#')
  let mode ← (options ((s.dropWhile (· ≠ '?')).drop 1)).foldlM withOption .create
  return ⟨decode (s.takeWhile (· ≠ '?')), mode⟩

/-- A database is named by its path or by an address with the scheme `file`. -/
def ofName (name : String) : Except StorageError Location :=
  match name.toList with
  | 'f' :: 'i' :: 'l' :: 'e' :: ':' :: s => ofAddress s
  | _ => .ok ⟨name, .create⟩

end Location

end SkosArchive
