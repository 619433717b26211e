import SkosArchive.Config.Basic
import SkosArchive.Yaml.Document

namespace SkosArchive

namespace Yaml.Document

/-- The text of a scalar that may stand for a value of another type than text:
a plain one, or a literal block with the tag of that type. -/
def typedText? (d : Document) (type : String) (n : Node) : Option String :=
  match d.resolve n with
  | .scalar _ .plain s => some s
  | .scalar tag .literal s => if tag = some (Tag.core type) then some s else none
  | _ => none

def bool? (d : Document) (n : Node) : Option Bool := do
  let s ← d.typedText? "bool" n
  if ["true", "True", "TRUE"].contains s then some true
  else if ["false", "False", "FALSE"].contains s then some false
  else none

/-- The scalar of any style as text. -/
def text? (d : Document) (n : Node) : Option String :=
  match d.resolve n with
  | .scalar _ _ s => some s
  | _ => none

def isNull (s : String) : Bool := ["", "~", "null", "Null", "NULL"].contains s

/-- The name of a constant: a scalar, or a local tag on nothing. -/
def constant? (d : Document) (n : Node) : Option String :=
  match d.resolve n with
  | .scalar tag style s =>
    match tag.bind Tag.localName? with
    | some name => if style = .plain && isNull s then some name else none
    | none => some s
  | _ => none

/-- Absent if it is a plain null or empty, unless it has a tag of its own. -/
def optionalText? (d : Document) (n : Node) : Option (Option String) :=
  match d.resolve n with
  | .scalar none .plain s => some (if isNull s then none else some s)
  | .scalar (some tag) .plain s =>
    if tag ≠ Tag.core "null" then some (some s)
    else if s ≠ "" ∧ isNull s then some none
    else none
  | .scalar _ _ s => some (some s)
  | _ => none

/-- An empty plain scalar counts as an empty list. -/
def items? (d : Document) (n : Node) : Option (List Node) :=
  match d.resolve n with
  | .sequence items => some items
  | .scalar _ .plain "" => some []
  | _ => none

/-- An empty plain scalar counts as a mapping without pairs. -/
def pairs? (d : Document) (n : Node) : Option (List (Node × Node)) :=
  match d.resolve n with
  | .mapping pairs => some pairs
  | .scalar _ .plain "" => some []
  | _ => none

/-- The values of the named keys of a mapping, each of which may stand there
once. Keys have to be scalars; other keys are passed over. -/
def settings? (d : Document) (names : List String) (n : Node) :
    Option (List (Option Node)) := do
  let pairs ← (← d.pairs? n).mapM fun p => do return ((← d.text? p.1), p.2)
  names.mapM fun name =>
    match pairs.filter fun p => p.1 = name with
    | [] => some none
    | [p] => some (some p.2)
    | _ => none

def defaulted {α : Type} (value : α) (f : Node → Option α) : Option Node → Option α
  | none => some value
  | some n => f n

/-- The number that digits of a base denote. -/
def digitsValue? (base : Nat) (ds : List Char) : Option Nat := do
  guard (!ds.isEmpty)
  let values ← ds.mapM Text.hexValue?
  guard (values.all (· < base))
  return values.foldl (fun n d => base * n + d) 0

/-- Digits after a zero are text, not a number. -/
def decimalWord? (ds : List Char) : Option Nat :=
  if ds.length > 1 && ds.head? = some '0' then none else digitsValue? 10 ds

/-- A natural number of 64 bits, in decimal or with a mark for its base. -/
def word? (d : Document) (node : Node) : Option UInt64 := do
  let s ← d.typedText? "int" node
  let unsigned := match s.toList with
    | '+' :: ds => ds
    | ds => ds
  let n ← match unsigned with
    | '0' :: 'x' :: ds => digitsValue? 16 ds
    | '0' :: 'o' :: ds => digitsValue? 8 ds
    | '0' :: 'b' :: ds => digitsValue? 2 ds
    | ds => decimalWord? ds
  if n < UInt64.size then some (UInt64.ofNat n) else none

end Yaml.Document

open Yaml (Document Node)
open Yaml.Document (defaulted)

namespace RelationSet

def ofYaml? (d : Document) (n : Node) : Option RelationSet := do
  let properties ← (← d.items? n).mapM fun p => (d.constant? p).bind SkosProperty.ofName?
  return Ascending.ofList properties

end RelationSet

namespace RelationConfig

def ofYaml? (d : Document) (n : Node) : Option RelationConfig := do
  let [strategy, properties, linkGraph] ←
    d.settings? ["strategy", "skos_relations", "external_link_graph"] n | none
  return {
    strategy := ← defaulted standard.strategy
      (fun s => (d.constant? s).bind Strategy.ofName?) strategy
    properties := ← defaulted standard.properties (RelationSet.ofYaml? d) properties
    linkGraph := ← defaulted standard.linkGraph
      (fun g => (d.optionalText? g).map fun t => t.map Iri.mk) linkGraph }

end RelationConfig

namespace SnapshotConfig

def ofYaml? (d : Document) (n : Node) : Option SnapshotConfig := do
  let [separator, cascade] ← d.settings? ["separator", "cascade_relations"] n | none
  return {
    separator := ← defaulted standard.separator d.text? separator
    cascade := ← defaulted standard.cascade (RelationSet.ofYaml? d) cascade }

end SnapshotConfig

namespace DropConfig

def ofYaml? (d : Document) (n : Node) : Option DropConfig := do
  let [flushSeconds] ← d.settings? ["flush_interval_secs"] n | none
  return { flushSeconds := ← defaulted standard.flushSeconds d.word? flushSeconds }

end DropConfig

namespace Config

def ofYaml? (d : Document) (n : Node) : Option Config := do
  let [contextCache, relations, snapshots, drops] ←
    d.settings? ["context_cache", "relations", "snapshot", "drop_queue"] n | none
  return {
    contextCache := ← defaulted standard.contextCache d.bool? contextCache
    relations := ← defaulted standard.relations (RelationConfig.ofYaml? d) relations
    snapshots := ← defaulted standard.snapshots (SnapshotConfig.ofYaml? d) snapshots
    drops := ← defaulted standard.drops (DropConfig.ofYaml? d) drops }

/-- Reads a configuration document and checks it. A text without a document
stands for the standard configuration. -/
def ofText (text : String) : Except ConfigError Config := do
  let some document := Document.ofText? text | .error .malformed
  let some config := (match document with
    | none => some standard
    | some d => ofYaml? d d.content) | .error .malformed
  config.check
  return config

/-- Reads the bytes of a configuration file. -/
def ofBytes (bytes : ByteArray) : Except ConfigError Config :=
  match String.fromUTF8? bytes with
  | some text => ofText text
  | none => .error .notText

end Config

end SkosArchive
