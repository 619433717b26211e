import SkosArchive.CommandLine.Help
import SkosArchive.Rdf.Iri

namespace SkosArchive.CommandLine

inductive Command where
  | context (vocabulary : Iri) (workspace : Option Iri)
  | vocabularyIn (context : Iri)
  | related (vocabulary : Iri) (properties : List SkosProperty)
  | createSnapshot (vocabulary : Iri)
  | removeSnapshot (snapshot : Iri)
  | listSnapshots (asset : Iri) (time : Option Instant)
  | showWorkspace (workspace : Iri)
  | dropGraphs (graphs : List Iri)
deriving DecidableEq

structure Invocation where
  db : Option String
  config : Option String
  command : Command
deriving DecidableEq

/-- What a command line asks for. -/
inductive Request where
  | run (invocation : Invocation)
  | show (text : String)
  | misuse
deriving DecidableEq

/-- What has been read: the command so far, the options given to it and to the
commands around it, innermost first, and its operands, last first. An option
whose value stands apart is held back until something follows it. -/
structure Reading where
  form : Form
  flags : List (String × String)
  held : Option (Flag × String)
  outerFlags : List (String × String)
  operands : List String

namespace Reading

def start : Reading := ⟨⟨[], "", none, []⟩, [], none, [], []⟩

def value? (r : Reading) (long : String) : Option String :=
  ((r.flags ++ r.outerFlags).find? fun f => f.1 = long).map (·.2)

def values (r : Reading) (long : String) : List String :=
  ((r.flags.filter fun f => f.1 = long).map (·.2)).reverse

def command? (r : Reading) : Option Command :=
  let operands := r.operands.reverse.map Iri.mk
  match r.form.path, operands with
  | ["context"], [v] => some (.context v ((r.value? "workspace").map Iri.mk))
  | ["vocabulary-in"], [g] => some (.vocabularyIn g)
  | ["related"], [v] => some (.related v ((r.values "relation").filterMap SkosProperty.ofName?))
  | ["snapshot", "create"], [v] => some (.createSnapshot v)
  | ["snapshot", "remove"], [s] => some (.removeSnapshot s)
  | ["snapshot", "list"], [x] =>
    some (.listSnapshots x ((r.value? "at").bind fun t => Rfc3339.readLenient t.toList))
  | ["workspace", "show"], [w] => some (.showWorkspace w)
  | ["drop-graph"], g :: graphs => some (.dropGraphs (g :: graphs))
  | _, _ => none

/-- An option with its value; one that is not repeatable stands once at most
among the options of a command. -/
def withFlag? (r : Reading) (f : Flag) (value : String) : Option Reading :=
  if f.kind.accepts value && (f.repeatable || !r.flags.any fun g => g.1 = f.long) then
    some { r with flags := (f.long, value) :: r.flags }
  else none

/-- Takes in the option that is held back. -/
def settle? (r : Reading) : Option Reading :=
  match r.held with
  | none => some r
  | some (f, value) => { r with held := none }.withFlag? f value

def request (r : Reading) : Request :=
  match r.settle? with
  | none => .misuse
  | some r =>
    match r.command? with
    | some command => .run { db := r.value? "db", config := r.value? "config", command }
    | none => .misuse

/-- An operand, if the command takes one more. -/
def withOperand? (r : Reading) (s : String) : Option Reading :=
  match r.form.operand with
  | some o =>
    if o.many || r.operands.isEmpty then some { r with operands := s :: r.operands } else none
  | none => none

/-- Goes on to a command below. -/
def enter (r : Reading) (form : Form) : Reading :=
  let held := r.held.toList.map fun f => (f.1.long, f.2)
  { form, flags := [], held := none, outerFlags := held ++ r.flags ++ r.outerFlags, operands := [] }

/-- What a request from below comes to. Only to run it, the option that was held
back before has to be right. -/
def confirm (r : Reading) : Request → Request
  | .run i => if r.settle?.isSome then .run i else .misuse
  | request => request

end Reading

/-- The help for the command that the words name below `form`. -/
def helpFor (form : Form) : List String → Request
  | [] => .show (helpText form)
  | word :: words =>
    match form.subform? word with
    | some sub => helpFor sub words
    | none =>
      if form.operand.isNone ∧ word = "help" ∧ words.isEmpty then .show (helpTextOfHelp form)
      else .misuse

/-- The first effect of a cluster of short options, if it has one apart from
more output. -/
def shortCluster (form : Form) : List Char → Option Request
  | [] => none
  | c :: cs =>
    if c = 'v' then shortCluster form cs
    else if c = 'h' then some (.show (helpText form))
    else if c = 'V' ∧ form.path.isEmpty then some (.show versionText)
    else some .misuse

/-- All that follows is operands. -/
def readOperands (r : Reading) : List String → Request
  | [] => r.request
  | s :: words =>
    match r.withOperand? s with
    | some r => readOperands r words
    | none => .misuse

/-- Reads the words of a command line in order; `pending` is an option that
still lacks its value. A call for help or for the version takes effect where it
stands, if nothing before it is wrong; an option that is still held back when a
command follows it does not matter there. -/
def readWords (r : Reading) : (pending : Option Flag) → List String → Request
  | none, [] => r.request
  | some _, [] => .misuse
  | some f, s :: words =>
    if s.toList.head? = some '-' && s ≠ "-" then .misuse
    else readWords { r with held := some (f, s) } none words
  | none, s :: words =>
    match r.form.operand, r.form.subform? s with
    | none, some form => r.confirm (readWords (r.enter form) none words)
    | operand, _ =>
      if operand.isNone && s = "help" then helpFor r.form words
      else match r.settle? with
        | none => .misuse
        | some r =>
          match s.toList with
          | ['-', '-'] => readOperands r words
          | '-' :: '-' :: option =>
            let name := String.ofList (option.takeWhile (· ≠ '='))
            let attached := (option.dropWhile (· ≠ '=')).tail?
            match r.form.flag? name, attached with
            | some f, none => readWords r (some f) words
            | some f, some value =>
              match r.withFlag? f (String.ofList value) with
              | some r => readWords r none words
              | none => .misuse
            | none, some _ => .misuse
            | none, none =>
              if name = "verbose" then readWords r none words
              else if name = "help" then .show (helpText r.form)
              else if name = "version" ∧ r.form.path.isEmpty then .show versionText
              else .misuse
          | '-' :: c :: cluster =>
            match shortCluster r.form (c :: cluster) with
            | some request => request
            | none => readWords r none words
          | _ =>
            match r.withOperand? s with
            | some r => readWords r none words
            | none => .misuse

/-- The request that a command line makes. -/
def Request.ofWords (words : List String) : Request :=
  match form? [] with
  | some form => readWords { Reading.start with form } none words
  | none => .misuse

end SkosArchive.CommandLine
