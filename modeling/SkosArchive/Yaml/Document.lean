import SkosArchive.Yaml.Node

namespace SkosArchive.Yaml

/-- The content of a document and its anchored nodes with their numbers, those
that begin last first. -/
structure Document where
  content : Node
  anchored : List (Nat × Node)

namespace Document

open Node

/-- What a node stands for: of the anchored nodes with the number of an alias
it is the one that begins last. -/
def resolve (d : Document) : Node → Node
  | .alias number =>
    match d.anchored.find? fun a => a.1 = number with
    | some (_, node) => node
    | none => .alias number
  | node => node

/-- The directives before a document: one version at most, 1.1 or 1.2, and each
tag handle once. -/
def readDirectives : (fuel : Nat) → (versioned : Bool) → Reader Unit
  | 0, _ => failure
  | fuel + 1, versioned => do
    match ← peek with
    | some (.version major minor) =>
      guard (!versioned && major = 1 && (minor = 1 || minor = 2))
      skip
      readDirectives fuel true
    | some (.tagHandle handle expansion) =>
      let input ← get
      guard (input.handles.all fun h => h.1 ≠ handle)
      skip
      modify fun input => { input with handles := (handle, expansion) :: input.handles }
      readDirectives fuel versioned
    | _ => return ()

def isDirective : Token → Bool
  | .version .. | .tagHandle .. => true
  | _ => false

/-- The content of the only document, or nothing if there is no document. -/
def readContent (fuel : Nat) : Reader (Option Node) := do
  match ← peek with
  | none => return none
  | some t =>
    let explicit := isDirective t || t = .documentStart
    if explicit then
      readDirectives fuel false
      expect .documentStart
    let content ← match ← peek with
      | none => pure .empty
      | some t =>
        if explicit && (isDirective t || t = .documentStart || t = .documentEnd) then pure .empty
        else read true false fuel
    guard ((← get).tokens.all (· = .documentEnd))
    return some content

/-- The document that stands in a text, which may hold one at most. -/
def ofText? (text : String) : Option (Option Document) := do
  let tokens ← tokens? text
  let (content, input) ← readContent (3 * tokens.length + 3) ⟨tokens, [], [], #[]⟩
  return content.map fun c => ⟨c, input.anchored.toList.reverse⟩

end Document

end SkosArchive.Yaml
