import SkosArchive.Yaml.Token

namespace SkosArchive.Yaml

/-- A part of a document. An alias stands for an anchored node with its number. -/
inductive Node where
  | scalar (tag : Option Tag) (style : Style) (text : String)
  | sequence (items : List Node)
  | mapping (pairs : List (Node × Node))
  | alias (number : Nat)

namespace Node

def empty : Node := .scalar none .plain ""

/-- The tokens still to be read, the declared tag handles, the numbers of the
known anchors and the anchored nodes in the order in which they begin. A node
that is being read is empty there. -/
structure Input where
  tokens : List Token
  handles : List (String × List UInt8)
  anchors : List (String × Nat)
  anchored : Array (Nat × Node)

abbrev Reader := StateT Input Option

def peek : Reader (Option Token) := fun input => some (input.tokens.head?, input)

def skip : Reader Unit := fun input => some ((), { input with tokens := input.tokens.drop 1 })

/-- Skips the next token if it is one of `ts`, and says whether it was. -/
def acceptAny (ts : List Token) : Reader Bool := do
  if (← peek).any ts.contains then
    skip
    return true
  else return false

def accept (t : Token) : Reader Bool := acceptAny [t]

def expect (t : Token) : Reader Unit := do
  if !(← accept t) then failure

/-- Whether one of the tokens comes next, or none at all. -/
def endsAt (ts : List Token) : Reader Bool := do
  return (← peek).all ts.contains

def expandTag (handle : String) (suffix : List UInt8) : Reader Tag := do
  if handle = "" then return ⟨suffix⟩
  match (← get).handles.find? fun h => h.1 = handle with
  | some h => return ⟨h.2 ++ suffix⟩
  | none =>
    if handle = "!" then return ⟨(Tag.ofString "!").octets ++ suffix⟩
    else if handle = "!!" then return ⟨(Tag.core "").octets ++ suffix⟩
    else failure

def readTag : Reader (Option Tag) := do
  match ← peek with
  | some (.tag handle suffix) =>
    skip
    return some (← expandTag handle suffix)
  | _ => return none

/-- Gives the anchor the count of the names known so far as its number, and the
node that follows a place among the anchored ones. A name that comes again gets
a new number, which the next new name shares with it. -/
def numberAnchor (name : String) : Reader Nat := do
  let input ← get
  let number := input.anchors.length
  set { input with
    anchors := (name, number) :: input.anchors.filter fun a => a.1 ≠ name
    anchored := input.anchored.push (number, .empty) }
  return input.anchored.size

def readAnchor : Reader (Option Nat) := do
  match ← peek with
  | some (.anchor name) =>
    skip
    return some (← numberAnchor name)
  | _ => return none

/-- An anchor and a tag in either order. -/
def readProperties : Reader (Option Nat × Option Tag) := do
  match ← readAnchor with
  | some place => return (some place, ← readTag)
  | none =>
    match ← readTag with
    | some tag => return (← readAnchor, some tag)
    | none => return (none, none)

/-- The alias of the anchor of this name that was met last. -/
def readAlias (name : String) : Reader Node := do
  match (← get).anchors.find? fun a => a.1 = name with
  | some (_, number) => return .alias number
  | none => failure

/-- Puts the node into its place among the anchored ones, if it has one. -/
def setAnchored (place : Option Nat) (node : Node) : Reader Node := do
  if let some place := place then
    modify fun input =>
      { input with anchored := input.anchored.modify place fun a => (a.1, node) }
  return node

mutual

/-- A node. In block context block collections may stand here; `indentless`
allows a sequence that is not indented more than the mapping around it. -/
def read (block indentless : Bool) : (fuel : Nat) → Reader Node
  | 0 => failure
  | fuel + 1 => do
    match ← peek with
    | some (.alias name) =>
      skip
      readAlias name
    | _ =>
      let (place, tag) ← readProperties
      let bare := place.isNone && tag.isNone
      let node ← match ← peek with
        | some .blockEntry =>
          if indentless then return ← setAnchored place (.sequence (← readIndentless fuel))
          else if bare then failure
          else pure (.scalar tag .plain "")
        | some (.scalar style text) => do
          skip
          pure (.scalar tag style text)
        | some .flowSequenceStart => do
          skip
          pure (.sequence (← readFlowItems true fuel))
        | some .flowMappingStart => do
          skip
          pure (.mapping (← readFlowPairs true fuel))
        | some .blockSequenceStart =>
          if block then do
            skip
            pure (.sequence (← readBlockItems fuel))
          else if bare then failure
          else pure (.scalar tag .plain "")
        | some .blockMappingStart =>
          if block then do
            skip
            pure (.mapping (← readBlockPairs fuel))
          else if bare then failure
          else pure (.scalar tag .plain "")
        | _ => if bare then failure else pure (.scalar tag .plain "")
      setAnchored place node

/-- A node, or an empty scalar if one of the tokens `ends` comes next. -/
def readOr (ends : List Token) (block indentless : Bool) : (fuel : Nat) → Reader Node
  | 0 => failure
  | fuel + 1 => do
    if ← endsAt ends then return .empty else read block indentless fuel

def readBlockItems : (fuel : Nat) → Reader (List Node)
  | 0 => failure
  | fuel + 1 => do
    if ← accept .blockEntry then
      let item ← readOr [.blockEntry, .blockEnd] true false fuel
      return item :: (← readBlockItems fuel)
    else
      expect .blockEnd
      return []

def readIndentless : (fuel : Nat) → Reader (List Node)
  | 0 => failure
  | fuel + 1 => do
    if ← accept .blockEntry then
      let item ← readOr [.blockEntry, .key, .value, .blockEnd] true false fuel
      return item :: (← readIndentless fuel)
    else return []

def readBlockPairs : (fuel : Nat) → Reader (List (Node × Node))
  | 0 => failure
  | fuel + 1 => do
    if ← accept .key then
      let key ← readOr [.key, .value, .blockEnd] true true fuel
      let value ←
        if ← accept .value then readOr [.key, .value, .blockEnd] true true fuel
        else pure .empty
      return (key, value) :: (← readBlockPairs fuel)
    else
      expect .blockEnd
      return []

/-- The items up to the closing bracket; all but the first follow a comma. A
key among them makes a mapping of one pair; the colon, comma or bracket that
shows a key to be empty is passed over. -/
def readFlowItems (first : Bool) : (fuel : Nat) → Reader (List Node)
  | 0 => failure
  | fuel + 1 => do
    if ← accept .flowSequenceEnd then return []
    if !first then
      expect .flowEntry
      if ← accept .flowSequenceEnd then return []
    let item ←
      if ← accept .key then do
        let key ←
          if ← acceptAny [.value, .flowEntry, .flowSequenceEnd] then pure .empty
          else read false false fuel
        let value ←
          if ← accept .value then readOr [.flowEntry, .flowSequenceEnd] false false fuel
          else pure .empty
        pure (.mapping [(key, value)])
      else read false false fuel
    return item :: (← readFlowItems false fuel)

def readFlowPairs (first : Bool) : (fuel : Nat) → Reader (List (Node × Node))
  | 0 => failure
  | fuel + 1 => do
    if ← accept .flowMappingEnd then return []
    if !first then
      expect .flowEntry
      if ← accept .flowMappingEnd then return []
    let pair ←
      if ← accept .key then do
        let key ← readOr [.value, .flowEntry, .flowMappingEnd] false false fuel
        let value ←
          if ← accept .value then readOr [.flowEntry, .flowMappingEnd] false false fuel
          else pure .empty
        pure (key, value)
      else do
        let key ← read false false fuel
        pure (key, .empty)
    return pair :: (← readFlowPairs false fuel)

end

end Node

end SkosArchive.Yaml
