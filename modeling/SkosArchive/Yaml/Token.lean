import SkosArchive.Yaml.Tag

namespace SkosArchive.Yaml

inductive Token where
  | version (major minor : Nat)
  | tagHandle (handle : String) (expansion : List UInt8)
  | documentStart
  | documentEnd
  | blockSequenceStart
  | blockMappingStart
  | blockEnd
  | flowSequenceStart
  | flowSequenceEnd
  | flowMappingStart
  | flowMappingEnd
  | blockEntry
  | flowEntry
  | key
  | value
  | alias (name : String)
  | anchor (name : String)
  | tag (handle : String) (suffix : List UInt8)
  | scalar (style : Style) (text : String)
deriving DecidableEq

/-- A token that may turn out to be the key of a mapping, once a colon follows
it on its line. It is required to if it stands where the next key of a block
mapping has to. -/
structure KeyCandidate where
  required : Bool
  position : Nat
  index : Nat
  line : Nat
  column : Nat

/-- The tokens read so far and what the layout depends on: the columns of the
open block collections, innermost first, and a candidate for each level of
brackets, outermost last. -/
structure Scanner where
  cursor : Cursor
  tokens : Array Token
  indents : List Nat
  candidates : List (Option KeyCandidate)
  keyAllowed : Bool

namespace Scanner

def start (s : List Char) : Scanner := ⟨.start s, #[], [], [none], true⟩

def inFlow (s : Scanner) : Bool := s.candidates.length > 1

def push (s : Scanner) (t : Token) : Scanner := { s with tokens := s.tokens.push t }

/-- Moves over `n` characters and adds a token. -/
def take (s : Scanner) (n : Nat) (t : Token) : Scanner :=
  { s with cursor := s.cursor.advance n, tokens := s.tokens.push t }

def allowKey (s : Scanner) (allowed : Bool) : Scanner := { s with keyAllowed := allowed }

def insertAt (s : Scanner) (position : Nat) (t : Token) : Scanner :=
  let tokens := s.tokens.toList
  { s with tokens := (tokens.take position ++ t :: tokens.drop position).toArray }

/-- Opens a block collection if the column lies deeper than the innermost one. -/
def open? (s : Scanner) (column position : Nat) (t : Token) : Scanner :=
  if !s.inFlow && s.indents.head?.all (· < column) then
    { s.insertAt position t with indents := column :: s.indents }
  else s

def closeBlocks (stays : Nat → Bool) : List Nat → Array Token → List Nat × Array Token
  | [], tokens => ([], tokens)
  | n :: indents, tokens =>
    if stays n then (n :: indents, tokens) else closeBlocks stays indents (tokens.push .blockEnd)

/-- Closes the block collections that lie deeper than `column`, all of them
without one. -/
def close (s : Scanner) (column : Option Nat) : Scanner :=
  if s.inFlow then s
  else
    let (indents, tokens) := closeBlocks (fun n => column.any (n ≤ ·)) s.indents s.tokens
    { s with indents, tokens }

/-- Gives up candidates on an earlier line or more than 1024 octets back;
fails if one of them is required. -/
def dropStale (s : Scanner) : Option Scanner := do
  let candidates ← s.candidates.mapM fun k =>
    match k with
    | none => some none
    | some k =>
      if k.line < s.cursor.line || k.index + 1024 < s.cursor.index then
        if k.required then none else some none
      else some (some k)
  return { s with candidates }

/-- Gives up the candidate of this level. -/
def dropCandidate (s : Scanner) : Option Scanner :=
  match s.candidates with
  | some k :: levels => if k.required then none else some { s with candidates := none :: levels }
  | _ => some s

/-- Makes what comes next the candidate of this level. -/
def saveCandidate (s : Scanner) : Option Scanner :=
  if s.keyAllowed then do
    let s ← s.dropCandidate
    let c := s.cursor
    let k : KeyCandidate :=
      { required := !s.inFlow && s.indents.head? = some c.column, position := s.tokens.size,
        index := c.index, line := c.line, column := c.column }
    return { s with candidates := some k :: s.candidates.drop 1 }
  else some s

/-- Moves over blanks, comments and line breaks. Tabs count as blanks inside
brackets and behind a token that no key can follow. -/
def skipBlanks : (fuel : Nat) → Scanner → Scanner
  | 0, s => s
  | fuel + 1, s =>
    let tabs := s.inFlow || !s.keyAllowed
    let c := s.cursor.skipMark.skipWhile fun ch => ch = ' ' || (tabs && ch = '\t')
    let c := if c.looksAt 0 '#' then c.skipWhile fun _ => true else c
    if c.meets 0 isBreak then
      skipBlanks fuel { s with cursor := (c.readBreak).2, keyAllowed := s.keyAllowed || !s.inFlow }
    else { s with cursor := c }

/-- A word after an indicator, for an anchor or an alias. -/
def scanName (c : Cursor) : Option (String × Cursor) :=
  let (name, c) := (c.advance 1).span isWordChar
  if name.isEmpty then none
  else if c.endsWord 0 || c.meets 0 fun ch => "?:,]\x7d%@\x60".toList.contains ch then
    some (String.ofList name, c)
  else none

def isTagChar (verbatim : Bool) (c : Char) : Bool :=
  isWordChar c || ";/?:@&=+$.%!~*()\x27".toList.contains c ||
    (verbatim && ",[]".toList.contains c)

/-- A part of a tag, of at least one character; an octet of zero ends it. -/
def scanTagPart (verbatim : Bool) (c : Cursor) : Option (List UInt8 × Cursor) := do
  let (text, c) := c.span (isTagChar verbatim)
  guard (!text.isEmpty)
  let octets ← Tag.unescape? 0 text
  some (octets.takeWhile (· ≠ 0), c)

/-- The handle and the suffix of a tag. -/
def scanTag (c : Cursor) : Option (String × List UInt8 × Cursor) := do
  if c.looksAt 1 '<' then
    let (suffix, c) ← scanTagPart true (c.advance 2)
    guard (c.looksAt 0 '>')
    some ("", suffix, c.advance 1)
  else
    let c := c.advance 1
    let (word, after) := c.span isWordChar
    if after.looksAt 0 '!' then
      let (suffix, c) ← scanTagPart false (after.advance 1)
      some (String.ofList ('!' :: word ++ ['!']), suffix, c)
    else
      let (suffix, c) ←
        if c.meets 0 (isTagChar false) then scanTagPart false c else some ([], c)
      if suffix.isEmpty then some ("", (Tag.ofString "!").octets, c) else some ("!", suffix, c)

def scanNumber (c : Cursor) : Option (Nat × Cursor) :=
  let (ds, c) := c.span Char.isDigit
  if ds.isEmpty || ds.length > 9 then none
  else some (ds.foldl (fun n d => 10 * n + (d.toNat - 48)) 0, c)

def scanDirective (c : Cursor) : Option (Token × Cursor) := do
  let (name, c) := (c.advance 1).span isWordChar
  guard (c.endsWord 0)
  let c := c.skipWhile isSpace
  let (token, c) ←
    if name = "YAML".toList then do
      let (major, c) ← scanNumber c
      guard (c.looksAt 0 '.')
      let (minor, c) ← scanNumber (c.advance 1)
      some (.version major minor, c)
    else if name = "TAG".toList then do
      guard (c.looksAt 0 '!')
      let (word, c) := (c.advance 1).span isWordChar
      let closed := c.looksAt 0 '!'
      guard (closed || word.isEmpty)
      let handle := if closed then '!' :: word ++ ['!'] else ['!']
      let c := if closed then c.advance 1 else c
      guard (c.meets 0 isSpace)
      let (expansion, c) ← scanTagPart true (c.skipWhile isSpace)
      guard (c.endsWord 0)
      some (.tagHandle (String.ofList handle) expansion, c)
    else none
  let c := c.skipWhile isSpace
  let c := if c.looksAt 0 '#' then c.skipWhile fun _ => true else c
  guard (c.atEnd || c.meets 0 isBreak)
  some (token, (c.readBreak).2)

def fetchMarker (s : Scanner) (t : Token) : Option Scanner := do
  let s ← (s.close none).dropCandidate
  return (s.take 3 t).allowKey false

def fetchDirective (s : Scanner) : Option Scanner := do
  let s ← (s.close none).dropCandidate
  let (t, c) ← scanDirective s.cursor
  return ({ s with cursor := c }.push t).allowKey false

def fetchFlowStart (s : Scanner) (t : Token) : Option Scanner := do
  let s ← s.saveCandidate
  return ({ s with candidates := none :: s.candidates }.take 1 t).allowKey true

def fetchFlowEnd (s : Scanner) (t : Token) : Option Scanner := do
  let s ← s.dropCandidate
  let candidates := if s.inFlow then s.candidates.drop 1 else s.candidates
  return ({ s with candidates }.take 1 t).allowKey false

def fetchFlowEntry (s : Scanner) : Option Scanner := do
  let s ← s.dropCandidate
  return (s.take 1 .flowEntry).allowKey true

def fetchBlockEntry (s : Scanner) : Option Scanner := do
  guard (s.inFlow || s.keyAllowed)
  let s ← (s.open? s.cursor.column s.tokens.size .blockSequenceStart).dropCandidate
  return (s.take 1 .blockEntry).allowKey true

def fetchKey (s : Scanner) : Option Scanner := do
  guard (s.inFlow || s.keyAllowed)
  let s ← (s.open? s.cursor.column s.tokens.size .blockMappingStart).dropCandidate
  return (s.take 1 .key).allowKey !s.inFlow

/-- A colon makes a key of the candidate, which a mapping may begin with. -/
def fetchValue (s : Scanner) : Option Scanner :=
  match s.candidates with
  | some k :: levels =>
    let s := (s.insertAt k.position .key).open? k.column k.position .blockMappingStart
    some (({ s with candidates := none :: levels }.take 1 .value).allowKey false)
  | _ => do
    guard (s.inFlow || s.keyAllowed)
    let s := s.open? s.cursor.column s.tokens.size .blockMappingStart
    return (s.take 1 .value).allowKey !s.inFlow

def fetchName (s : Scanner) (make : String → Token) : Option Scanner := do
  let s ← s.saveCandidate
  let (name, c) ← scanName s.cursor
  return ({ s with cursor := c }.push (make name)).allowKey false

def fetchTag (s : Scanner) : Option Scanner := do
  let s ← s.saveCandidate
  let (handle, suffix, c) ← scanTag s.cursor
  guard (c.endsWord 0 || (s.inFlow && c.looksAt 0 ','))
  return ({ s with cursor := c }.push (.tag handle suffix)).allowKey false

def fetchBlockScalar (s : Scanner) (literal : Bool) : Option Scanner := do
  let s ← s.dropCandidate
  let (text, c) ← scanBlock literal s.indents.head? (s.cursor.advance 1)
  let style := if literal then .literal else .folded
  return ({ s with cursor := c }.push (.scalar style (String.ofList text))).allowKey true

def fetchQuoted (s : Scanner) (single : Bool) : Option Scanner := do
  let s ← s.saveCandidate
  let c := s.cursor.advance 1
  let (text, c) ← scanQuoted single (c.rest.length + 1) [] c
  let style := if single then .singleQuoted else .doubleQuoted
  return ({ s with cursor := c }.push (.scalar style (String.ofList text))).allowKey false

def fetchPlain (s : Scanner) : Option Scanner := do
  let s ← s.saveCandidate
  let indent := match s.indents.head? with
    | some n => n + 1
    | none => 0
  let (text, broken, c) ←
    scanPlain s.inFlow indent (s.cursor.rest.length + 1) [] .none s.cursor
  return ({ s with cursor := c }.push (.scalar .plain (String.ofList text))).allowKey broken

/-- Whether a plain scalar can begin here. -/
def startsPlain (s : Scanner) : Bool :=
  let c := s.cursor
  match c.rest.head? with
  | none => false
  | some ch =>
    !(isSpace ch || isBreak ch || "-?:,[]\x7b\x7d#&*!|>\x27\x22%@\x60".toList.contains ch) ||
      (ch = '-' && !c.meets 1 isSpace) ||
      (!s.inFlow && (ch = '?' || ch = ':') && !c.endsWord 1)

/-- Reads the next token. -/
def fetch (s : Scanner) : Option Scanner :=
  let c := s.cursor
  if c.column = 0 && c.looksAt 0 '%' then s.fetchDirective
  else if c.atMarker '-' then s.fetchMarker .documentStart
  else if c.atMarker '.' then s.fetchMarker .documentEnd
  else if c.looksAt 0 '[' then s.fetchFlowStart .flowSequenceStart
  else if c.looksAt 0 '\x7b' then s.fetchFlowStart .flowMappingStart
  else if c.looksAt 0 ']' then s.fetchFlowEnd .flowSequenceEnd
  else if c.looksAt 0 '\x7d' then s.fetchFlowEnd .flowMappingEnd
  else if c.looksAt 0 ',' then s.fetchFlowEntry
  else if c.looksAt 0 '-' && c.endsWord 1 then s.fetchBlockEntry
  else if c.looksAt 0 '?' && (s.inFlow || c.endsWord 1) then s.fetchKey
  else if c.looksAt 0 ':' && (s.inFlow || c.endsWord 1) then s.fetchValue
  else if c.looksAt 0 '*' then s.fetchName .alias
  else if c.looksAt 0 '&' then s.fetchName .anchor
  else if c.looksAt 0 '!' then s.fetchTag
  else if c.looksAt 0 '|' && !s.inFlow then s.fetchBlockScalar true
  else if c.looksAt 0 '>' && !s.inFlow then s.fetchBlockScalar false
  else if c.looksAt 0 '\x27' then s.fetchQuoted true
  else if c.looksAt 0 '\x22' then s.fetchQuoted false
  else if s.startsPlain then s.fetchPlain
  else none

def finish (s : Scanner) : Option (List Token) := do
  let s ← (s.close none).dropCandidate
  return s.tokens.toList

def run : (fuel : Nat) → Scanner → Option (List Token)
  | 0, _ => none
  | fuel + 1, s => do
    let s := s.skipBlanks (s.cursor.rest.length + 1)
    let s ← s.dropStale
    if s.cursor.atEnd then s.finish
    else
      let s ← (s.close (some s.cursor.column)).fetch
      run fuel s

end Scanner

/-- The tokens of a text, if it has the lexical form of a stream of documents. -/
def tokens? (text : String) : Option (List Token) := do
  let s := text.toList
  guard (s.all isPrintable)
  Scanner.run (s.length + 2) (.start s)

end SkosArchive.Yaml
