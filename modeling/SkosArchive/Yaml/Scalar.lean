import SkosArchive.Text.Digits
import SkosArchive.Yaml.Cursor

namespace SkosArchive.Yaml

/-- How a scalar is written. -/
inductive Style where
  | plain
  | singleQuoted
  | doubleQuoted
  | literal
  | folded
deriving DecidableEq

/-- Blanks and line breaks between two runs of a scalar's text. -/
structure Gap where
  /-- Blanks before any line break. -/
  blanks : List Char
  broken : Bool
  firstBreak : List Char
  moreBreaks : List Char

namespace Gap

def none : Gap := ⟨[], false, [], []⟩

/-- Begins after a line break that was escaped. -/
def escaped : Gap := ⟨[], true, [], []⟩

/-- A single line break is folded into a space, further ones are kept. -/
def text (g : Gap) : List Char :=
  if !g.broken then g.blanks
  else if g.firstBreak = ['\n'] then (if g.moreBreaks.isEmpty then [' '] else g.moreBreaks)
  else g.firstBreak ++ g.moreBreaks

/-- Reads on over blanks and breaks. After a break no tab may stand before the
column `tabLimit`. -/
def scan (tabLimit : Nat) : (fuel : Nat) → Gap → Cursor → Option (Gap × Cursor)
  | 0, g, c => some (g, c)
  | fuel + 1, g, c =>
    match c.rest with
    | [] => some (g, c)
    | ch :: _ =>
      if isSpace ch then
        if g.broken then
          if ch = '\t' && c.column < tabLimit then Option.none
          else scan tabLimit fuel g (c.advance 1)
        else scan tabLimit fuel { g with blanks := g.blanks ++ [ch] } (c.advance 1)
      else if isBreak ch then
        let (text, c) := c.readBreak
        if g.broken then scan tabLimit fuel { g with moreBreaks := g.moreBreaks ++ text } c
        else scan tabLimit fuel { g with blanks := [], broken := true, firstBreak := text } c
      else some (g, c)

end Gap

/-- The characters that end a plain scalar inside brackets. -/
def isFlowIndicator (c : Char) : Bool :=
  c = ',' || c = '[' || c = ']' || c = '\x7b' || c = '\x7d'

/-- A run of a plain scalar without blanks. -/
def plainRun (flow : Bool) : List Char → Option (List Char)
  | [] => some []
  | c :: s =>
    if isSpace c || isBreak c then some []
    else if flow && c = ':' && s.head?.any fun d => d = '?' || isFlowIndicator d then none
    else if c = ':' && s.head?.all fun d => isSpace d || isBreak d then some []
    else if flow && isFlowIndicator c then some []
    else (plainRun flow s).map (c :: ·)

/-- The text of a plain scalar, whether it ends after a line break, and what
follows. Outside brackets it ends at a line that is indented less than
`indent`. -/
def scanPlain (flow : Bool) (indent : Nat) :
    (fuel : Nat) → List Char → Gap → Cursor → Option (List Char × Bool × Cursor)
  | 0, _, _, _ => none
  | fuel + 1, text, gap, c => do
    if c.atDocumentMarker || c.looksAt 0 '#' then some (text, gap.broken, c)
    else
      let run ← plainRun flow c.rest
      let c := c.advance run.length
      let (text, gap) := if run.isEmpty then (text, gap) else (text ++ gap.text ++ run, Gap.none)
      if !c.meets 0 fun ch => isSpace ch || isBreak ch then some (text, gap.broken, c)
      else
        let (gap, c) ← Gap.scan indent c.rest.length gap c
        if !flow && c.column < indent then some (text, gap.broken, c)
        else scanPlain flow indent fuel text gap c

/-- The character with the code that `count` hexadecimal digits give. -/
def hexEscape? (count : Nat) (s : List Char) : Option Char := do
  let digits ← (s.take count).mapM Text.hexValue?
  guard (digits.length = count)
  let n := digits.foldl (fun n d => 16 * n + d) 0
  if n.isValidChar then some (Char.ofNat n) else none

/-- An escape after its backslash: the character and the length. -/
def escape? : List Char → Option (Char × Nat)
  | [] => none
  | c :: s =>
    if c = '0' then some ('\x00', 1)
    else if c = 'a' then some ('\x07', 1)
    else if c = 'b' then some ('\x08', 1)
    else if c = 't' ∨ c = '\t' then some ('\t', 1)
    else if c = 'n' then some ('\n', 1)
    else if c = 'v' then some ('\x0b', 1)
    else if c = 'f' then some ('\x0c', 1)
    else if c = 'r' then some ('\x0d', 1)
    else if c = 'e' then some ('\x1b', 1)
    else if c = ' ' ∨ c = '\x22' ∨ c = '/' ∨ c = '\\' then some (c, 1)
    else if c = 'N' then some ('\u0085', 1)
    else if c = '_' then some ('\u00a0', 1)
    else if c = 'L' then some ('\u2028', 1)
    else if c = 'P' then some ('\u2029', 1)
    else if c = 'x' then (hexEscape? 2 s).map (·, 3)
    else if c = 'u' then (hexEscape? 4 s).map (·, 5)
    else if c = 'U' then (hexEscape? 8 s).map (·, 9)
    else none

/-- A run of a quoted scalar up to a blank, a break, an escaped break or the
closing quote; says whether an escaped break ended it. -/
def quotedRun (single : Bool) :
    (fuel : Nat) → List Char → Cursor → Option (List Char × Bool × Cursor)
  | 0, _, _ => none
  | fuel + 1, text, c =>
    match c.rest with
    | [] => some (text, false, c)
    | ch :: s =>
      if isSpace ch || isBreak ch then some (text, false, c)
      else if single then
        if ch = '\x27' then
          if s.head? = some '\x27' then quotedRun single fuel (text ++ [ch]) (c.advance 2)
          else some (text, false, c)
        else quotedRun single fuel (text ++ [ch]) (c.advance 1)
      else if ch = '\x22' then some (text, false, c)
      else if ch = '\\' then
        if s.head?.any isBreak then some (text, true, ((c.advance 1).readBreak).2)
        else do
          let (e, n) ← escape? s
          quotedRun single fuel (text ++ [e]) (c.advance (n + 1))
      else quotedRun single fuel (text ++ [ch]) (c.advance 1)

/-- The text of a quoted scalar, from behind its opening quote, and what
follows its closing quote. -/
def scanQuoted (single : Bool) :
    (fuel : Nat) → List Char → Cursor → Option (List Char × Cursor)
  | 0, _, _ => none
  | fuel + 1, text, c => do
    if c.atDocumentMarker || c.atEnd then none
    else
      let (text, escaped, c) ← quotedRun single (c.rest.length + 1) text c
      if c.looksAt 0 (if single then '\x27' else '\x22') then
        some (text, c.advance 1)
      else
        let (gap, c) ← Gap.scan 0 c.rest.length (if escaped then .escaped else .none) c
        scanQuoted single fuel (text ++ gap.text) c

/-- What becomes of the line breaks at the end of a block scalar. -/
inductive Chomping where
  | strip
  | clip
  | keep
deriving DecidableEq

/-- The indicators of a block scalar in either order: chomping, and an
indentation from 1 to 9. -/
def blockHeader (c : Cursor) : Option (Chomping × Option Nat × Cursor) :=
  let chomping (c : Cursor) : Chomping × Cursor :=
    if c.looksAt 0 '+' then (.keep, c.advance 1)
    else if c.looksAt 0 '-' then (.strip, c.advance 1)
    else (.clip, c)
  let digit (c : Cursor) : Option (Option Nat × Cursor) :=
    if c.looksAt 0 '0' then none
    else match c.rest.head? with
      | some ch => if ch.isDigit then some (some (ch.toNat - 48), c.advance 1) else some (none, c)
      | none => some (none, c)
  if c.looksAt 0 '+' || c.looksAt 0 '-' then
    let (chomp, c) := chomping c
    (digit c).map fun (indent, c) => (chomp, indent, c)
  else
    (digit c).map fun (indent, c) =>
      if indent.isSome then
        let (chomp, c) := chomping c
        (chomp, indent, c)
      else (.clip, none, c)

/-- Reads the breaks and the indentation before the next line of a block
scalar; `indent` is none while it has to be found. Gives the breaks and the
widest indentation. -/
def blockBreaks (indent : Option Nat) :
    (fuel : Nat) → (widest : Nat) → List Char → Cursor → Option (Nat × List Char × Cursor)
  | 0, widest, breaks, c => some (widest, breaks, c)
  | fuel + 1, widest, breaks, c =>
    let spaces := (c.rest.takeWhile (· = ' ')).length
    let c := c.advance (match indent with
      | none => spaces
      | some n => if spaces < n - c.column then spaces else n - c.column)
    let widest := if widest < c.column then c.column else widest
    if c.looksAt 0 '\t' && indent.all fun n => c.column < n then none
    else if c.meets 0 isBreak then
      let (text, c) := c.readBreak
      blockBreaks indent fuel widest (breaks ++ text) c
    else some (widest, breaks, c)

/-- The lines of a block scalar. `lead` is the break before the current line and
`breaks` those after it; `blankLead` tells whether the line before began with a
blank. A break between two lines of folded text is folded unless one of them
begins with a blank. -/
def blockLines (literal : Bool) (indent : Nat) :
    (fuel : Nat) → (text lead breaks : List Char) → (blankLead : Bool) → Cursor →
      Option (List Char × List Char × List Char × Cursor)
  | 0, text, lead, breaks, _, c => some (text, lead, breaks, c)
  | fuel + 1, text, lead, breaks, blankLead, c => do
    if c.column ≠ indent || c.atEnd then some (text, lead, breaks, c)
    else
      let blank := c.meets 0 isSpace
      let folds := !literal && lead.head? = some '\n' && !blankLead && !blank
      let joint := if folds then (if breaks.isEmpty then [' '] else []) else lead
      let (content, c) := c.span fun _ => true
      let (lead, c) := c.readBreak
      let (_, after, c) ← blockBreaks (some indent) (c.rest.length + 1) 0 [] c
      blockLines literal indent fuel (text ++ joint ++ breaks ++ content) lead after blank c

/-- A block scalar from behind its indicator. `parent` is the indentation of
the collection around it, if there is one. -/
def scanBlock (literal : Bool) (parent : Option Nat) (c : Cursor) :
    Option (List Char × Cursor) := do
  let (chomp, increment, c) ← blockHeader c
  let c := c.skipWhile isSpace
  let c := if c.looksAt 0 '#' then c.skipWhile fun _ => true else c
  guard (c.atEnd || c.meets 0 isBreak)
  let (_, c) := c.readBreak
  let fixed := increment.map fun n => (parent.getD 0) + n
  let (widest, breaks, c) ← blockBreaks fixed (c.rest.length + 1) 0 [] c
  let least := match parent with
    | some n => n + 1
    | none => 1
  let indent := fixed.getD (if widest < least then least else widest)
  let (text, lead, breaks, c) ←
    blockLines literal indent (c.rest.length + 1) [] [] breaks false c
  let ending := match chomp with
    | .strip => []
    | .clip => lead
    | .keep => lead ++ breaks
  some (text ++ ending, c)

end SkosArchive.Yaml
