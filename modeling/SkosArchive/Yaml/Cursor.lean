namespace SkosArchive.Yaml

def isBreak (c : Char) : Bool :=
  c = '\n' || c = '\x0d' || c = '\u0085' || c = '\u2028' || c = '\u2029'

def isSpace (c : Char) : Bool := c = ' ' || c = '\t'

/-- The characters that a document may hold. -/
def isPrintable (c : Char) : Bool :=
  let n := c.toNat
  n = 0x09 || n = 0x0A || n = 0x0D || (0x20 ≤ n && n ≤ 0x7E) || n = 0x85 ||
    (0xA0 ≤ n && n ≤ 0xD7FF) || (0xE000 ≤ n && n ≤ 0xFFFD) || (0x10000 ≤ n && n ≤ 0x10FFFF)

/-- Letters, digits, hyphen and underscore. -/
def isWordChar (c : Char) : Bool := c.isAlphanum || c = '-' || c = '_'

/-- The length of a text in octets. -/
def octetCount (s : List Char) : Nat := s.foldl (fun n c => n + c.utf8Size) 0

/-- A place in a text, and the text from there on. The octets before it are
counted, and the characters before it on its line. -/
structure Cursor where
  rest : List Char
  index : Nat
  line : Nat
  column : Nat

namespace Cursor

def start (s : List Char) : Cursor := ⟨s, 0, 0, 0⟩

def atEnd (c : Cursor) : Bool := c.rest.isEmpty

/-- Whether the character at distance `n` is `ch`. -/
def looksAt (c : Cursor) (n : Nat) (ch : Char) : Bool := c.rest[n]? = some ch

def meets (c : Cursor) (n : Nat) (p : Char → Bool) : Bool := c.rest[n]?.any p

/-- Whether the text ends at distance `n` or a blank or line break stands there. -/
def endsWord (c : Cursor) (n : Nat) : Bool :=
  match c.rest[n]? with
  | none => true
  | some ch => isSpace ch || isBreak ch

/-- Moves over `n` characters of one line. -/
def advance (c : Cursor) (n : Nat) : Cursor :=
  { c with
    rest := c.rest.drop n
    index := c.index + octetCount (c.rest.take n)
    column := c.column + n }

/-- Moves over a byte order mark at the beginning of a line, where it takes up a
column. -/
def skipMark (c : Cursor) : Cursor :=
  if c.column = 0 && c.looksAt 0 '\ufeff' then c.advance 1 else c

/-- The characters of this line that come next and satisfy `p`. -/
def span (c : Cursor) (p : Char → Bool) : List Char × Cursor :=
  let taken := c.rest.takeWhile fun ch => p ch && !isBreak ch
  (taken, c.advance taken.length)

def skipWhile (c : Cursor) (p : Char → Bool) : Cursor := (c.span p).2

/-- Moves over `n` characters, the last of which ends the line. -/
def newLine (c : Cursor) (n : Nat) : Cursor :=
  { c.advance n with line := c.line + 1, column := 0 }

/-- Reads a line break; all but the line and paragraph separators are read as
a line feed. -/
def readBreak (c : Cursor) : List Char × Cursor :=
  match c.rest with
  | '\x0d' :: '\n' :: _ => (['\n'], c.newLine 2)
  | ch :: _ =>
    if ch = '\u2028' || ch = '\u2029' then ([ch], c.newLine 1)
    else if isBreak ch then (['\n'], c.newLine 1)
    else ([], c)
  | [] => ([], c)

/-- Whether a line begins here with a document marker. -/
def atMarker (c : Cursor) (ch : Char) : Bool :=
  c.column = 0 && c.looksAt 0 ch && c.looksAt 1 ch && c.looksAt 2 ch && c.endsWord 3

def atDocumentMarker (c : Cursor) : Bool := c.atMarker '-' || c.atMarker '.'

end Cursor

end SkosArchive.Yaml
