import SkosArchive.Store.Basic
import SkosArchive.Text.Split

namespace SkosArchive

namespace Listing

/-- Tabs, line ends and the mark itself are written behind a mark. -/
def escape : List Char → List Char
  | [] => []
  | c :: cs =>
    if c = '\\' then '\\' :: '\\' :: escape cs
    else if c = '\t' then '\\' :: 't' :: escape cs
    else if c = '\n' then '\\' :: 'n' :: escape cs
    else c :: escape cs

def unescape? : List Char → Option (List Char)
  | [] => some []
  | '\\' :: '\\' :: cs => (unescape? cs).map ('\\' :: ·)
  | '\\' :: 't' :: cs => (unescape? cs).map ('\t' :: ·)
  | '\\' :: 'n' :: cs => (unescape? cs).map ('\n' :: ·)
  | '\\' :: _ => none
  | c :: cs => (unescape? cs).map (c :: ·)

theorem unescape?_escape (s : List Char) : unescape? (escape s) = some s := by
  induction s with
  | nil => rfl
  | cons c cs ih =>
    by_cases hm : c = '\\'
    · simp [escape, unescape?, hm, ih]
    by_cases ht : c = '\t'
    · simp [escape, unescape?, ht, ih]
    by_cases hn : c = '\n'
    · simp [escape, unescape?, hn, ih]
    · simp [escape, unescape?, hm, ht, hn, ih]

def line (columns : List String) : String :=
  "\t".intercalate (columns.map fun s => String.ofList (escape s.toList)) ++ "\n"

def columns? (line : List Char) : Option (List String) :=
  (Text.split '\t' line).mapM fun s => (unescape? s).map String.ofList

end Listing

namespace Store

def heading : String := "quads of an archive"

/-- A heading, then the texts of `sealed` and the rows, one a line, with a tab
between the columns of a row. -/
def toText (s : Store) : String :=
  heading ++ "\n" ++ String.join (s.sealed.map fun t => Listing.line [t]) ++
    String.join (s.rows.toList.map fun r => Listing.line r.columns)

def withLine? (s : Store) (line : List Char) : Option Store := do
  match ← Listing.columns? line with
  | [t] => return { s with sealed := s.sealed ++ [t] }
  | [g, u, p, o, k, l, d] => return s.put ⟨⟨g⟩, ⟨u⟩, ⟨p⟩, o, k, l, d⟩
  | _ => none

/-- Reads the listing of a store; the text ends with a line end. -/
def ofText? (text : String) : Option Store :=
  match Text.split '\n' text.toList with
  | [] => none
  | first :: lines =>
    if first = heading.toList ∧ lines.getLast? = some [] then
      lines.dropLast.foldlM withLine? empty
    else none

/-- Reads the bytes of a database file; one without a second octet is an empty
store. -/
def ofBytes (bytes : ByteArray) : Except StorageError Store :=
  if bytes.size ≤ 1 then .ok empty
  else match (String.fromUTF8? bytes).bind ofText? with
    | some s => .ok s
    | none => .error .notDatabase

end Store

end SkosArchive
