import SkosArchive.Yaml.Scalar

namespace SkosArchive.Yaml

/-- The type that a document gives for a node. It is a sequence of octets, which
need not be text, as each of them may be written with an escape. -/
structure Tag where
  octets : List UInt8
deriving DecidableEq

namespace Tag

def ofString (s : String) : Tag := ⟨s.toUTF8.toList⟩

/-- The tag of a type that every document knows. -/
def core (type : String) : Tag := ofString ("tag:yaml.org,2002:" ++ type)

/-- The name behind the mark of a local tag, if it is text. -/
def localName? (t : Tag) : Option String :=
  match t.octets with
  | [] => none
  | mark :: name => if mark = 0x21 then String.fromUTF8? ⟨name.toArray⟩ else none

/-- How many octets follow the first one of a character. -/
def trailingOctets? (first : UInt8) : Option Nat :=
  if first < 0x80 then some 0
  else if 0xC0 ≤ first ∧ first < 0xE0 then some 1
  else if 0xE0 ≤ first ∧ first < 0xF0 then some 2
  else if 0xF0 ≤ first ∧ first < 0xF8 then some 3
  else none

/-- The octets that the characters of a tag stand for. An octet is escaped by a
percent sign and two hexadecimal digits; the octets of a character that are
still `owed` have to be escaped too. -/
def unescape? : (owed : Nat) → List Char → Option (List UInt8)
  | owed, '%' :: high :: low :: s => do
    let octet := UInt8.ofNat (16 * (← Text.hexValue? high) + (← Text.hexValue? low))
    let owed ← match owed with
      | 0 => trailingOctets? octet
      | n + 1 => if 0x80 ≤ octet ∧ octet < 0xC0 then some n else none
    return octet :: (← unescape? owed s)
  | 0, [] => some []
  | 0, c :: s => if c = '%' then none else (unescape? 0 s).map (UInt8.ofNat c.toNat :: ·)
  | _ + 1, _ => none

end Tag

end SkosArchive.Yaml
