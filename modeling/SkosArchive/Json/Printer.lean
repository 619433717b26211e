import SkosArchive.Json.Value

namespace SkosArchive.Json

def hexDigit (n : Nat) : Char :=
  if n % 16 < 10 then Char.ofNat (48 + n % 16) else Char.ofNat (87 + n % 16)

/-- How a character stands inside a string: quotes, backslashes and control
characters are escaped. -/
def escape (c : Char) : List Char :=
  if c = '\x22' then ['\\', '\x22']
  else if c = '\\' then ['\\', '\\']
  else if c = '\x08' then ['\\', 'b']
  else if c = '\x0c' then ['\\', 'f']
  else if c = '\n' then ['\\', 'n']
  else if c = '\x0d' then ['\\', 'r']
  else if c = '\t' then ['\\', 't']
  else if c.toNat < 32 then ['\\', 'u', '0', '0', hexDigit (c.toNat / 16), hexDigit c.toNat]
  else [c]

def quoted (s : String) : String :=
  String.ofList ('\x22' :: s.toList.flatMap escape ++ ['\x22'])

def newline (depth : Nat) : String :=
  String.ofList ('\n' :: List.replicate (2 * depth) ' ')

/-- A number is written as an integer times a power of ten. -/
def numberText (mantissa : Int) (scale : Nat) : String :=
  if scale = 0 then toString mantissa else toString mantissa ++ "e-" ++ toString scale

mutual

/-- Two blanks of indentation for each level; empty lists and objects stand on
one line. -/
def pretty (depth : Nat) : Json → String
  | .null => "null"
  | .bool true => "true"
  | .bool false => "false"
  | .number mantissa scale => numberText mantissa scale
  | .string s => quoted s
  | .array [] => "[]"
  | .array (j :: items) =>
    "[" ++ newline (depth + 1) ++ pretty (depth + 1) j ++ prettyItems (depth + 1) items ++
      newline depth ++ "]"
  | .object [] => "\x7b\x7d"
  | .object ((name, j) :: members) =>
    "\x7b" ++ newline (depth + 1) ++ quoted name ++ ": " ++ pretty (depth + 1) j ++
      prettyMembers (depth + 1) members ++ newline depth ++ "\x7d"

def prettyItems (depth : Nat) : List Json → String
  | [] => ""
  | j :: items => "," ++ newline depth ++ pretty depth j ++ prettyItems depth items

def prettyMembers (depth : Nat) : List (String × Json) → String
  | [] => ""
  | (name, j) :: members =>
    "," ++ newline depth ++ quoted name ++ ": " ++ pretty depth j ++ prettyMembers depth members

end

end SkosArchive.Json
