import SkosArchive.Text.Split

namespace SkosArchive.Path

/-- The parts of a path between its slashes. -/
def parts (path : String) : List String := (Text.split '/' path.toList).map String.ofList

def isAbsolute (path : String) : Bool := path.toList.head? = some '/'

/-- Whether a part leads nowhere. -/
def stays (part : String) : Bool := part = "" || part = "."

/-- Goes on from a place, given by the names on the way to it from the root. -/
def step (way : List String) (part : String) : List String :=
  if stays part then way
  else if part = ".." then way.dropLast
  else way ++ [part]

/-- The length in octets of the path from the root along these names. -/
def size : List String → Nat
  | [] => 0
  | name :: way => 1 + name.utf8ByteSize + size way

/-- The parts that lead to the directory around the file at the end of a path. -/
def around (path : String) : List String := ((parts path).filter fun p => !stays p).dropLast

/-- The path with the given parts. -/
def join (absolute : Bool) (parts : List String) : String :=
  (if absolute then "/" else "") ++ "/".intercalate parts

/-- The path from the root to where a path leads from the directory `here`. -/
def resolve (here path : String) : String :=
  let start := if isAbsolute path then [] else (parts here).foldl step []
  join true ((parts path).foldl step start)

end SkosArchive.Path
