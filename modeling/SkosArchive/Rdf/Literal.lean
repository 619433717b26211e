import SkosArchive.Rdf.Names
import SkosArchive.Rdf.Term
import SkosArchive.Time.Rfc3339

namespace SkosArchive.Literal

/-- The instant to the second as an `xsd:dateTime`. -/
def ofInstant (t : Instant) : Literal :=
  { value := String.ofList (Rfc3339.secondsText t), language := none,
    datatype := some Names.dateTime }

/-- `true`, `1`, `false` and `0` are truth values, blanks around them aside. -/
def bool? (l : Literal) : Option Bool :=
  let s := String.ofList (Text.trim l.value.toList)
  if s = "true" ∨ s = "1" then some true
  else if s = "false" ∨ s = "0" then some false
  else none

def instant? (l : Literal) : Option Instant := Rfc3339.read l.value.toList

end SkosArchive.Literal
