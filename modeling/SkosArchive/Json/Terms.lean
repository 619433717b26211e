import SkosArchive.Json.Value
import SkosArchive.Rdf.Term

namespace SkosArchive

namespace Literal

def toJson (l : Literal) : Json :=
  .object [("value", .string l.value), ("language", .option .string l.language),
    ("datatype", .option .iri l.datatype)]

def ofJson? (j : Json) : Option Literal := do
  let [value, language, datatype] ← j.fields? ["value", "language", "datatype"] | none
  return {
    value := ← Json.required Json.string? value
    language := ← Json.optional Json.string? language
    datatype := ← Json.optional Json.iri? datatype }

end Literal

namespace Term

def toJson : Term → Json
  | .iri i => .object [("kind", .string "iri"), ("iri", .iri i)]
  | .literal l => .object [("kind", .string "literal"), ("literal", l.toJson)]

def ofJson? (j : Json) : Option Term := do
  let (kind, content) ← j.tagged? "kind"
  if kind = "iri" then
    let [i] ← content.fields? ["iri"] | none
    return .iri (← Json.required Json.iri? i)
  else if kind = "literal" then
    let [l] ← content.fields? ["literal"] | none
    return .literal (← Json.required Literal.ofJson? l)
  else none

end Term

namespace Quad

def toJson (q : Quad) : Json :=
  .object [("subject", .iri q.subject), ("predicate", .iri q.predicate),
    ("object", q.object.toJson), ("graph", .iri q.graph)]

def ofJson? (j : Json) : Option Quad := do
  let [subject, predicate, object, graph] ← j.fields? ["subject", "predicate", "object", "graph"]
    | none
  return {
    subject := ← Json.required Json.iri? subject
    predicate := ← Json.required Json.iri? predicate
    object := ← Json.required Term.ofJson? object
    graph := ← Json.required Json.iri? graph }

end Quad

end SkosArchive
