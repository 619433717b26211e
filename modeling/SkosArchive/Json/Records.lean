import SkosArchive.Json.Value
import SkosArchive.Snapshot.Basic
import SkosArchive.Vocabulary.Basic
import SkosArchive.Vocabulary.Event
import SkosArchive.Workspace.Basic

namespace SkosArchive

namespace Json

def iris (s : IriSet) : Json := .list .iri s.toList

def iris? (j : Json) : Option IriSet := (j.list? Json.iri?).map Ascending.ofList

def instant (t : Instant) : Json := .string (String.ofList (Rfc3339.exactText t))

def instant? (j : Json) : Option Instant := do Rfc3339.readLenient (← j.string?).toList

end Json

namespace Vocabulary

def toJson (v : Vocabulary) : Json :=
  .object [("iri", .iri v.iri), ("glossary", .option .iri v.glossary),
    ("document", .option .iri v.document), ("imports", .iris v.imports),
    ("language", .option .string v.language)]

def ofJson? (j : Json) : Option Vocabulary := do
  let [iri, glossary, document, imports, language] ←
    j.fields? ["iri", "glossary", "document", "imports", "language"] | none
  return {
    iri := ← Json.required Json.iri? iri
    glossary := ← Json.optional Json.iri? glossary
    document := ← Json.optional Json.iri? document
    imports := ← Json.required Json.iris? imports
    language := ← Json.optional Json.string? language }

end Vocabulary

namespace VocabularyTerm

def toJson (t : VocabularyTerm) : Json :=
  .object [("iri", .iri t.iri), ("vocabulary", .iri t.vocabulary), ("glossary", .iri t.glossary)]

def ofJson? (j : Json) : Option VocabularyTerm := do
  let [iri, vocabulary, glossary] ← j.fields? ["iri", "vocabulary", "glossary"] | none
  return {
    iri := ← Json.required Json.iri? iri
    vocabulary := ← Json.required Json.iri? vocabulary
    glossary := ← Json.required Json.iri? glossary }

end VocabularyTerm

namespace Snapshot

def toJson (s : Snapshot) : Json :=
  .object [("iri", .iri s.iri), ("created", .instant s.created), ("version_of", .iri s.versionOf),
    ("kind", .string s.kind.name)]

def ofJson? (j : Json) : Option Snapshot := do
  let [iri, created, versionOf, kind] ← j.fields? ["iri", "created", "version_of", "kind"] | none
  return {
    iri := ← Json.required Json.iri? iri
    created := ← Json.required Json.instant? created
    versionOf := ← Json.required Json.iri? versionOf
    kind := ← Json.required (fun k => k.constant?.bind SnapshotKind.ofName?) kind }

end Snapshot

namespace VocabularyEvent

def toJson (e : VocabularyEvent) : Json :=
  .object [("event", .string e.change.name), ("vocabulary", .iri e.vocabulary)]

def ofJson? (j : Json) : Option VocabularyEvent := do
  let (name, content) ← j.tagged? "event"
  let [vocabulary] ← content.fields? ["vocabulary"] | none
  return {
    change := ← VocabularyChange.ofName? name
    vocabulary := ← Json.required Json.iri? vocabulary }

end VocabularyEvent

namespace WorkingCopy

def toJson (c : WorkingCopy) : Json :=
  .object [("vocabulary", .iri c.vocabulary), ("context", .iri c.context),
    ("change_tracking_context", .option .iri c.changeTracking)]

def ofJson? (j : Json) : Option WorkingCopy := do
  let [vocabulary, context, changeTracking] ←
    j.fields? ["vocabulary", "context", "change_tracking_context"] | none
  return {
    vocabulary := ← Json.required Json.iri? vocabulary
    context := ← Json.required Json.iri? context
    changeTracking := ← Json.optional Json.iri? changeTracking }

end WorkingCopy

namespace Workspace

def toJson (w : Workspace) : Json :=
  .object [("workspace", .iri w.iri),
    ("vocabularies", .object (w.copies.entries.map fun e => (e.1.text, e.2.toJson)))]

def copiesOfJson? : Json → Option (IriMap WorkingCopy)
  | .object members => do
    let entries ← members.mapM fun m => do return (Iri.mk m.1, ← WorkingCopy.ofJson? m.2)
    return IriMap.ofList entries
  | _ => none

def ofJson? (j : Json) : Option Workspace := do
  let [iri, copies] ← j.fields? ["workspace", "vocabularies"] | none
  return {
    iri := ← Json.required Json.iri? iri
    copies := ← Json.required copiesOfJson? copies }

end Workspace

end SkosArchive
