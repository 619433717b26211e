import SkosArchive.Config.Basic
import SkosArchive.Json.Value

namespace SkosArchive

namespace RelationSet

def toJson (s : RelationSet) : Json := .list (fun p => .string p.name) s.toList

def ofJson? (j : Json) : Option RelationSet :=
  (j.list? fun p => p.constant?.bind SkosProperty.ofName?).map Ascending.ofList

end RelationSet

namespace RelationConfig

def toJson (c : RelationConfig) : Json :=
  .object [("strategy", .string c.strategy.name), ("skos_relations", c.properties.toJson),
    ("external_link_graph", .option .iri c.linkGraph)]

def ofJson? (j : Json) : Option RelationConfig := do
  let [strategy, properties, linkGraph] ←
    j.settings? ["strategy", "skos_relations", "external_link_graph"] | none
  return {
    strategy := ← Json.defaulted standard.strategy
      (fun s => s.constant?.bind Strategy.ofName?) strategy
    properties := ← Json.defaulted standard.properties RelationSet.ofJson? properties
    linkGraph := ← Json.defaulted standard.linkGraph (Json.option? Json.iri?) linkGraph }

end RelationConfig

namespace SnapshotConfig

def toJson (c : SnapshotConfig) : Json :=
  .object [("separator", .string c.separator), ("cascade_relations", c.cascade.toJson)]

def ofJson? (j : Json) : Option SnapshotConfig := do
  let [separator, cascade] ← j.settings? ["separator", "cascade_relations"] | none
  return {
    separator := ← Json.defaulted standard.separator Json.string? separator
    cascade := ← Json.defaulted standard.cascade RelationSet.ofJson? cascade }

end SnapshotConfig

namespace DropConfig

def toJson (c : DropConfig) : Json :=
  .object [("flush_interval_secs", .integer c.flushSeconds.toNat)]

def ofJson? (j : Json) : Option DropConfig := do
  let [flushSeconds] ← j.settings? ["flush_interval_secs"] | none
  return { flushSeconds := ← Json.defaulted standard.flushSeconds Json.word? flushSeconds }

end DropConfig

namespace Config

def toJson (c : Config) : Json :=
  .object [("context_cache", .bool c.contextCache), ("relations", c.relations.toJson),
    ("snapshot", c.snapshots.toJson), ("drop_queue", c.drops.toJson)]

def ofJson? (j : Json) : Option Config := do
  let [contextCache, relations, snapshots, drops] ←
    j.settings? ["context_cache", "relations", "snapshot", "drop_queue"] | none
  return {
    contextCache := ← Json.defaulted standard.contextCache Json.bool? contextCache
    relations := ← Json.defaulted standard.relations RelationConfig.ofJson? relations
    snapshots := ← Json.defaulted standard.snapshots SnapshotConfig.ofJson? snapshots
    drops := ← Json.defaulted standard.drops DropConfig.ofJson? drops }

end Config

end SkosArchive
