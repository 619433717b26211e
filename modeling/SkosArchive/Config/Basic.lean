import SkosArchive.Relation.Property
import SkosArchive.Relation.Strategy
import SkosArchive.Text.Blank

namespace SkosArchive

structure RelationConfig where
  strategy : Strategy
  /-- What is followed when a caller names no properties. -/
  properties : RelationSet
  linkGraph : Option Iri
deriving DecidableEq

structure SnapshotConfig where
  /-- Stands between the name of a resource and the time of its snapshot. -/
  separator : String
  /-- What pulls related vocabularies into a snapshot. -/
  cascade : RelationSet
deriving DecidableEq

structure DropConfig where
  flushSeconds : UInt64
deriving DecidableEq

structure Config where
  contextCache : Bool
  relations : RelationConfig
  snapshots : SnapshotConfig
  drops : DropConfig
deriving DecidableEq

namespace RelationConfig

def standard : RelationConfig :=
  { strategy := .recursive, properties := .standard, linkGraph := none }

def resolver (c : RelationConfig) : Except ConfigError Resolver := c.strategy.resolver c.linkGraph

end RelationConfig

namespace SnapshotConfig

def standard : SnapshotConfig := { separator := "/version", cascade := .standard }

end SnapshotConfig

namespace DropConfig

def standard : DropConfig := { flushSeconds := 60 }

/-- The seconds from which on an interval is too long for the clock. -/
def intervalLimit : Nat := 9223372036854775807

/-- The time between two flushes in milliseconds. An interval that is too long
for the clock counts as thirty years of 365 days. -/
def period (c : DropConfig) : Nat :=
  let seconds := c.flushSeconds.toNat
  1000 * if seconds < intervalLimit then seconds else 30 * 365 * 86400

end DropConfig

namespace Config

def standard : Config :=
  { contextCache := true, relations := .standard, snapshots := .standard, drops := .standard }

def check (c : Config) : Except ConfigError Unit :=
  let separator := c.snapshots.separator
  if separator.isEmpty || separator.toList.any Text.isBlank then
    .error (.unfitSeparator separator)
  else if c.relations.strategy = .externalLink ∧ c.relations.linkGraph = none then
    .error .linkGraphUnset
  else if c.drops.flushSeconds = 0 then .error .zeroInterval
  else .ok ()

end Config

end SkosArchive
