import SkosArchive.Config.Basic
import SkosArchive.Relation.Related
import SkosArchive.Snapshot.Lookup

namespace SkosArchive

/-- What one vocabulary contributes to a cascade. -/
structure CopyPlan where
  found : Located
  terms : List VocabularyTerm
deriving DecidableEq

namespace CopyPlan

def iri (p : CopyPlan) : Iri := p.found.vocabulary.iri

/-- The resources whose descriptions are copied. -/
def owned (p : CopyPlan) : List Iri :=
  p.iri :: p.found.vocabulary.glossary.toList ++ p.found.vocabulary.document.toList ++
    p.terms.map VocabularyTerm.iri

end CopyPlan

/-- A cascade: the vocabularies to be copied under one suffix at one time. -/
structure Cascade where
  plans : List CopyPlan
  created : Instant
  suffix : String
deriving DecidableEq

namespace Cascade

def owned (k : Cascade) : List Iri := k.plans.flatMap CopyPlan.owned

/-- The new name of a resource that any vocabulary of the cascade owns; other
resources keep theirs. -/
def rename (k : Cascade) (i : Iri) : Iri := if i ∈ k.owned then i.withSuffix k.suffix else i

def renameTerm (k : Cascade) : Term → Term
  | .iri i => .iri (k.rename i)
  | .literal l => .literal l

def target (k : Cascade) (p : CopyPlan) : Iri := p.iri.withSuffix k.suffix

/-- A quad about what `p` owns, renamed and moved to the snapshot graph. -/
def copy (k : Cascade) (p : CopyPlan) (q : Quad) : Quad where
  subject := k.rename q.subject
  predicate := q.predicate
  object := k.renameTerm q.object
  graph := k.target p

/-- The quads of the vocabulary's context about what it owns, copied. -/
def copied (k : Cascade) (p : CopyPlan) (source : List Quad) : List Quad :=
  (source.filter fun q => q.subject ∈ p.owned).map (k.copy p)

/-- What makes the renamed `live` a snapshot of it. -/
def tags (k : Cascade) (p : CopyPlan) (kind : SnapshotKind) (live : Iri) : List Quad :=
  let snapshot := k.rename live
  [⟨snapshot, Names.type, .iri kind.type, k.target p⟩,
    ⟨snapshot, Names.versionOf, .iri live, k.target p⟩,
    ⟨snapshot, Names.created, .literal (.ofInstant k.created), k.target p⟩]

/-- The quads of one snapshot graph. -/
def graphQuads (k : Cascade) (p : CopyPlan) (source : List Quad) : List Quad :=
  k.copied p source ++ k.tags p .vocabulary p.iri ++
    p.terms.flatMap fun t => k.tags p .term t.iri

end Cascade

namespace Catalogue

/-- The vocabularies of the cascade that are live and have a description; the
origin must have one. -/
def plans (c : Catalogue) (origin : Iri) : List Iri → Except Error (List CopyPlan)
  | [] => .ok []
  | vocabulary :: vocabularies => do
    if ← c.connection.isSnapshot vocabulary then c.plans origin vocabularies
    else match ← c.find vocabulary with
      | none =>
        if vocabulary = origin then .error (.notFound .vocabulary vocabulary)
        else c.plans origin vocabularies
      | some found =>
        let terms ← c.terms found
        let rest ← c.plans origin vocabularies
        return ⟨found, terms⟩ :: rest

/-- Fails if one of the graphs to be written exists. -/
def checkTargets (c : Catalogue) (cascade : Cascade) : List CopyPlan → Except Error Unit
  | [] => .ok ()
  | plan :: plans => do
    let target := cascade.target plan
    if ← c.connection.holds { graph := some target } then .error (.snapshotConflict target)
    else c.checkTargets cascade plans

def cascadeQuads (c : Catalogue) (cascade : Cascade) : List CopyPlan → Except Error (List Quad)
  | [] => .ok []
  | plan :: plans => do
    let source ← c.connection.quads { graph := some plan.found.context }
    let rest ← c.cascadeQuads cascade plans
    return cascade.graphQuads plan source ++ rest

/-- The cascade of a snapshot of `vocabulary` taken now. -/
def cascade (c : Catalogue) (resolver : Resolver) (config : SnapshotConfig) (now : Instant)
    (vocabulary : Iri) : Except Error Cascade := do
  let related ← c.related resolver config.cascade vocabulary
  let plans ← c.plans vocabulary related.toList
  return { plans, created := now.truncate, suffix := Snapshot.suffix config.separator now }

/-- The quads that a snapshot of `vocabulary` and of its related vocabularies
consists of. -/
def snapshotQuads (c : Catalogue) (resolver : Resolver) (config : SnapshotConfig)
    (now : Instant) (vocabulary : Iri) : Except Error (List Quad) := do
  if ← c.connection.isSnapshot vocabulary then .error (.alreadySnapshot vocabulary)
  else if !(← c.connection.isDeclared vocabulary) then .error (.notFound .vocabulary vocabulary)
  else
    let cascade ← c.cascade resolver config now vocabulary
    c.checkTargets cascade cascade.plans
    c.cascadeQuads cascade cascade.plans

/-- Takes a snapshot of `vocabulary` and of its related vocabularies, all of
one time and written in one step. The snapshot returned is that of the
vocabulary itself. -/
def createSnapshot (c : Catalogue) (resolver : Resolver) (config : SnapshotConfig)
    (now : Instant) (vocabulary : Iri) : Except Error (Snapshot × Store) := do
  let quads ← c.snapshotQuads resolver config now vocabulary
  let store ← (c.connection.insert quads).mapError .persistence
  return ({ iri := vocabulary.withSuffix (Snapshot.suffix config.separator now)
            created := now.truncate, versionOf := vocabulary, kind := .vocabulary }, store)

end Catalogue

end SkosArchive
