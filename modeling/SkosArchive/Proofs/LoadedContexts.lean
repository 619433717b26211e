import SkosArchive.Proofs.Invisibility

namespace SkosArchive

namespace Store

def declarationIn (context : Iri) : Pattern :=
  { graph := some context, predicate := some Names.type
    object := some (.iri Names.vocabulary) }

/-- The first vocabulary that `context` declares, read straight from the rows. -/
def vocabularyIn (s : Store) (context : Iri) : Option Iri :=
  (s.quads (declarationIn context)).head?.map Quad.subject

theorem quads_declarationIn (s : Store) (g : Iri) :
    s.quads (declarationIn g) =
      (s.quads { predicate := some Names.type
                 object := some (.iri Names.vocabulary) }).filter fun q => q.graph = g := by
  refine Eq.trans ?_ (ContextIndex.filter_read (fun a _ => decide (a = g)) _)
  rw [quads, select, select, List.filter_filter]
  refine congrArg _ (List.filter_congr fun r _ => Bool.eq_iff_iff.mpr ?_)
  simp only [declarationIn, Pattern.covers, Option.all_some, Option.all_none, Bool.and_true,
    Bool.true_and, Bool.and_eq_true, decide_eq_true_eq, and_assoc]
  exact and_congr eq_comm Iff.rfl

end Store

namespace Connection

theorem reliable_vocabularyIn (s : Store) (arrival : Row → Nat) (g : Iri) :
    (reliable s arrival).vocabularyIn g = .ok (s.vocabularyIn g) := by
  have hread : (reliable s arrival).quads (Store.declarationIn g) =
      .ok (s.quads (Store.declarationIn g)) := by
    rw [reliable_quads rfl fun r _ hcovers =>
      Row.exists_toQuad_of_iri (Pattern.object_of_covers rfl hcovers).1,
      Store.answered_eq_quads rfl]
  exact congrArg (· >>= fun quads => .ok (quads.head?.map Quad.subject)) hread

end Connection

namespace ContextIndex

variable {c : Connection} {index : ContextIndex}

theorem exists_build {s : Store} (h : s.Readable) (arrival : Row → Nat) :
    ∃ index, build (.reliable s arrival) = .ok index := by
  have hfind : ∀ p : Pattern, p.limit = none →
      (Connection.reliable s arrival).find p = .ok (s.answered arrival p) :=
    fun p hp => Store.find_eq_answered hp fun r hr _ => h r hr
  simp only [build, hfind, ok_bind]
  exact ⟨_, rfl⟩

/-- The index keeps the first declaration of each graph, which is the one that a
query for that graph alone gives first. -/
theorem vocabularyIn_build (h : build c = .ok index) (g : Iri) :
    index.vocabularyIn g = c.store.vocabularyIn g := by
  rw [build_eq_ok h, vocabularyIn, Store.vocabularyIn, Store.quads_declarationIn, List.find?_map,
    List.head?_filter, Option.map_map]
  rfl

theorem contextOf_eq_direct {s : Store} {service : Service} (h : build ⟨s, service⟩ = .ok index)
    (v : Iri) : index.contextOf v = (Connection.reliable s).contextOf v := by
  rw [contextOf_build h]
  exact (Connection.contextOf_eq (c := .reliable s)
    (Connection.uninterrupted_contextOf (fun _ => rfl) h (fun _ => id) v)).symm

theorem vocabularyIn_eq_direct {s : Store} {service : Service} (h : build ⟨s, service⟩ = .ok index)
    (g : Iri) : .ok (index.vocabularyIn g) = (Connection.reliable s).vocabularyIn g := by
  rw [vocabularyIn_build h, Connection.reliable_vocabularyIn]

end ContextIndex

namespace ContextCache

/-- The index is one of the contents of the store `copy`, and without such a
store there is none. -/
def Remembers (cache : ContextCache) : (copy : Option Store) → Prop
  | none => cache.index = none
  | some s => ∃ index service, cache.index = some index ∧
      ContextIndex.build ⟨s, service⟩ = .ok index

variable {cache : ContextCache} {copy : Option Store} {c : Connection}

theorem Remembers.contextOf (h : cache.Remembers copy) (v : Iri) :
    cache.contextOf c v = ((copy.map (Connection.reliable ·)).getD c).contextOf v := by
  cases copy with
  | none => rw [ContextCache.contextOf, show cache.index = none from h]; rfl
  | some s =>
      obtain ⟨index, service, hindex, hbuild⟩ := h
      rw [ContextCache.contextOf, hindex]
      exact ContextIndex.contextOf_eq_direct hbuild v

theorem Remembers.vocabularyIn (h : cache.Remembers copy) (g : Iri) :
    cache.vocabularyIn c g = ((copy.map (Connection.reliable ·)).getD c).vocabularyIn g := by
  cases copy with
  | none => rw [ContextCache.vocabularyIn, show cache.index = none from h]; rfl
  | some s =>
      obtain ⟨index, service, hindex, hbuild⟩ := h
      rw [ContextCache.vocabularyIn, hindex]
      exact ContextIndex.vocabularyIn_eq_direct hbuild g

theorem reload_cases (cache : ContextCache) (c : Connection) :
    (cache.reload c).1 = .ok () ∧ (cache.reload c).2.Remembers (some c.store) ∨
      (∃ e, (cache.reload c).1 = .error e) ∧ (cache.reload c).2 = cache := by
  simp only [reload, load]
  cases hbuild : ContextIndex.build c with
  | ok index => exact .inl ⟨rfl, index, c.service, rfl, hbuild⟩
  | error e => exact .inr ⟨⟨_, rfl⟩, rfl⟩

end ContextCache

/-- What is asked of a store and of the contexts that are read through a cache. -/
inductive ContextCall where
  | write (updates : List Update)
  | load
  | contextOf (vocabulary : Iri)
  | vocabularyIn (context : Iri)

inductive ContextAnswer where
  | written (outcome : Except StorageError Unit)
  | loaded (outcome : Except Error Unit)
  | context (outcome : Except Error Iri)
  | vocabulary (outcome : Except Error (Option Iri))
deriving DecidableEq

/-- A store and the cache through which its contexts are read. -/
structure ContextReader where
  store : Store
  cache : ContextCache
deriving DecidableEq

namespace ContextReader

def fresh (s : Store) : ContextReader := ⟨s, .empty⟩

def perform (m : ContextReader) (service : Service) : ContextCall → ContextAnswer × ContextReader
  | .write updates =>
    match Connection.apply ⟨m.store, service⟩ updates with
    | .ok s => (.written (.ok ()), { m with store := s })
    | .error e => (.written (.error e), m)
  | .load =>
    let (outcome, cache) := m.cache.reload ⟨m.store, service⟩
    (.loaded outcome, { m with cache })
  | .contextOf v => (.context (m.cache.contextOf ⟨m.store, service⟩ v), m)
  | .vocabularyIn g => (.vocabulary (m.cache.vocabularyIn ⟨m.store, service⟩ g), m)

/-- The reader after a list of calls, each with the storage calls that fail
while it runs. -/
def run (m : ContextReader) : List (Service × ContextCall) → ContextReader
  | [] => m
  | (service, call) :: calls => (m.perform service call).2.run calls

/-- What was stored when a load of the run last answered that it succeeded, or
`copy` if none did. -/
def latestLoad (m : ContextReader) (copy : Option Store) :
    List (Service × ContextCall) → Option Store
  | [] => copy
  | (service, call) :: calls =>
    let (answer, next) := m.perform service call
    next.latestLoad (if answer = .loaded (.ok ()) then some m.store else copy) calls

variable {m : ContextReader} {copy : Option Store}

theorem remembers_perform (h : m.cache.Remembers copy) (service : Service) (call : ContextCall) :
    (m.perform service call).2.cache.Remembers
      (if (m.perform service call).1 = .loaded (.ok ()) then some m.store else copy) := by
  cases call with
  | write updates =>
      rw [perform]
      cases Connection.apply ⟨m.store, service⟩ updates with
      | ok s => exact h
      | error e => exact h
  | load =>
      change (m.cache.reload ⟨m.store, service⟩).2.Remembers
        (if ContextAnswer.loaded (m.cache.reload ⟨m.store, service⟩).1 = .loaded (.ok ())
          then some m.store else copy)
      rcases m.cache.reload_cases ⟨m.store, service⟩ with ⟨hok, hloaded⟩ | ⟨⟨e, he⟩, hkept⟩
      · rw [hok, if_pos rfl]
        exact hloaded
      · rw [he, hkept, if_neg (by simp)]
        exact h
  | contextOf v => exact h
  | vocabularyIn g => exact h

theorem remembers_run (h : m.cache.Remembers copy) (calls : List (Service × ContextCall)) :
    (m.run calls).cache.Remembers (m.latestLoad copy calls) := by
  induction calls generalizing m copy with
  | nil => exact h
  | cons call calls ih => exact ih (remembers_perform h call.1 call.2)

/-- After any run, contexts are answered as by the store of the latest load that
succeeded, asked directly, and as by the current store until there is one. A
load that fails leaves everything as it was. -/
theorem run_answers_latestLoad (s : Store) (calls : List (Service × ContextCall))
    (service : Service) :
    let m := (fresh s).run calls
    let source :=
      (((fresh s).latestLoad none calls).map (Connection.reliable ·)).getD ⟨m.store, service⟩
    (∀ v, (m.perform service (.contextOf v)).1 = .context (source.contextOf v)) ∧
      (∀ g, (m.perform service (.vocabularyIn g)).1 = .vocabulary (source.vocabularyIn g)) ∧
      ∀ e, (m.perform service .load).1 = .loaded (.error e) → (m.perform service .load).2 = m := by
  intro m source
  have hfresh : (fresh s).cache.Remembers none := rfl
  have hcache : m.cache.Remembers ((fresh s).latestLoad none calls) := remembers_run hfresh calls
  refine ⟨fun v => congrArg _ (hcache.contextOf v), fun g => congrArg _ (hcache.vocabularyIn g),
    fun e he => ?_⟩
  rcases m.cache.reload_cases ⟨m.store, service⟩ with ⟨hok, -⟩ | ⟨-, hkept⟩
  · have hanswer : (m.perform service .load).1 = .loaded (.ok ()) := congrArg _ hok
    cases hanswer.symm.trans he
  · change { m with cache := (m.cache.reload ⟨m.store, service⟩).2 } = m
    rw [hkept]

theorem run_answers_latestLoad_stale :
    ∃ (calls : List (Service × ContextCall)) (service : Service) (m : ContextReader) (e : Error),
      m = (fresh .linkedPair).run calls ∧
        (Connection.reliable m.store).contextOf ⟨"v"⟩ =
          .error (.ambiguousContext ⟨"v"⟩ (Ascending.ofList [⟨"u"⟩, ⟨"v"⟩])) ∧
        (m.perform service (.contextOf ⟨"v"⟩)).1 = .context (.ok ⟨"v"⟩) ∧
        (m.perform service .load).1 = .loaded (.error e) ∧ (m.perform service .load).2 = m := by
  let service : Service := FaultFlags.faults { finds := true }
  let declared : Quad := ⟨⟨"v"⟩, Names.type, .iri Names.vocabulary, ⟨"u"⟩⟩
  let calls : List (Service × ContextCall) :=
    [({}, .load), ({}, .write [.insert [declared]]), (service, .load)]
  obtain ⟨hcontext, -, hload⟩ := run_answers_latestLoad .linkedPair calls service
  have hfails : (((fresh .linkedPair).run calls).perform service .load).1 =
      .loaded (.error (.persistence .callFailed)) := by decide +kernel
  refine ⟨calls, service, _, _, rfl, by decide +kernel, ?_, hfails, hload _ hfails⟩
  rw [hcontext]
  decide +kernel

end ContextReader

end SkosArchive
