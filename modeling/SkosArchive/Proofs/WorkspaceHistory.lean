import SkosArchive.Proofs.ArchiveRuns

namespace SkosArchive

theorem Connection.workspace_reliable {c : Connection} {ws : Iri} {w : Workspace}
    (h : c.workspace ws = .ok w) : (reliable c.store).workspace ws = .ok w := by
  obtain ⟨quads, hquads, hdescribed⟩ := bind_eq_ok h
  have hreliable : (reliable c.store).quads { graph := some ws } = .ok quads := by
    have hfind : (reliable c.store).find { graph := some ws } = .ok quads := find_of_quads hquads
    rw [Connection.quads, hfind]
    rfl
  rw [workspace, hreliable]
  exact hdescribed

namespace WorkspaceCache

/-- What becomes of the workspaces read so far. -/
inductive Step where
  | keep
  | lookUp (c : Connection) (workspace : Iri)
  | reload (c : Connection) (workspace : Iri)
  | evict (workspace : Iri)
  | clear

namespace Step

def ofSelection (c : Connection) : Option Iri → Step
  | none => .keep
  | some ws => .lookUp c ws

def apply (cache : WorkspaceCache) : Step → WorkspaceCache
  | .keep => cache
  | .lookUp c ws => (cache.getOrLoad c ws).2
  | .reload c ws => (cache.reload c ws).2
  | .evict ws => (cache.evict ws).2
  | .clear => .empty

/-- The workspace that a step is about, if it is about one. -/
def workspace? : Step → Option Iri
  | .lookUp _ ws => some ws
  | .reload _ ws => some ws
  | .evict ws => some ws
  | _ => none

/-- What the step reads `ws` as: a workspace that is looked up is read only if
there is no entry for it. -/
def loaded? (cache : WorkspaceCache) (ws : Iri) : Step → Option Workspace
  | .lookUp c ws' =>
    if ws' = ws ∧ cache.get? ws = none then (c.workspace ws).toOption else none
  | .reload c ws' => if ws' = ws then (c.workspace ws).toOption else none
  | _ => none

def forgets (ws : Iri) : Step → Bool
  | .evict ws' => ws' = ws
  | .clear => true
  | _ => false

theorem loaded?_of_forgets {step : Step} {cache : WorkspaceCache} {ws : Iri}
    (h : step.forgets ws = true) : step.loaded? cache ws = none := by
  cases step with
  | evict | clear => rfl
  | keep | lookUp | reload => cases h

/-- What the step reads from is the store `s`. -/
def From (s : Store) : Step → Prop
  | .lookUp c _ => c.store = s
  | .reload c _ => c.store = s
  | _ => True

variable {s : Store} {c : Connection}

theorem from_ofSelection (h : c.store = s) (ws : Option Iri) : (ofSelection c ws).From s := by
  cases ws with
  | none => trivial
  | some ws => exact h

theorem From.workspace_of_loaded? {step : Step} (h : step.From s) {cache : WorkspaceCache}
    {ws : Iri} {w : Workspace} (hw : step.loaded? cache ws = some w) :
    (Connection.reliable s).workspace ws = .ok w := by
  cases step with
  | lookUp c ws' =>
      obtain ⟨-, hw⟩ := Option.ite_none_right_eq_some.mp hw
      exact h ▸ Connection.workspace_reliable (toOption_eq_some.mp hw)
  | reload c ws' =>
      obtain ⟨-, hw⟩ := Option.ite_none_right_eq_some.mp hw
      exact h ▸ Connection.workspace_reliable (toOption_eq_some.mp hw)
  | keep | evict | clear => cases hw

end Step

theorem get?_reload (cache : WorkspaceCache) (c : Connection) (ws' ws : Iri) :
    (cache.reload c ws').2.get? ws =
      (if ws' = ws then (c.workspace ws).toOption else none).or (cache.get? ws) := by
  rw [reload]
  cases hread : c.workspace ws' with
  | error e =>
      by_cases hws : ws' = ws
      · subst hws
        rw [if_pos rfl, hread]
        rfl
      · rw [if_neg hws]
        rfl
  | ok w =>
      simp only [get?, IriMap.get?_insert]
      by_cases hws : ws' = ws
      · subst hws
        rw [if_pos rfl, if_pos rfl, hread]
        rfl
      · rw [if_neg hws, if_neg hws]
        rfl

/-- What a step leaves for a workspace: what it reads it as, else what there was,
unless it forgets that. -/
theorem get?_apply (cache : WorkspaceCache) (step : Step) (ws : Iri) :
    (step.apply cache).get? ws =
      if step.forgets ws = true then none else (step.loaded? cache ws).or (cache.get? ws) := by
  cases step with
  | keep => rfl
  | lookUp c ws' =>
      simp only [Step.apply, getOrLoad, Step.forgets, Step.loaded?]
      cases hcached : cache.get? ws' with
      | none =>
          rw [get?_reload]
          by_cases hws : ws' = ws
          · subst hws
            simp [hcached]
          · simp [hws]
      | some w =>
          by_cases hws : ws' = ws
          · subst hws
            simp [hcached]
          · simp [hws]
  | reload c ws' => exact cache.get?_reload c ws' ws
  | evict ws' =>
      simp only [Step.apply, evict, get?, IriMap.get?_erase, Step.forgets, Step.loaded?,
        decide_eq_true_eq, Option.none_or]
  | clear => rfl

theorem get?_apply_of_ne {cache : WorkspaceCache} {step : Step} {ws : Iri}
    (hclear : step ≠ .clear) (hws : step.workspace? ≠ some ws) :
    (step.apply cache).get? ws = cache.get? ws := by
  have hforgets : ¬ step.forgets ws = true := by
    cases step with
    | clear => exact absurd rfl hclear
    | evict ws' =>
        intro h
        exact hws (congrArg some (of_decide_eq_true h))
    | keep | lookUp | reload => exact Bool.false_ne_true
  have hloaded : step.loaded? cache ws = none := by
    cases step with
    | lookUp c ws' => exact if_neg fun h => hws (congrArg some h.1)
    | reload c ws' => exact if_neg fun h => hws (congrArg some h)
    | keep | evict | clear => rfl
  rw [get?_apply, if_neg hforgets, hloaded, Option.none_or]

theorem getOrLoad_of_cached {cache : WorkspaceCache} {ws : Iri} {w : Workspace}
    (h : cache.get? ws = some w) (c : Connection) : cache.getOrLoad c ws = (.ok w, cache) := by
  rw [getOrLoad, h]

theorem reload_of_error {cache : WorkspaceCache} {c : Connection} {ws : Iri} {e : Error}
    (h : (cache.reload c ws).1 = .error e) : (cache.reload c ws).2 = cache := by
  rw [reload] at h ⊢
  cases hread : c.workspace ws with
  | error e => rfl
  | ok w =>
      rw [hread] at h
      cases h

end WorkspaceCache

namespace Archive

open WorkspaceCache (Step)

/-- What a turn does to the workspaces read so far. A snapshot that was created
is an event, and so is every removal that gets as far as its first refresh. -/
def cacheStep (a : Archive) : Turn → Step
  | .call ⟨env, .context _⟩ => .ofSelection (a.connection env) a.selected
  | .call ⟨env, .contextIn ws _⟩ => .lookUp (a.connection env) ws
  | .call ⟨env, .related _ _⟩ =>
    if a.config.relations.resolver.isOk then .ofSelection (a.connection env) a.selected else .keep
  | .call ⟨env, .createSnapshot v⟩ => if (a.createSnapshot env v).1.isOk then .clear else .keep
  | .call ⟨_, .removeSnapshot _⟩ => if a.config.relations.resolver.isOk then .clear else .keep
  | .call ⟨env, .selectWorkspace ws⟩ => .ofSelection (a.connection env) ws
  | .call ⟨env, .workspace ws⟩ => .lookUp (a.connection env) ws
  | .call ⟨env, .reloadWorkspace ws⟩ => .reload (a.connection env) ws
  | .call ⟨_, .event _⟩ => .clear
  | .call _ => .keep
  | .write _ _ => .keep
  | .evict ws => .evict ws

/-- What a turn reads `ws` as, if it reads it and succeeds. -/
def loaded? (a : Archive) (x : Turn) (ws : Iri) : Option Workspace :=
  (a.cacheStep x).loaded? a.workspaces ws

/-- A turn neither reads `ws` nor forgets it. -/
def Spares (ws : Iri) (a : Archive) (x : Turn) : Prop :=
  a.loaded? x ws = none ∧ (a.cacheStep x).forgets ws = false

/-- `s` was stored when `ws` was last read with success, and since then no event
was handled and `ws` was not lost. -/
def LastRead (a : Archive) (turns : List Turn) (ws : Iri) (s : Store) : Prop :=
  ∃ before x after, turns = before ++ x :: after ∧ (a.run before).store = s ∧
    ((a.run before).loaded? x ws).isSome = true ∧
    ((a.run before).turn x).2.Throughout (Spares ws) after

variable {a : Archive} {ws : Iri} {w : Workspace}

theorem workspaces_selectedWorkspace (env : Environment) (a : Archive) :
    (a.selectedWorkspace env).2.workspaces =
      (Step.ofSelection (a.connection env) a.selected).apply a.workspaces := by
  rw [selectedWorkspace]
  cases a.selected with
  | none => rfl
  | some ws => rfl

theorem workspaces_createSnapshot (env : Environment) (a : Archive) (v : Iri) :
    (a.createSnapshot env v).2.workspaces =
      if (a.createSnapshot env v).1.isOk then .empty else a.workspaces := by
  rcases a.createSnapshot_cases env v with ⟨e, -, h⟩ | ⟨updates, -, ⟨cause, -, h⟩ |
    ⟨t, -, snapshot, h⟩⟩
  · rw [h]
    rfl
  · rw [h]
    rfl
  · rw [h]
    exact workspaces_refresh env _

theorem workspaces_removeSnapshot (env : Environment) (a : Archive) (s : Iri) :
    (a.removeSnapshot env s).2.workspaces =
      if a.config.relations.resolver.isOk then .empty else a.workspaces := by
  rw [removeSnapshot]
  cases a.config.relations.resolver with
  | error e => rfl
  | ok resolver =>
      simp only
      split
      · exact workspaces_refresh env a
      · exact workspaces_refresh env _

theorem workspaces_selectWorkspace (env : Environment) (a : Archive) (ws : Option Iri) :
    (a.selectWorkspace env ws).2.workspaces =
      (Step.ofSelection (a.connection env) ws).apply a.workspaces := by
  cases ws with
  | none => rfl
  | some ws =>
      simp only [selectWorkspace]
      split <;> rfl

theorem workspaces_turn (a : Archive) (x : Turn) :
    (a.turn x).2.workspaces = (a.cacheStep x).apply a.workspaces := by
  rcases x with ⟨env, op⟩ | ⟨service, updates⟩ | ws
  · cases op with
    | context v => exact a.workspaces_selectedWorkspace env
    | related v relations =>
        simp only [turn, perform, related, cacheStep]
        cases a.config.relations.resolver with
        | error e => rfl
        | ok resolver => exact a.workspaces_selectedWorkspace env
    | loadContexts =>
        simp only [turn, perform]
        rcases a.loadContexts_cases env with ⟨e, h⟩ | ⟨contexts, h, -⟩
        · rw [h]
          rfl
        · rw [h]
          rfl
    | createSnapshot v =>
        refine (workspaces_createSnapshot env a v).trans ?_
        rw [cacheStep]
        split <;> rfl
    | removeSnapshot s =>
        refine (workspaces_removeSnapshot env a s).trans ?_
        rw [cacheStep]
        split <;> rfl
    | selectWorkspace ws => exact a.workspaces_selectWorkspace env ws
    | event e => exact workspaces_refresh env a
    | flushDrops =>
        simp only [turn, perform, flushDrops]
        split <;> rfl
    | contextIn | workspace | reloadWorkspace | canonicalContext | vocabularyIn | snapshotsOf
    | snapshotValidAt | enqueueDrop => rfl
  · obtain ⟨store, h⟩ := a.write_eq service updates
    rw [h]
    rfl
  · rfl

theorem from_cacheStep (a : Archive) (x : Turn) : (a.cacheStep x).From a.store := by
  rcases x with ⟨env, op⟩ | ⟨service, updates⟩ | ws
  · cases op with
    | context v => exact Step.from_ofSelection rfl a.selected
    | related v relations =>
        rw [cacheStep]
        split
        · exact Step.from_ofSelection rfl a.selected
        · trivial
    | createSnapshot | removeSnapshot =>
        rw [cacheStep]
        split <;> trivial
    | selectWorkspace ws => exact Step.from_ofSelection rfl ws
    | contextIn | workspace | reloadWorkspace => rfl
    | canonicalContext | vocabularyIn | loadContexts | snapshotsOf | snapshotValidAt | event
    | enqueueDrop | flushDrops => trivial
  · trivial
  · trivial

theorem get?_turn {x : Turn} : (a.turn x).2.workspaces.get? ws = some w ↔
    a.loaded? x ws = some w ∨ a.workspaces.get? ws = some w ∧ a.Spares ws x := by
  rw [workspaces_turn, WorkspaceCache.get?_apply]
  by_cases hforgets : (a.cacheStep x).forgets ws = true
  · have hloaded : a.loaded? x ws = none := Step.loaded?_of_forgets hforgets
    rw [if_pos hforgets, hloaded]
    simp [Spares, hforgets]
  · rw [if_neg hforgets, Option.or_eq_some_iff]
    refine or_congr Iff.rfl ?_
    rw [Bool.not_eq_true] at hforgets
    simp only [Spares, loaded?, hforgets, and_true]
    exact and_comm

theorem get?_run {turns : List Turn} : (a.run turns).workspaces.get? ws = some w ↔
    (∃ before x after, turns = before ++ x :: after ∧ (a.run before).loaded? x ws = some w ∧
      ((a.run before).turn x).2.Throughout (Spares ws) after) ∨
    a.workspaces.get? ws = some w ∧ a.Throughout (Spares ws) turns := by
  induction turns generalizing a with
  | nil =>
      constructor
      · exact fun h => .inr ⟨h, trivial⟩
      · rintro (⟨before, x, after, hturns, -⟩ | ⟨h, -⟩)
        · simp at hturns
        · exact h
  | cons x turns ih =>
      rw [run, ih, get?_turn]
      -- what was there before the later turns is there from before `x`, or `x` has read it
      constructor
      · rintro (⟨before, y, after, rfl, hread, hspared⟩ | ⟨hread | ⟨hcached, hspares⟩, hspared⟩)
        · exact .inl ⟨x :: before, y, after, rfl, hread, hspared⟩
        · exact .inl ⟨[], x, turns, rfl, hread, hspared⟩
        · exact .inr ⟨hcached, hspares, hspared⟩
      · rintro (⟨_ | ⟨x', before⟩, y, after, hturns, hread, hspared⟩ | ⟨hcached, hspares, hspared⟩)
        · cases hturns
          exact .inr ⟨.inl hread, hspared⟩
        · cases hturns
          exact .inl ⟨before, y, after, rfl, hread, hspared⟩
        · exact .inr ⟨.inr ⟨hcached, hspares⟩, hspared⟩

theorem get?_run_fresh {config : Config} {s : Store} {contexts : ContextCache}
    {turns : List Turn} :
    ((fresh config s contexts).run turns).workspaces.get? ws = some w ↔
      ∃ t, (fresh config s contexts).LastRead turns ws t ∧
        (Connection.reliable t).workspace ws = .ok w := by
  rw [get?_run]
  constructor
  · rintro (⟨before, x, after, hturns, hread, hspared⟩ | ⟨hcached, -⟩)
    · refine ⟨_, ⟨before, x, after, hturns, rfl, ?_, hspared⟩, ?_⟩
      · rw [hread]
        rfl
      · exact (from_cacheStep _ x).workspace_of_loaded? hread
    · cases hcached
  · rintro ⟨_, ⟨before, x, after, hturns, rfl, hread, hspared⟩, hw⟩
    obtain ⟨w', hw'⟩ := Option.isSome_iff_exists.mp hread
    have hsame := (from_cacheStep _ x).workspace_of_loaded? hw'
    rw [hw] at hsame
    cases hsame
    exact .inl ⟨before, x, after, hturns, hw', hspared⟩

/-- Entries come from reading and stay until they are lost. After any run there is
an entry for `ws` exactly if it was read with success and since then no event was
handled and the entry was not given up; the entry is what the graph `ws` says in
the store of the last such read. It is given without a look at what is stored. A
reading that fails leaves the entry there was, or none. An event leaves no entry,
whether or not contexts could be loaded, and no turn about one workspace touches
the entry of another. -/
theorem workspaces_run (config : Config) (s : Store) (contexts : ContextCache)
    (turns : List Turn) :
    let a := (fresh config s contexts).run turns
    (∀ ws w, a.workspaces.get? ws = some w ↔
      ∃ t, (fresh config s contexts).LastRead turns ws t ∧
        (Connection.reliable t).workspace ws = .ok w) ∧
      (∀ ws w, a.workspaces.get? ws = some w →
        ∀ c, a.workspaces.getOrLoad c ws = (.ok w, a.workspaces)) ∧
      (∀ env ws e, (a.reloadWorkspace env ws).1 = .error e → (a.reloadWorkspace env ws).2 = a) ∧
      (∀ x c ws e, a.cacheStep x = .lookUp c ws → a.workspaces.get? ws = none →
        c.workspace ws = .error e → (a.turn x).2.workspaces = a.workspaces) ∧
      (∀ env event, (a.turn (.call ⟨env, .event event⟩)).2.workspaces = .empty) ∧
      (∀ x, a.cacheStep x = .clear → (a.turn x).2.workspaces = .empty) ∧
      ∀ x ws, a.cacheStep x ≠ .clear → (a.cacheStep x).workspace? ≠ some ws →
        (a.turn x).2.workspaces.get? ws = a.workspaces.get? ws := by
  intro a
  have hturn : ∀ {x step}, a.cacheStep x = step →
      (a.turn x).2.workspaces = step.apply a.workspaces := by
    intro x step h
    rw [workspaces_turn, h]
  refine ⟨fun ws w => get?_run_fresh, fun ws w h => WorkspaceCache.getOrLoad_of_cached h, ?_, ?_,
    fun env event => hturn rfl, fun x h => hturn h, ?_⟩
  · intro env ws e he
    have hkept : (a.workspaces.reload (a.connection env) ws).2 = a.workspaces :=
      WorkspaceCache.reload_of_error he
    change { a with workspaces := (a.workspaces.reload (a.connection env) ws).2 } = a
    rw [hkept]
  · intro x c ws e hx hnone he
    rw [hturn hx, Step.apply, WorkspaceCache.getOrLoad, hnone, WorkspaceCache.reload, he]
  · intro x ws hclear hws
    rw [workspaces_turn]
    exact WorkspaceCache.get?_apply_of_ne hclear hws

theorem workspaces_run_stale :
    ∃ (start a : Archive) (turns : List Turn) (failing : Environment) (old new : Workspace),
      a = start.run turns ∧ (Connection.reliable a.store).workspace ⟨"ws"⟩ = .ok new ∧ old ≠ new ∧
      a.workspaces.get? ⟨"ws"⟩ = some old ∧
      (∃ t, start.LastRead turns ⟨"ws"⟩ t ∧ (Connection.reliable t).workspace ⟨"ws"⟩ = .ok old) ∧
      (∀ c, a.workspaces.getOrLoad c ⟨"ws"⟩ = (.ok old, a.workspaces)) ∧
      (∃ e, (a.reloadWorkspace failing ⟨"ws"⟩).1 = .error e) ∧
      (a.reloadWorkspace failing ⟨"ws"⟩).2 = a ∧
      (a.turn (.call ⟨failing, .contextIn ⟨"x"⟩ ⟨"v"⟩⟩)).2.workspaces = a.workspaces ∧
      (a.turn (.evict ⟨"x"⟩)).2.workspaces.get? ⟨"ws"⟩ = a.workspaces.get? ⟨"ws"⟩ ∧
      (∃ e, (a.turn (.call ⟨failing, .event ⟨.removing, ⟨"v"⟩⟩⟩)).1 = .error e) ∧
      (a.turn (.call ⟨failing, .event ⟨.removing, ⟨"v"⟩⟩⟩)).2.workspaces = .empty ∧
      (a.turn (.call ⟨failing, .removeSnapshot ⟨"v"⟩⟩)).2.workspaces = .empty := by
  let quads : List Quad :=
    [⟨⟨"ws"⟩, Names.type, .iri Names.workspace, ⟨"ws"⟩⟩,
      ⟨⟨"ws"⟩, Names.referencesContext, .iri ⟨"c"⟩, ⟨"ws"⟩⟩,
      ⟨⟨"c"⟩, Names.basedOnVocabulary, .iri ⟨"v"⟩, ⟨"ws"⟩⟩]
  let changed : List Quad :=
    [⟨⟨"ws"⟩, Names.referencesContext, .iri ⟨"b"⟩, ⟨"ws"⟩⟩,
      ⟨⟨"b"⟩, Names.basedOnVocabulary, .iri ⟨"v"⟩, ⟨"ws"⟩⟩]
  let env : Environment := .reliable ⟨1700000000, 0, by decide, by decide⟩
  let failing : Environment := ⟨env.now, FaultFlags.faults { finds := true }⟩
  let turns : List Turn :=
    [.call ⟨env, .selectWorkspace (some ⟨"ws"⟩)⟩, .write env.service [.insert changed],
      .call ⟨env, .context ⟨"v"⟩⟩]
  let start : Archive := fresh .standard (.ofQuads quads) .empty
  let a : Archive := start.run turns
  let old : Workspace := (Workspace.empty ⟨"ws"⟩).withCopy ⟨⟨"v"⟩, ⟨"c"⟩, none⟩
  let new : Workspace := (Workspace.empty ⟨"ws"⟩).withCopy ⟨⟨"v"⟩, ⟨"b"⟩, none⟩
  obtain ⟨hread, hcached, hreload, hlookUp, hevent, hclear, hother⟩ :=
    workspaces_run .standard (.ofQuads quads) .empty turns
  have hold : a.workspaces.get? ⟨"ws"⟩ = some old := by decide +kernel
  have hfails : (a.reloadWorkspace failing ⟨"ws"⟩).1 = .error (.persistence .callFailed) := by
    decide +kernel
  have hmissing : (a.connection failing).workspace ⟨"x"⟩ = .error (.persistence .callFailed) := by
    decide +kernel
  refine ⟨start, a, turns, failing, old, new, rfl, by decide +kernel, by decide, hold,
    (hread _ _).mp hold, hcached _ _ hold, ⟨_, hfails⟩, hreload _ _ _ hfails,
    hlookUp _ _ _ _ rfl (by decide +kernel) hmissing, hother _ _ nofun (by decide), ?_,
    hevent _ _, hclear _ rfl⟩
  exact ⟨.persistence .callFailed, by decide +kernel⟩

end Archive

end SkosArchive
