import SkosArchive.Proofs.ArchiveRuns
import SkosArchive.Proofs.Traversal

namespace SkosArchive

theorem eraseDups_of_nodup {α : Type} [DecidableEq α] {l : List α} (h : l.Nodup) :
    l.eraseDups = l := by
  induction l with
  | nil => rfl
  | cons a l ih =>
      obtain ⟨ha, hl⟩ := List.nodup_cons.mp h
      have hfilter : l.filter (fun b => !b == a) = l := by
        apply List.filter_eq_self.mpr
        rintro b hb
        simp only [Bool.not_eq_true', beq_eq_false_iff_ne, ne_eq]
        rintro rfl
        exact ha hb
      rw [List.eraseDups_cons, hfilter, ih hl]

theorem DropQueue.pending_enqueue {q : DropQueue} {queued : List Iri}
    (h : q.pending = queued.eraseDups) (g : Iri) :
    (q.enqueue g).pending = (queued ++ [g]).eraseDups := by
  have hmem : g ∈ q.pending ↔ g ∈ queued := by rw [h, List.mem_eraseDups]
  rw [List.eraseDups_append, enqueue]
  by_cases hg : g ∈ queued
  · rw [dif_pos (hmem.mpr hg), h]
    simp [List.removeAll, hg]
  · rw [dif_neg (hmem.not.mpr hg), ← h]
    simp [List.removeAll, hg, List.eraseDups_cons]

theorem DropQueue.flush_cases (q : DropQueue) (c : Connection) :
    (∃ t, q.flush c = (.ok (q.size, t), .empty) ∧ t.sealed = c.store.sealed ∧
      ∀ r, r ∈ t.rows ↔ r ∈ c.store.rows ∧ r.graph ∉ q.pending) ∨
      ∃ e, q.flush c = (.error e, q) := by
  rw [flush]
  by_cases hempty : q.isEmpty = true
  · rw [if_pos hempty, eq_empty_of_isEmpty hempty]
    exact .inl ⟨c.store, rfl, rfl, fun r => (and_iff_left List.not_mem_nil).symm⟩
  · rw [if_neg hempty, enqueueAll_pending]
    obtain ⟨t, ht, hsealed, hrows⟩ := c.store.apply_dropGraph q.pending
    rw [Connection.apply, ht, Connection.attempt]
    cases c.service.fails c.store (.apply (q.pending.map Update.dropGraph)) with
    | some e => exact .inr ⟨e, rfl⟩
    | none => exact .inl ⟨t, rfl, hsealed, hrows⟩

namespace Turn

/-- The graph that a turn puts into the queue. -/
def queued? : Turn → Option Iri
  | .call ⟨_, .enqueueDrop g⟩ => some g
  | _ => none

def isFlush : Turn → Bool
  | .call ⟨_, .flushDrops⟩ => true
  | _ => false

theorem queue_cases (x : Turn) :
    (∃ env g, x = .call ⟨env, .enqueueDrop g⟩) ∨ (∃ env, x = .call ⟨env, .flushDrops⟩) ∨
      x.queued? = none ∧ x.isFlush = false := by
  rcases x with ⟨env, op⟩ | _ | _
  · cases op with
    | enqueueDrop g => exact .inl ⟨env, g, rfl⟩
    | flushDrops => exact .inr (.inl ⟨env, rfl⟩)
    | _ => exact .inr (.inr ⟨rfl, rfl⟩)
  · exact .inr (.inr ⟨rfl, rfl⟩)
  · exact .inr (.inr ⟨rfl, rfl⟩)

end Turn

namespace Archive

/-- A flush that succeeds. -/
def FlushedBy (a : Archive) (x : Turn) : Prop :=
  x.isFlush = true ∧ (a.turn x).1.isOk = true

instance (a : Archive) (x : Turn) : Decidable (a.FlushedBy x) :=
  inferInstanceAs (Decidable (_ ∧ _))

/-- What has been queued since the last flush that succeeded, in the order of
queueing and with repetitions, where `queued` was before. -/
def queuedSince (a : Archive) (queued : List Iri) : List Turn → List Iri
  | [] => queued
  | x :: turns =>
    (a.turn x).2.queuedSince (if a.FlushedBy x then [] else queued ++ x.queued?.toList) turns

/-- No flush of the run succeeds. -/
def Unflushed (a : Archive) (turns : List Turn) : Prop :=
  a.Throughout (fun a x => ¬ a.FlushedBy x) turns

/-- A flush has dropped `n` graphs: the rows of `graphs` are gone and all others
are as before, nothing is left in the queue, and nothing else has changed. -/
structure Flushed (a : Archive) (graphs : List Iri) (n : Nat) (a' : Archive) : Prop where
  count : n = graphs.length
  rows : ∀ r, r ∈ a'.store.rows ↔ r ∈ a.store.rows ∧ r.graph ∉ graphs
  sealed : a'.store.sealed = a.store.sealed
  emptied : a'.drops = .empty
  others : a' = { a with store := a'.store, drops := a'.drops }

variable {a : Archive}

theorem flushDrops_outcome (env : Environment) (a : Archive) :
    (∃ n, (a.flushDrops env).1 = .ok n ∧ a.Flushed a.drops.pending n (a.flushDrops env).2) ∨
      (∃ e, (a.flushDrops env).1 = .error e) ∧ (a.flushDrops env).2 = a := by
  rcases a.drops.flush_cases (a.connection env) with ⟨t, hflush, hsealed, hrows⟩ | ⟨e, hflush⟩
  · rw [flushDrops, hflush]
    exact .inl ⟨a.drops.size, rfl, rfl, hrows, hsealed, rfl, rfl⟩
  · rw [flushDrops, hflush]
    exact .inr ⟨⟨e, rfl⟩, rfl⟩

theorem drops_perform (env : Environment) (a : Archive) {op : Operation}
    (hqueue : (Turn.call ⟨env, op⟩).queued? = none)
    (hflush : (Turn.call ⟨env, op⟩).isFlush = false) : (a.perform env op).2.drops = a.drops := by
  have hworkspaces : ∀ a' : Archive, (∃ workspaces, a' = { a with workspaces }) →
      a'.drops = a.drops := by
    rintro _ ⟨workspaces, rfl⟩
    rfl
  cases op with
  | context v => exact hworkspaces _ (a.selectedWorkspace_eq env)
  | contextIn ws v => exact hworkspaces _ (a.workspace_eq env ws)
  | canonicalContext | vocabularyIn | snapshotsOf | snapshotValidAt => rfl
  | loadContexts => exact (drops_refresh env a)
  | related v relations => exact hworkspaces _ (a.related_eq env v relations)
  | createSnapshot v =>
      simp only [perform]
      rcases a.createSnapshot_cases env v with ⟨e, -, hr⟩ | ⟨updates, -, ⟨cause, -, hr⟩ |
        ⟨t, -, snapshot, hr⟩⟩
      · rw [hr]
      · rw [hr]
      · rw [hr]
        exact drops_refresh env _
  | removeSnapshot s =>
      simp only [perform]
      rcases a.removeSnapshot_cases env s with ⟨e, -, hr | hr⟩ | ⟨updates, -, ⟨cause, -, hr⟩ |
        ⟨t, -, graphs, hr⟩⟩
      · rw [hr]
      · rw [hr]
        exact drops_refresh env a
      · rw [hr]
        exact drops_refresh env a
      · rw [hr]
        exact (drops_refresh env _).trans (drops_refresh env a)
  | selectWorkspace ws =>
      cases ws with
      | none => rfl
      | some ws =>
          have hread := hworkspaces _ (a.workspace_eq env ws)
          simp only [perform, selectWorkspace]
          cases (a.workspace env ws).1 with
          | error e => exact hread
          | ok w => exact hread
  | workspace ws => exact hworkspaces _ (a.workspace_eq env ws)
  | reloadWorkspace ws => exact hworkspaces _ (a.reloadWorkspace_eq env ws)
  | event e => exact drops_refresh env a
  | enqueueDrop g => cases hqueue
  | flushDrops => cases hflush

theorem drops_turn (a : Archive) {x : Turn} (hqueue : x.queued? = none)
    (hflush : x.isFlush = false) : (a.turn x).2.drops = a.drops := by
  cases x with
  | call call => exact drops_perform call.env a hqueue hflush
  | write service updates =>
      obtain ⟨store, h⟩ := a.write_eq service updates
      rw [h]
  | evict ws => rfl

theorem flushedBy_iff {env : Environment} :
    a.FlushedBy (.call ⟨env, .flushDrops⟩) ↔ ∃ n, (a.flushDrops env).1 = .ok n := by
  simp only [FlushedBy, Turn.isFlush, turn, perform, true_and]
  cases (a.flushDrops env).1 with
  | error e =>
      refine iff_of_false Bool.false_ne_true ?_
      rintro ⟨n, hn⟩
      cases hn
  | ok n => exact iff_of_true rfl ⟨n, rfl⟩

theorem pending_turn {queued : List Iri} (h : a.drops.pending = queued.eraseDups) (x : Turn) :
    (a.turn x).2.drops.pending =
      (if a.FlushedBy x then [] else queued ++ x.queued?.toList).eraseDups := by
  rcases x.queue_cases with ⟨env, g, rfl⟩ | ⟨env, rfl⟩ | ⟨hqueue, hflush⟩
  · rw [if_neg (fun hflushed => nomatch hflushed.1)]
    exact DropQueue.pending_enqueue h g
  · change (a.flushDrops env).2.drops.pending = _
    rcases a.flushDrops_outcome env with ⟨n, hn, hflushed⟩ | ⟨⟨e, he⟩, hkept⟩
    · rw [if_pos (flushedBy_iff.mpr ⟨n, hn⟩), hflushed.emptied]
      rfl
    · have hfailed : ¬ a.FlushedBy (.call ⟨env, .flushDrops⟩) := by
        rw [flushedBy_iff, he]
        rintro ⟨n, hn⟩
        cases hn
      rw [if_neg hfailed, hkept, h]
      exact congrArg List.eraseDups (List.append_nil queued).symm
  · have hunflushed : ¬ a.FlushedBy x := fun hflushed =>
      Bool.false_ne_true (hflush.symm.trans hflushed.1)
    rw [if_neg hunflushed, drops_turn a hqueue hflush, h, hqueue]
    exact congrArg List.eraseDups (List.append_nil queued).symm

theorem pending_run {queued : List Iri} (h : a.drops.pending = queued.eraseDups)
    (turns : List Turn) :
    (a.run turns).drops.pending = (a.queuedSince queued turns).eraseDups := by
  induction turns generalizing a queued with
  | nil => exact h
  | cons x turns ih => exact ih (pending_turn h x)

theorem flushDue_eq_run (env : Environment) (a : Archive) (start stop : Nat) :
    a.flushDue env start stop =
      a.run (.replicate (DropQueue.flushesDue a.config.drops.period start stop)
        (.call ⟨env, .flushDrops⟩)) := by
  rw [flushDue]
  generalize DropQueue.flushesDue a.config.drops.period start stop = n
  induction n generalizing a with
  | zero => rfl
  | succ n ih => exact ih _

theorem queuedSince_of_unflushed {turns : List Turn} (h : a.Unflushed turns) (queued : List Iri) :
    a.queuedSince queued turns = queued ++ turns.filterMap Turn.queued? := by
  induction turns generalizing a queued with
  | nil => exact (List.append_nil queued).symm
  | cons x turns ih =>
      rw [queuedSince, if_neg h.1, ih h.2, List.append_assoc]
      cases hqueue : x.queued? <;> simp [hqueue]

theorem pending_of_unflushed {turns : List Turn} (h : a.Unflushed turns) :
    (a.run turns).drops.pending =
      (a.drops.pending ++ turns.filterMap Turn.queued?).eraseDups := by
  rw [pending_run (eraseDups_of_nodup a.drops.nodup).symm, queuedSince_of_unflushed h]

/-- The drop queue loses nothing and drops nothing else. After any run from an
empty queue, each graph queued since the last flush that succeeded is pending
once, in the order of first queueing, and it stays so until a flush succeeds. Such
a flush drops all that is pending and nothing else. One that fails leaves the
whole archive as it was, so the next one that succeeds drops the same graphs if
nothing else was queued in between. -/
theorem drops_run (config : Config) (s : Store) (contexts : ContextCache) (turns : List Turn) :
    let a := (fresh config s contexts).run turns
    a.drops.pending.Nodup ∧
      a.drops.pending = ((fresh config s contexts).queuedSince [] turns).eraseDups ∧
      (∀ later, a.Unflushed later → (a.run later).drops.pending =
        (a.drops.pending ++ later.filterMap Turn.queued?).eraseDups) ∧
      (∀ env n, (a.flushDrops env).1 = .ok n →
        a.Flushed a.drops.pending n (a.flushDrops env).2) ∧
      (∀ env e, (a.flushDrops env).1 = .error e → (a.flushDrops env).2 = a) ∧
      ∀ env e later, (a.flushDrops env).1 = .error e → a.Unflushed later →
        later.filterMap Turn.queued? = [] →
        let a' := (a.flushDrops env).2.run later
        ∀ env' n, (a'.flushDrops env').1 = .ok n →
          a'.Flushed a.drops.pending n (a'.flushDrops env').2 := by
  intro a
  have hsuccess : ∀ (b : Archive) env n, (b.flushDrops env).1 = .ok n →
      b.Flushed b.drops.pending n (b.flushDrops env).2 := by
    intro b env n hn
    rcases b.flushDrops_outcome env with ⟨m, hm, hflushed⟩ | ⟨⟨e, he⟩, -⟩
    · cases hm.symm.trans hn
      exact hflushed
    · cases he.symm.trans hn
  have hfailure : ∀ env e, (a.flushDrops env).1 = .error e → (a.flushDrops env).2 = a := by
    intro env e he
    rcases a.flushDrops_outcome env with ⟨n, hn, -⟩ | ⟨-, hkept⟩
    · cases hn.symm.trans he
    · exact hkept
  refine ⟨a.drops.nodup, pending_run rfl turns, fun later => pending_of_unflushed, hsuccess a,
    hfailure, ?_⟩
  intro env e later he hlater hnone a' env' n hn
  have hsame : a'.drops.pending = a.drops.pending := by
    change ((a.flushDrops env).2.run later).drops.pending = _
    rw [hfailure env e he, pending_of_unflushed hlater, hnone, List.append_nil,
      eraseDups_of_nodup a.drops.nodup]
  rw [← hsame]
  exact hsuccess a' env' n hn

theorem drops_run_retried :
    ∃ (a a' : Archive) (failing env : Environment) (e : StorageError),
      a.drops.pending = [⟨"x"⟩, ⟨"v"⟩] ∧ (a.flushDrops failing).1 = .error e ∧
        (a.flushDrops failing).2 = a ∧ a' = a.run [.call ⟨env, .event ⟨.created, ⟨"v"⟩⟩⟩] ∧
        (a'.flushDrops env).1 = .ok 2 ∧
        a'.Flushed [⟨"x"⟩, ⟨"v"⟩] 2 (a'.flushDrops env).2 := by
  let env : Environment := .reliable ⟨1700000000, 0, by decide, by decide⟩
  let failing : Environment := ⟨env.now, FaultFlags.faults { writes := true }⟩
  let turns : List Turn := [⟨"x"⟩, ⟨"v"⟩, ⟨"x"⟩].map fun g => .call ⟨env, .enqueueDrop g⟩
  let later : List Turn := [.call ⟨env, .event ⟨.created, ⟨"v"⟩⟩⟩]
  let a := (fresh .standard .linkedPair .empty).run turns
  obtain ⟨-, hpending, -, -, hkept, hretried⟩ := drops_run .standard .linkedPair .empty turns
  have hqueued : a.drops.pending = [⟨"x"⟩, ⟨"v"⟩] := hpending.trans (by decide +kernel)
  have hfailed : (a.flushDrops failing).1 = .error .callFailed := by decide +kernel
  have hlater : a.Unflushed later := ⟨by decide +kernel, trivial⟩
  have hcount : (((a.flushDrops failing).2.run later).flushDrops env).1 = .ok 2 := by
    decide +kernel
  have hsame : (a.flushDrops failing).2 = a := hkept failing _ hfailed
  have hflushed : ((a.flushDrops failing).2.run later).Flushed a.drops.pending 2 _ :=
    hretried failing _ later hfailed hlater rfl env 2 hcount
  rw [hsame] at hcount hflushed
  rw [hqueued] at hflushed
  exact ⟨a, a.run later, failing, env, _, hqueued, hfailed, hsame, rfl, hcount, hflushed⟩

end Archive

end SkosArchive
