import SkosArchive.Proofs.Commitment
import SkosArchive.Proofs.Contexts

namespace SkosArchive

/-- The least IRI with the property `P`, or none if no IRI has it. -/
def Iri.LeastOf (P : Iri → Prop) : Option Iri → Prop
  | none => ∀ i, ¬ P i
  | some i => P i ∧ ∀ j, P j → ¬ j < i

namespace Iri.LeastOf

variable {P Q : Iri → Prop} {o o' : Option Iri}

theorem congr (h : ∀ i, P i ↔ Q i) (ho : LeastOf P o) : LeastOf Q o := by
  cases o with
  | none => exact fun i hi => ho i ((h i).mpr hi)
  | some i => exact ⟨(h i).mp ho.1, fun j hj => ho.2 j ((h j).mpr hj)⟩

theorem unique (h : LeastOf P o) (h' : LeastOf P o') : o = o' := by
  cases o with
  | none =>
      cases o' with
      | none => rfl
      | some i => exact absurd h'.1 (h i)
  | some i =>
      cases o' with
      | none => exact absurd h.1 (h' i)
      | some j => exact congrArg some (TotalOrder.eq_of_not_lt (h'.2 i h.1) (h.2 j h'.1))

theorem exists_of_exists (h : LeastOf P o) (hP : ∃ i, P i) : ∃ i, o = some i := by
  obtain ⟨i, hi⟩ := hP
  cases o with
  | none => exact absurd hi (h i)
  | some j => exact ⟨j, rfl⟩

theorem head? {l : List Iri} (hl : l.Pairwise fun i j => ¬ j < i) : LeastOf (· ∈ l) l.head? := by
  cases l with
  | nil => exact fun i => List.not_mem_nil
  | cons i l =>
      refine ⟨List.mem_cons_self, fun j hj => ?_⟩
      rcases List.mem_cons.mp hj with rfl | hj
      · exact TotalOrder.lt_irrefl j
      · exact (List.pairwise_cons.mp hl).1 j hj

theorem find? {l : List Iri} (hl : l.Pairwise fun i j => ¬ j < i) (p : Iri → Bool) :
    LeastOf (fun i => i ∈ l ∧ p i = true) (l.find? p) := by
  rw [← List.head?_filter]
  exact (head? (hl.sublist List.filter_sublist)).congr fun i => List.mem_filter

end Iri.LeastOf

namespace Store

def Asserts (s : Store) (graph subject predicate o : Iri) : Prop :=
  s.Reads ⟨subject, predicate, .iri o, graph⟩

/-- The graph of this name calls itself a workspace. -/
def IsWorkspace (s : Store) (ws : Iri) : Prop := s.Asserts ws ws Names.type Names.workspace

/-- The graph `ws` refers to `context`, and `v` is the least vocabulary that it
says `context` to be based on. -/
def HasCopy (s : Store) (ws v context : Iri) : Prop :=
  s.Asserts ws ws Names.referencesContext context ∧
    Iri.LeastOf (s.Asserts ws context Names.basedOnVocabulary) (some v)

end Store

/-- Of two rows that differ in nothing before the object, the lesser one has the
lesser object. -/
theorem Row.not_before_of_lt {r r' : Row} (h : r < r') (hg : r.graph = r'.graph)
    (hu : r.subject = r'.subject) (hp : r.predicate = r'.predicate) :
    ¬ Text.Before r'.object r.object := by
  have hlex : List.Lex Text.Before r.columns r'.columns := h
  simp only [columns, hg, hu, hp, List.cons_lex_cons_iff, Text.before_irrefl, false_or,
    true_and] at hlex
  rcases hlex with hobject | ⟨hobject, -⟩
  · exact fun hback => Text.before_irrefl _ (Text.before_trans hobject hback)
  · rw [hobject]
    exact Text.before_irrefl _

namespace Workspace

variable {s : Store} {ws : Iri}

theorem mem_irisOf {u p i : Iri} :
    i ∈ irisOf (s.quads { graph := some ws }) u p ↔ s.Asserts ws u p i := by
  simp only [irisOf, List.mem_filterMap, List.mem_filter, Store.mem_quads_graph,
    decide_eq_true_eq, Quad.objectIri?, Term.iri?_eq_some]
  constructor
  · rintro ⟨⟨u', p', o, g⟩, ⟨⟨hreads, rfl⟩, rfl, rfl⟩, rfl⟩
    exact hreads
  · exact fun h => ⟨_, ⟨⟨h, rfl⟩, rfl, rfl⟩, rfl⟩

theorem ascending_irisOf (u p : Iri) :
    (irisOf (s.quads { graph := some ws }) u p).Pairwise fun i j => ¬ j < i := by
  have hrows : (s.select { graph := some ws }).Pairwise (· < ·) :=
    s.rows.ascending.sublist List.filter_sublist
  rw [irisOf, List.pairwise_filterMap, List.pairwise_filter, Store.quads, List.pairwise_filterMap]
  refine hrows.imp_of_mem ?_
  intro r r' hr hr' hlt q hq q' hq' hsame hsame' i hi j hj
  rw [toOption_eq_some] at hq hq'
  simp only [decide_eq_true_eq] at hsame hsame'
  obtain ⟨-, hobject⟩ := Row.object_of_toQuad hq (Term.iri?_eq_some.mp hi)
  obtain ⟨-, hobject'⟩ := Row.object_of_toQuad hq' (Term.iri?_eq_some.mp hj)
  have hg := (Pattern.covers_graph.mp (Store.mem_select.mp hr).2).trans
    (Pattern.covers_graph.mp (Store.mem_select.mp hr').2).symm
  have hu : r.subject = r'.subject := by
    rw [← Row.subject_of_toQuad hq, ← Row.subject_of_toQuad hq', hsame.1, hsame'.1]
  have hp : r.predicate = r'.predicate := by
    rw [← Row.predicate_of_toQuad hq, ← Row.predicate_of_toQuad hq', hsame.2, hsame'.2]
  have hnot := Row.not_before_of_lt hlt hg hu hp
  rwa [hobject, hobject'] at hnot

theorem leastOf_irisOf (u p : Iri) :
    Iri.LeastOf (s.Asserts ws u p) (irisOf (s.quads { graph := some ws }) u p).head? :=
  (Iri.LeastOf.head? (ascending_irisOf u p)).congr fun _ => mem_irisOf

theorem head?_irisOf_eq_some {u p i : Iri} :
    (irisOf (s.quads { graph := some ws }) u p).head? = some i ↔
      Iri.LeastOf (s.Asserts ws u p) (some i) := by
  constructor
  · intro h
    rw [← h]
    exact leastOf_irisOf u p
  · exact fun h => (leastOf_irisOf u p).unique h

theorem copy?_withFirst (w : Workspace) (copy : WorkingCopy) (v : Iri) :
    (w.withFirst copy).copy? v =
      (w.copy? v).or (if copy.vocabulary = v then some copy else none) := by
  have hcontains : w.copies.contains copy.vocabulary = (w.copy? copy.vocabulary).isSome := rfl
  rw [withFirst, hcontains]
  by_cases hv : copy.vocabulary = v
  · subst hv
    cases hcopy : w.copy? copy.vocabulary with
    | some first => simp [hcopy]
    | none => simp [withCopy, copy?, IriMap.get?_insert]
  · have hother : (w.withCopy copy).copy? v = w.copy? v := by
      rw [withCopy, copy?, IriMap.get?_insert, if_neg hv]
      rfl
    split <;> simp [hother]

/-- Of several working copies of a vocabulary the first one is kept. -/
theorem copy?_foldl_withFirst (copies : List WorkingCopy) (w : Workspace) (v : Iri) :
    (copies.foldl withFirst w).copy? v =
      (w.copy? v).or (copies.find? fun copy => copy.vocabulary = v) := by
  induction copies generalizing w with
  | nil => simp
  | cons copy copies ih =>
      rw [List.foldl_cons, ih, copy?_withFirst, Option.or_assoc]
      by_cases hv : copy.vocabulary = v <;> simp [hv]

/-- `w` is what the graph of this name says of a workspace. -/
structure DescribedBy (w : Workspace) (s : Store) (ws : Iri) : Prop where
  iri : w.iri = ws
  context : ∀ v, Iri.LeastOf (s.HasCopy ws v) ((w.copy? v).map WorkingCopy.context)
  copy : ∀ v copy, w.copy? v = some copy → copy.vocabulary = v ∧
    Iri.LeastOf (s.Asserts ws copy.context Names.hasChangeTrackingContext) copy.changeTracking
  contexts : w.contexts.Nodup

theorem iri_foldl_withFirst (copies : List WorkingCopy) (w : Workspace) :
    (copies.foldl withFirst w).iri = w.iri := by
  induction copies generalizing w with
  | nil => rfl
  | cons copy copies ih =>
      rw [List.foldl_cons, ih, withFirst]
      split <;> rfl

theorem nodup_contexts {w : Workspace}
    (h : ∀ v, Iri.LeastOf (s.HasCopy ws v) ((w.copy? v).map WorkingCopy.context)) :
    w.contexts.Nodup := by
  have hentry : ∀ e ∈ w.copies.entries, s.HasCopy ws e.1 e.2.context := by
    intro e he
    have hleast := h e.1
    rw [copy?, IriMap.get?_of_mem he] at hleast
    exact hleast.1
  have hkeys := List.pairwise_map.mp w.copies.ascending
  have hcontexts : (w.copies.values.map WorkingCopy.context).Nodup := by
    rw [IriMap.values, List.map_map, List.Nodup, List.pairwise_map]
    refine hkeys.imp_of_mem ?_
    intro e e' he he' hlt hsame
    obtain ⟨-, hleast⟩ := hentry e he
    obtain ⟨-, hleast'⟩ := hentry e' he'
    have hcontext : e.2.context = e'.2.context := hsame
    rw [hcontext] at hleast
    have heq : e.1 = e'.1 := Option.some.inj (hleast.unique hleast')
    rw [heq] at hlt
    exact TotalOrder.lt_irrefl _ hlt
  exact (List.mergeSort_perm _ _).nodup_iff.mpr hcontexts

theorem find?_filterMap_copyIn? (quads : List Quad) (contexts : List Iri) (v : Iri) :
    (contexts.filterMap (copyIn? quads)).find? (fun copy => copy.vocabulary = v) =
      (contexts.find? fun c => (irisOf quads c Names.basedOnVocabulary).head? = some v).map
        fun c => ⟨v, c, (irisOf quads c Names.hasChangeTrackingContext).head?⟩ := by
  induction contexts with
  | nil => rfl
  | cons c contexts ih =>
      cases hbase : (irisOf quads c Names.basedOnVocabulary).head? with
      | none => simp [copyIn?, hbase, ih]
      | some v' => by_cases hv : v' = v <;> simp [copyIn?, hbase, hv, ih]

theorem describe?_eq_none (h : ¬ s.IsWorkspace ws) :
    describe? ws (s.quads { graph := some ws }) = none :=
  if_neg fun hmem => h (mem_irisOf.mp hmem)

theorem exists_describe? (h : s.IsWorkspace ws) :
    ∃ w, describe? ws (s.quads { graph := some ws }) = some w ∧ w.DescribedBy s ws := by
  let quads := s.quads { graph := some ws }
  let contexts := irisOf quads ws Names.referencesContext
  let w := (contexts.filterMap (copyIn? quads)).foldl withFirst (empty ws)
  have hcopy : ∀ v, w.copy? v =
      (contexts.find? fun c => (irisOf quads c Names.basedOnVocabulary).head? = some v).map
        fun c => ⟨v, c, (irisOf quads c Names.hasChangeTrackingContext).head?⟩ := by
    intro v
    rw [← find?_filterMap_copyIn?]
    exact copy?_foldl_withFirst _ (empty ws) v
  have hcontext : ∀ v, Iri.LeastOf (s.HasCopy ws v) ((w.copy? v).map WorkingCopy.context) := by
    intro v
    rw [hcopy, Option.map_map]
    change Iri.LeastOf _ (Option.map id _)
    rw [Option.map_id]
    refine (Iri.LeastOf.find? (ascending_irisOf ws Names.referencesContext) _).congr fun c => ?_
    rw [mem_irisOf, decide_eq_true_iff, head?_irisOf_eq_some]
    rfl
  refine ⟨w, if_pos (mem_irisOf.mpr h), iri_foldl_withFirst _ _, hcontext, ?_,
    nodup_contexts hcontext⟩
  intro v copy h
  rw [hcopy] at h
  obtain ⟨c, -, rfl⟩ := Option.map_eq_some_iff.mp h
  exact ⟨rfl, leastOf_irisOf c Names.hasChangeTrackingContext⟩

end Workspace

theorem Connection.workspace_cases {c : Connection} {ws : Iri}
    (h : Uninterrupted (c.workspace ws)) :
    (c.store.IsWorkspace ws ∧ ∃ w, c.workspace ws = .ok w ∧ w.DescribedBy c.store ws) ∨
      ¬ c.store.IsWorkspace ws ∧ c.workspace ws = .error (.notFound .workspace ws) := by
  obtain ⟨quads, hquads⟩ := h.first.exists_ok (c.quads_failsWith _)
  have hread : quads = c.store.quads { graph := some ws } := quads_eq_ok rfl rfl hquads
  subst hread
  by_cases hws : c.store.IsWorkspace ws
  · obtain ⟨w, hw, hdescribed⟩ := Workspace.exists_describe? hws
    refine .inl ⟨hws, w, ?_, hdescribed⟩
    rw [workspace, hquads, ok_bind, hw]
    rfl
  · refine .inr ⟨hws, ?_⟩
    rw [workspace, hquads, ok_bind, Workspace.describe?_eq_none hws]

namespace Archive

variable {a : Archive} {env : Environment} {ws : Iri}

theorem workspace_cases (hcached : a.workspaces.get? ws = none)
    (hload : Uninterrupted (a.workspace env ws).1) :
    (a.store.IsWorkspace ws ∧ ∃ w, w.DescribedBy a.store ws ∧ a.workspace env ws =
        (.ok w, { a with workspaces := ⟨a.workspaces.entries.insert ws w⟩ })) ∨
      ¬ a.store.IsWorkspace ws ∧ a.workspace env ws = (.error (.notFound .workspace ws), a) := by
  have hread : (a.workspace env ws).1 = (a.connection env).workspace ws := by
    simp only [workspace, WorkspaceCache.getOrLoad, hcached, WorkspaceCache.reload]
    cases (a.connection env).workspace ws <;> rfl
  rw [hread] at hload
  rcases Connection.workspace_cases hload with ⟨hws, w, hw, hdescribed⟩ | ⟨hws, hw⟩
  · refine .inl ⟨hws, w, hdescribed, ?_⟩
    simp only [workspace, WorkspaceCache.getOrLoad, hcached, WorkspaceCache.reload, hw]
  · refine .inr ⟨hws, ?_⟩
    simp only [workspace, WorkspaceCache.getOrLoad, hcached, WorkspaceCache.reload, hw]

theorem canonicalContext_ne_notFound (v : Iri) (what : Sought) (i : Iri) :
    a.canonicalContext env v ≠ .error (.notFound what i) := by
  intro h
  rcases a.contexts.contextOf_failsWith (a.connection env) v _ h with ⟨cause, he⟩ | ⟨candidates, he⟩
  · cases he
  · cases he

/-- Within the workspace `ws` an archive answers from the graph of that name, and
as it does without a workspace where that graph has no copy. -/
structure Overlays (a : Archive) (env : Environment) (ws : Iri) : Prop where
  notFound : ∀ v what i, (a.contextIn env ws v).1 = .error (.notFound what i) ↔
    ¬ a.store.IsWorkspace ws ∧ what = .workspace ∧ i = ws
  copied : a.store.IsWorkspace ws → ∀ v, (∃ c, a.store.HasCopy ws v c) →
    ∃ c, Iri.LeastOf (a.store.HasCopy ws v) (some c) ∧ (a.contextIn env ws v).1 = .ok c
  uncopied : a.store.IsWorkspace ws → ∀ v, (¬ ∃ c, a.store.HasCopy ws v c) →
    (a.contextIn env ws v).1 = a.canonicalContext env v
  loaded : a.store.IsWorkspace ws →
    ∃ w, (a.workspace env ws).1 = .ok w ∧ w.DescribedBy a.store ws
  unselected : ∀ v, (a.contextIn env ws v).2.selected = a.selected
  refused : ¬ a.store.IsWorkspace ws →
    a.selectWorkspace env (some ws) = (.error (.notFound .workspace ws), a)
  selected : a.store.IsWorkspace ws → (a.selectWorkspace env (some ws)).1 = .ok () ∧
    (a.selectWorkspace env (some ws)).2.selected = some ws ∧
    ∀ v, ((a.selectWorkspace env (some ws)).2.contextOf env v).1 = (a.contextIn env ws v).1

theorem selected_contextIn (v : Iri) : (a.contextIn env ws v).2.selected = a.selected := by
  obtain ⟨workspaces, h⟩ := a.workspace_eq env ws
  simp only [contextIn, h]

theorem overlays_of_isWorkspace {w : Workspace} (hws : a.store.IsWorkspace ws)
    (hdescribed : w.DescribedBy a.store ws)
    (hw : a.workspace env ws =
      (.ok w, { a with workspaces := ⟨a.workspaces.entries.insert ws w⟩ })) :
    a.Overlays env ws := by
  have hcontext : ∀ v, (a.contextIn env ws v).1 = a.overlay env (some w) v := by
    intro v
    rw [contextIn, hw]
    rfl
  have hcopied : ∀ v copy, w.copy? v = some copy →
      a.overlay env (some w) v = .ok copy.context := by
    intro v copy hfound
    rw [overlay, Option.bind_some, hfound]
  have huncopied : ∀ v, w.copy? v = none →
      a.overlay env (some w) v = a.canonicalContext env v := by
    intro v hfound
    rw [overlay, Option.bind_some, hfound]
  refine ⟨fun v what i => iff_of_false ?_ fun hnot => hnot.1 hws, fun _ v hcopy => ?_,
    fun _ v hnone => ?_, fun _ => ⟨w, congrArg Prod.fst hw, hdescribed⟩, selected_contextIn,
    fun hnot => absurd hws hnot, fun _ => ?_⟩
  · rw [hcontext]
    cases hfound : w.copy? v with
    | some copy =>
        rw [hcopied v copy hfound]
        exact nofun
    | none =>
        rw [huncopied v hfound]
        exact canonicalContext_ne_notFound v what i
  · have hleast := hdescribed.context v
    obtain ⟨c, hc⟩ := hleast.exists_of_exists hcopy
    obtain ⟨copy, hfound, rfl⟩ := Option.map_eq_some_iff.mp hc
    rw [hc] at hleast
    exact ⟨copy.context, hleast, (hcontext v).trans (hcopied v copy hfound)⟩
  · have hleast := hdescribed.context v
    cases hfound : w.copy? v with
    | some copy =>
        rw [hfound] at hleast
        exact absurd ⟨_, hleast.1⟩ hnone
    | none => exact (hcontext v).trans (huncopied v hfound)
  · have hselect : a.selectWorkspace env (some ws) =
        (.ok (),
          { a with workspaces := ⟨a.workspaces.entries.insert ws w⟩, selected := some ws }) := by
      rw [selectWorkspace, hw]
    refine ⟨congrArg Prod.fst hselect, congrArg (fun r => r.2.selected) hselect, fun v => ?_⟩
    -- the selected workspace is the one that was read when it was selected
    have hcached : (a.workspaces.entries.insert ws w).get? ws = some w := by
      rw [IriMap.get?_insert, if_pos rfl]
    rw [hselect, hcontext]
    simp only [contextOf, selectedWorkspace, workspace, WorkspaceCache.getOrLoad,
      WorkspaceCache.get?, hcached]
    rfl

/-- The overlay of a workspace that has not been read yet, if its graph can be
read: the workspace is there if its graph says so; the least context that is based
on a vocabulary overrides the canonical one, and no other does. -/
theorem workspace_overlays (hcached : a.workspaces.get? ws = none)
    (hload : Uninterrupted (a.workspace env ws).1) : a.Overlays env ws := by
  rcases workspace_cases hcached hload with ⟨hws, w, hdescribed, hw⟩ | ⟨hws, hw⟩
  · exact overlays_of_isWorkspace hws hdescribed hw
  · have hcontext : ∀ v, (a.contextIn env ws v).1 = .error (.notFound .workspace ws) := by
      intro v
      rw [contextIn, hw]
      rfl
    refine ⟨fun v what i => ?_, fun h => absurd h hws, fun h => absurd h hws,
      fun h => absurd h hws, selected_contextIn, fun _ => ?_, fun h => absurd h hws⟩
    · rw [hcontext, Except.error.injEq, Error.notFound.injEq]
      exact ⟨fun h => ⟨hws, h.1.symm, h.2.symm⟩, fun h => ⟨h.2.1.symm, h.2.2.symm⟩⟩
    · rw [selectWorkspace, hw]

/-- Two working copies of one vocabulary, the second of which tracks changes. -/
theorem workspace_overlays_twoCopies :
    ∃ (a : Archive) (env : Environment) (ws v : Iri), a.workspaces.get? ws = none ∧
      Uninterrupted (a.workspace env ws).1 ∧ (a.contextIn env ws v).1 = .ok ⟨"b"⟩ ∧
      a.canonicalContext env v = .ok v ∧ a.Overlays env ws := by
  let quads : List Quad :=
    [⟨⟨"ws"⟩, Names.type, .iri Names.workspace, ⟨"ws"⟩⟩,
      ⟨⟨"ws"⟩, Names.referencesContext, .iri ⟨"c"⟩, ⟨"ws"⟩⟩,
      ⟨⟨"ws"⟩, Names.referencesContext, .iri ⟨"b"⟩, ⟨"ws"⟩⟩,
      ⟨⟨"b"⟩, Names.basedOnVocabulary, .iri ⟨"v"⟩, ⟨"ws"⟩⟩,
      ⟨⟨"c"⟩, Names.basedOnVocabulary, .iri ⟨"v"⟩, ⟨"ws"⟩⟩,
      ⟨⟨"c"⟩, Names.hasChangeTrackingContext, .iri ⟨"t"⟩, ⟨"ws"⟩⟩]
  let a : Archive := fresh .standard (.ofQuads quads) .empty
  let env : Environment := .reliable ⟨1700000000, 0, by decide, by decide⟩
  have hcached : a.workspaces.get? ⟨"ws"⟩ = none := rfl
  have hload : Uninterrupted (a.workspace env ⟨"ws"⟩).1 := by
    have hok : (a.workspace env ⟨"ws"⟩).1.isOk = true := by decide +kernel
    intro e he
    rw [he] at hok
    cases hok
  exact ⟨a, env, ⟨"ws"⟩, ⟨"v"⟩, hcached, hload, by decide +kernel, by decide +kernel,
    workspace_overlays hcached hload⟩

end Archive

end SkosArchive
