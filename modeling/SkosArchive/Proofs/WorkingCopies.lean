import SkosArchive.Proofs.CommonAncestor
import SkosArchive.Proofs.LoadedContexts

namespace SkosArchive

/-- What a graph `g` says as a working copy of the vocabulary `v` in the graph `p`. -/
def workingCopy (v p g : Iri) : List Quad :=
  [⟨v, Names.type, .iri Names.vocabulary, g⟩, ⟨g, Names.derivedFrom, .iri p, g⟩]

theorem Names.type_ne_derivedFrom : type ≠ derivedFrom := by decide

namespace Store

/-- No row has the name in any of its columns. -/
def Lacks (s : Store) (i : Iri) : Prop :=
  ∀ r ∈ s.rows, r.graph ≠ i ∧ r.subject ≠ i ∧ r.predicate ≠ i ∧
    (r.kind = "iri" → r.object ≠ i.text)

instance (s : Store) (i : Iri) : Decidable (s.Lacks i) :=
  inferInstanceAs (Decidable (∀ r ∈ s.rows.toList, r.graph ≠ i ∧ r.subject ≠ i ∧
    r.predicate ≠ i ∧ (r.kind = "iri" → r.object ≠ i.text)))

instance (s : Store) (a b : Iri) : Decidable (Choice.Leads s.parentOf a b) :=
  decidable_of_iff (Choice.derives s.parentOf (Ascending.ofList [b]) (s.rows.toList.length + 1)
      [a] a = true)
    ((Choice.derives_iff (fun _ _ => mem_graph_of_parentOf) (by simp)).trans (by simp))

instance (s : Store) : Decidable (Choice.Acyclic s.parentOf) :=
  decidable_of_iff _ (Choice.acyclic_iff fun _ _ => mem_graph_of_parentOf).symm

/-- Where no chain of parents comes back, the context of a vocabulary that is
declared somewhere is the only graph that declares it and is not derived from
another one that does. -/
theorem contextOf_selects {s : Store} (hacyclic : Choice.Acyclic s.parentOf) {v p : Iri}
    (hp : p ∈ s.declaringGraphs v) :
    Choice.Selects (fun g => ¬ Choice.Meets s.parentOf (s.declaringGraphs v) g) v
      (s.declaringGraphs v) (s.contextOf v) :=
  Choice.choose_selects_of_acyclic hacyclic (fun _ _ => mem_graph_of_parentOf) (by simp) hp

/-- `t` is `s` with a working copy, in a graph `g` of a new name, of the
vocabulary `v` in `p`. -/
structure GainsCopy (v p g : Iri) (s t : Store) : Prop where
  declares : p ∈ s.declaringGraphs v
  lacks : s.Lacks g
  insert : s.insert (workingCopy v p g) = .ok t

namespace GainsCopy

open Choice (Acyclic IsOnly Leads Meets)

variable {s t : Store} {v p g : Iri} (h : GainsCopy v p g s t)

include h

theorem mem_rows {r : Row} : r ∈ t.rows ↔ r ∈ s.rows ∨
    r = .ofQuad ⟨v, Names.type, .iri Names.vocabulary, g⟩ ∨
      r = .ofQuad ⟨g, Names.derivedFrom, .iri p, g⟩ := by
  rw [mem_rows_insert h.insert, workingCopy]
  simp only [List.mem_cons, List.not_mem_nil, or_false, exists_eq_or_imp, exists_eq_left]

theorem ne_of_declares {u x : Iri} (hx : x ∈ s.declaringGraphs u) : x ≠ g :=
  (h.lacks _ (mem_declaringGraphs.mp hx)).1

theorem ne_of_parentOf {x y : Iri} (hy : s.parentOf x = some y) : y ≠ g := by
  rintro rfl
  obtain ⟨r, hr, -, hkind, hobject⟩ := parentOf_eq_some hy
  exact (h.lacks r hr).2.2.2 hkind hobject

theorem select_graph {q : Pattern} {x : Iri} (hq : q.graph = some x) (hx : x ≠ g) :
    t.select q = s.select q := by
  apply select_insert h.insert
  intro copied hcopied hcovers
  have hgraph : copied.graph = g := by
    rcases List.mem_pair.mp hcopied with rfl | rfl <;> rfl
  exact hx ((Pattern.graph_of_covers hq hcovers).symm.trans hgraph)

theorem parentOf_of_ne {x : Iri} (hx : x ≠ g) : t.parentOf x = s.parentOf x := by
  rw [parentOf, parentOf, quads_congr (h.select_graph rfl hx)]

theorem parentOf_copy : t.parentOf g = some p := by
  -- no row of `s` is in the graph of the copy, so there is only its own derivation
  have hquads : ∀ q, q ∈ t.quads (derivation g) ↔ q = ⟨g, Names.derivedFrom, .iri p, g⟩ := by
    intro q
    rw [mem_quads]
    constructor
    · rintro ⟨r, hr, hcovers, hrq⟩
      rcases h.mem_rows.mp hr with hr | rfl | rfl
      · exact absurd (Pattern.graph_of_covers rfl hcovers) (h.lacks r hr).1
      · exact absurd (Pattern.predicate_of_covers rfl hcovers) Names.type_ne_derivedFrom
      · rw [Row.toQuad_ofQuad] at hrq
        exact (Except.ok.inj hrq).symm
    · rintro rfl
      refine ⟨_, h.mem_rows.mpr (.inr (.inr rfl)), ?_, Row.toQuad_ofQuad _⟩
      simp [derivation, Pattern.covers, Row.ofQuad]
  rw [parentOf]
  cases hfirst : (t.quads (derivation g)).findSome? Quad.objectIri? with
  | none =>
      have hnone := List.findSome?_eq_none_iff.mp hfirst _ ((hquads _).mpr rfl)
      cases hnone
  | some x =>
      obtain ⟨q, hq, hx⟩ := List.exists_of_findSome?_eq_some hfirst
      rw [(hquads q).mp hq] at hx
      exact hx.symm

theorem mem_declaringGraphs_iff {x : Iri} :
    x ∈ t.declaringGraphs v ↔ x = g ∨ x ∈ s.declaringGraphs v := by
  rw [mem_declaringGraphs, mem_declaringGraphs, h.mem_rows]
  constructor
  · rintro (hx | hx | hx)
    · exact .inr hx
    · exact .inl (congrArg Row.graph hx)
    · exact .inl (congrArg Row.graph hx)
  · rintro (rfl | hx)
    · exact .inr (.inl rfl)
    · exact .inl hx

theorem declaringGraphs_of_ne {u : Iri} (hu : u ≠ v) :
    t.declaringGraphs u = s.declaringGraphs u := by
  rw [declaringGraphs, declaringGraphs, quads_congr (select_insert h.insert ?_)]
  intro q hq hcovers
  rcases List.mem_pair.mp hq with rfl | rfl
  · exact hu (Pattern.subject_of_covers rfl hcovers).symm
  · exact absurd (Pattern.predicate_of_covers rfl hcovers).symm Names.type_ne_derivedFrom

theorem contextOf_of_ne {u : Iri} (hu : u ≠ v) : t.contextOf u = s.contextOf u :=
  contextOf_congr (h.declaringGraphs_of_ne hu) (fun _ => h.ne_of_declares)
    (fun _ => h.parentOf_of_ne) fun _ _ _ => h.ne_of_parentOf

theorem leads_iff {x y : Iri} (hx : x ≠ g) : Leads t.parentOf x y ↔ Leads s.parentOf x y :=
  Choice.leads_congr (fun _ => h.parentOf_of_ne) (fun _ _ _ => h.ne_of_parentOf) hx

theorem not_leads_copy (x : Iri) : ¬ Leads s.parentOf x g := by
  intro hx
  obtain ⟨y, -, hy⟩ := Relation.TransGen.tail'_iff.mp hx
  exact h.ne_of_parentOf hy rfl

theorem acyclic (hacyclic : Acyclic s.parentOf) : Acyclic t.parentOf := by
  intro x hx
  by_cases hxg : x = g
  · -- the chain of the copy goes on from `p`, and no chain from there leads to the copy
    subst hxg
    obtain ⟨y, hy, hyx⟩ := Relation.TransGen.head'_iff.mp hx
    rw [h.parentOf_copy] at hy
    cases hy
    have hp : p ≠ x := h.ne_of_declares h.declares
    rcases Relation.reflTransGen_iff_eq_or_transGen.mp hyx with heq | hleads
    · exact hp heq.symm
    · exact h.not_leads_copy p ((h.leads_iff hp).mp hleads)
  · exact hacyclic x ((h.leads_iff hxg).mp hx)

/-- The chain of the copy meets `p`, and the chains of the others meet what they
met before. -/
theorem meets_iff (x : Iri) : Meets t.parentOf (t.declaringGraphs v) x ↔
    x = g ∨ Meets s.parentOf (s.declaringGraphs v) x := by
  by_cases hxg : x = g
  · subst hxg
    refine iff_of_true ⟨p, h.mem_declaringGraphs_iff.mpr (.inr h.declares), ?_⟩ (.inl rfl)
    exact .single h.parentOf_copy
  · simp only [Meets, h.mem_declaringGraphs_iff, h.leads_iff hxg, hxg, false_or]
    constructor
    · rintro ⟨c, rfl | hc, hleads⟩
      · exact absurd hleads (h.not_leads_copy x)
      · exact ⟨c, hc, hleads⟩
    · rintro ⟨c, hc, hleads⟩
      exact ⟨c, .inr hc, hleads⟩

theorem isOnly_iff (c : Iri) :
    IsOnly (t.declaringGraphs v) (fun x => ¬ Meets t.parentOf (t.declaringGraphs v) x) c ↔
      IsOnly (s.declaringGraphs v) (fun x => ¬ Meets s.parentOf (s.declaringGraphs v) x) c := by
  have hunmet : ∀ x, (x ∈ t.declaringGraphs v ∧ ¬ Meets t.parentOf (t.declaringGraphs v) x) ↔
      x ∈ s.declaringGraphs v ∧ ¬ Meets s.parentOf (s.declaringGraphs v) x := by
    intro x
    rw [h.mem_declaringGraphs_iff, h.meets_iff, not_or]
    constructor
    · rintro ⟨hx, hxg, hnone⟩
      exact ⟨hx.resolve_left hxg, hnone⟩
    · rintro ⟨hx, hnone⟩
      exact ⟨.inr hx, h.ne_of_declares hx, hnone⟩
  simp only [IsOnly, ← and_assoc, ← and_imp, hunmet]

theorem readable (hread : s.Readable) : t.Readable := by
  have happly : s.apply [.insert (workingCopy v p g)] = .ok t := by
    rw [apply, List.foldlM_cons, update, h.insert]
    rfl
  exact hread.apply happly

end GainsCopy

end Store

namespace Connection

/-- No look-up of a context, or of the vocabulary in one, fails in the storage. -/
structure FindsContexts (c : Connection) : Prop where
  contextOf : ∀ v, Uninterrupted (c.contextOf v)
  vocabularyIn : ∀ g, Uninterrupted (c.vocabularyIn g)

theorem reliable_findsContexts {s : Store} (h : s.Readable) (arrival : Row → Nat) :
    (reliable s arrival).FindsContexts where
  contextOf v := by
    obtain ⟨index, hbuild⟩ := ContextIndex.exists_build h arrival
    exact uninterrupted_contextOf (fun _ => rfl) hbuild (fun _ => id) v
  vocabularyIn g := by
    rw [reliable_vocabularyIn]
    exact FailsWith.ok _

/-- A working copy in a graph of a new name does not move its vocabulary: the
context found for it is the one found before, and there is none just where there
was none. The context of any other vocabulary stays, and so does the vocabulary
in any other graph. Of the derivations that a graph states of itself the first
one counts, so it is enough that these have no cycle. -/
theorem contextOf_workingCopy {c d : Connection} {v p g : Iri}
    (hacyclic : Choice.Acyclic c.store.parentOf) (h : c.store.GainsCopy v p g d.store) :
    (Uninterrupted (c.contextOf v) → Uninterrupted (d.contextOf v) →
      (∀ context, d.contextOf v = .ok context ↔ c.contextOf v = .ok context) ∧
      ((∃ candidates, d.contextOf v = .error (.ambiguousContext v candidates)) ↔
        ∃ candidates, c.contextOf v = .error (.ambiguousContext v candidates))) ∧
    (∀ u, u ≠ v → Agrees (d.contextOf u) (c.contextOf u)) ∧
    (∀ context, context ≠ g → Agrees (d.vocabularyIn context) (c.vocabularyIn context)) ∧
    (c.store.Readable → ∀ arrival, (reliable c.store arrival).FindsContexts ∧
      (reliable d.store arrival).FindsContexts) := by
  refine ⟨fun hc hd => ?_, fun u hu hd hc => ?_, fun context hcontext => ?_,
    fun hread arrival => ?_⟩
  · have hbefore := Store.contextOf_selects hacyclic h.declares
    have hafter := Store.contextOf_selects (h.acyclic hacyclic)
      (h.mem_declaringGraphs_iff.mpr (.inr h.declares))
    rw [contextOf_eq hc, contextOf_eq hd, hbefore.ambiguous_iff, hafter.ambiguous_iff]
    simp only [hbefore.ok_iff, hafter.ok_iff, h.isOnly_iff, implies_true, and_self]
  · rw [contextOf_eq hc, contextOf_eq hd, h.contextOf_of_ne hu]
  · exact (quads_agrees rfl (h.select_graph rfl hcontext)).bind fun _ _ => AgreesUnless.refl _
  · exact ⟨reliable_findsContexts hread arrival, reliable_findsContexts (h.readable hread) arrival⟩

/-- A copy of a draft of a vocabulary that so far had one draft. -/
theorem contextOf_workingCopy_draft :
    let s := Store.ofQuads
      [⟨⟨"v"⟩, Names.type, .iri Names.vocabulary, ⟨"graph"⟩⟩,
        ⟨⟨"v"⟩, Names.type, .iri Names.vocabulary, ⟨"draft"⟩⟩,
        ⟨⟨"draft"⟩, Names.derivedFrom, .iri ⟨"graph"⟩, ⟨"draft"⟩⟩]
    ∃ t, Choice.Acyclic s.parentOf ∧ s.GainsCopy ⟨"v"⟩ ⟨"draft"⟩ ⟨"copy"⟩ t ∧
      (reliable t).contextOf ⟨"v"⟩ = .ok ⟨"graph"⟩ := by
  intro s
  let t : Store := (s.put (.ofQuad ⟨⟨"v"⟩, Names.type, .iri Names.vocabulary, ⟨"copy"⟩⟩)).put
    (.ofQuad ⟨⟨"copy"⟩, Names.derivedFrom, .iri ⟨"draft"⟩, ⟨"copy"⟩⟩)
  have hacyclic : Choice.Acyclic s.parentOf := by decide +kernel
  have hcopy : s.GainsCopy ⟨"v"⟩ ⟨"draft"⟩ ⟨"copy"⟩ t :=
    ⟨by decide +kernel, by decide +kernel, rfl⟩
  obtain ⟨hmoved, -, -, hread⟩ :=
    contextOf_workingCopy (c := reliable s) (d := reliable t) hacyclic hcopy
  obtain ⟨hs, ht⟩ := hread (Store.readable_ofQuads _) fun _ => 0
  refine ⟨t, hacyclic, hcopy, ?_⟩
  exact ((hmoved (hs.contextOf _) (ht.contextOf _)).1 _).mpr (by decide +kernel)

end Connection

end SkosArchive
