import SkosArchive.Proofs.Catalogue
import SkosArchive.Proofs.Suffix
import SkosArchive.Snapshot.Creation

namespace SkosArchive

/-- Two vocabularies of one term each, the first of which links to the second. -/
def Store.linkedPair : Store :=
  ofQuads [⟨⟨"v"⟩, Names.type, .iri Names.vocabulary, ⟨"v"⟩⟩,
    ⟨⟨"v"⟩, Names.hasGlossary, .iri ⟨"v/glossary"⟩, ⟨"v"⟩⟩,
    ⟨⟨"v/term"⟩, Names.inScheme, .iri ⟨"v/glossary"⟩, ⟨"v"⟩⟩,
    ⟨⟨"v/term"⟩, SkosProperty.exactMatch.iri, .iri ⟨"w/term"⟩, ⟨"v"⟩⟩,
    ⟨⟨"w"⟩, Names.type, .iri Names.vocabulary, ⟨"w"⟩⟩,
    ⟨⟨"w"⟩, Names.hasGlossary, .iri ⟨"w/glossary"⟩, ⟨"w"⟩⟩,
    ⟨⟨"w/term"⟩, Names.inScheme, .iri ⟨"w/glossary"⟩, ⟨"w"⟩⟩]

namespace Catalogue

variable {c : Catalogue}

theorem plans_cons {origin x : Iri} {l : List Iri} {plans : List CopyPlan}
    (h : c.plans origin (x :: l) = .ok plans) :
    c.connection.isSnapshot x = .ok true ∧ c.plans origin l = .ok plans ∨
      c.connection.isSnapshot x = .ok false ∧
        (c.find x = .ok none ∧ x ≠ origin ∧ c.plans origin l = .ok plans ∨
          ∃ p rest, plans = p :: rest ∧ p.iri = x ∧ c.find x = .ok (some p.found) ∧
            c.terms p.found = .ok p.terms ∧ c.plans origin l = .ok rest) := by
  rw [Catalogue.plans] at h
  obtain ⟨isSnapshot, hsnapshot, h⟩ := bind_eq_ok h
  cases isSnapshot with
  | true => exact .inl ⟨hsnapshot, h⟩
  | false =>
      refine .inr ⟨hsnapshot, ?_⟩
      obtain ⟨o, hfind, h⟩ := bind_eq_ok h
      cases o with
      | none =>
          replace h : (if x = origin then _ else c.plans origin l) = .ok plans := h
          split at h
          · cases h
          · rename_i hx
            exact .inl ⟨hfind, hx, h⟩
      | some found =>
          obtain ⟨terms, hterms, h⟩ := bind_eq_ok h
          obtain ⟨rest, hrest, h⟩ := bind_eq_ok h
          cases h
          refine .inr ⟨⟨found, terms⟩, rest, rfl, ?_, hfind, hterms, hrest⟩
          obtain ⟨-, -, ⟨ho, -⟩ | ⟨found', ho, -, -, hiri⟩⟩ := find_cases hfind
          · cases ho
          · cases ho; exact hiri

theorem plans_cases {origin w : Iri} {l : List Iri} {plans : List CopyPlan}
    (h : c.plans origin l = .ok plans) (hw : w ∈ l) :
    c.connection.isSnapshot w = .ok true ∨
      c.connection.isSnapshot w = .ok false ∧
        (c.find w = .ok none ∧ w ≠ origin ∨
          ∃ p ∈ plans, p.iri = w ∧ c.find w = .ok (some p.found)) := by
  induction l generalizing plans with
  | nil => cases hw
  | cons x l ih =>
      rcases plans_cons h with ⟨hs, h⟩ | ⟨hs, ⟨hfind, hx, h⟩ | ⟨p, rest, rfl, hp, hfind, -, h⟩⟩
      · rcases List.mem_cons.mp hw with rfl | hw
        · exact .inl hs
        · exact ih h hw
      · rcases List.mem_cons.mp hw with rfl | hw
        · exact .inr ⟨hs, .inl ⟨hfind, hx⟩⟩
        · exact ih h hw
      · rcases List.mem_cons.mp hw with rfl | hw
        · exact .inr ⟨hs, .inr ⟨p, List.mem_cons_self, hp, hfind⟩⟩
        · rcases ih h hw with hs | ⟨hs, hnone | ⟨p', hp', hiri, hfind⟩⟩
          · exact .inl hs
          · exact .inr ⟨hs, .inl hnone⟩
          · exact .inr ⟨hs, .inr ⟨p', List.mem_cons_of_mem p hp', hiri, hfind⟩⟩

/-- The plans stand in the order of the vocabularies, and each was read from
its vocabulary's context. -/
theorem of_plans_eq_ok {origin : Iri} {l : List Iri} {plans : List CopyPlan}
    (h : c.plans origin l = .ok plans) :
    (plans.map CopyPlan.iri).Sublist l ∧
      ∀ p ∈ plans, c.connection.isSnapshot p.iri = .ok false ∧
        c.find p.iri = .ok (some p.found) ∧ c.terms p.found = .ok p.terms := by
  induction l generalizing plans with
  | nil =>
      cases h
      exact ⟨List.Sublist.refl [], by simp⟩
  | cons x l ih =>
      rcases plans_cons h with
        ⟨-, h⟩ | ⟨hs, ⟨-, -, h⟩ | ⟨p, rest, rfl, rfl, hfind, hterms, h⟩⟩
      · exact ⟨(ih h).1.cons x, (ih h).2⟩
      · exact ⟨(ih h).1.cons x, (ih h).2⟩
      · refine ⟨(ih h).1.cons_cons _, ?_⟩
        intro p' hp'
        rcases List.mem_cons.mp hp' with rfl | hp'
        · exact ⟨hs, hfind, hterms⟩
        · exact (ih h).2 p' hp'

theorem plans_ext {origin : Iri} {l : List Iri} {plans : List CopyPlan}
    (h : c.plans origin l = .ok plans) {p p' : CopyPlan} (hp : p ∈ plans) (hp' : p' ∈ plans)
    (hiri : p.iri = p'.iri) : p = p' := by
  obtain ⟨-, hfind, hterms⟩ := (of_plans_eq_ok h).2 p hp
  obtain ⟨-, hfind', hterms'⟩ := (of_plans_eq_ok h).2 p' hp'
  rw [hiri, hfind'] at hfind
  cases p
  cases p'
  cases hfind
  rw [hterms] at hterms'
  cases hterms'
  rfl

/-- The errors that making the plans can end with: the storage fails, a context
is not resolved, or the origin has no description. -/
def PlanError (c : Catalogue) (origin : Iri) (l : List Iri) (e : Error) : Prop :=
  e.IsStorage ∨ (∃ w ∈ l, ¬ c.connection.store.IsSnapshot w ∧ c.contextOf w = .error e) ∨
    e = .notFound .vocabulary origin ∧ origin ∈ l ∧ c.find origin = .ok none

theorem PlanError.cons {origin : Iri} {l : List Iri} {e : Error} (x : Iri)
    (h : c.PlanError origin l e) : c.PlanError origin (x :: l) e := by
  rcases h with h | ⟨w, hw, h⟩ | ⟨h, ho, hfind⟩
  · exact .inl h
  · exact .inr (.inl ⟨w, List.mem_cons_of_mem x hw, h⟩)
  · exact .inr (.inr ⟨h, List.mem_cons_of_mem x ho, hfind⟩)

theorem plans_failsWith (c : Catalogue) (origin : Iri) (l : List Iri) :
    FailsWith (c.PlanError origin l) (c.plans origin l) := by
  induction l with
  | nil => exact FailsWith.ok []
  | cons x l ih =>
      have hrest := ih.mono fun e he => he.cons x
      rw [Catalogue.plans]
      refine ((c.connection.isSnapshot_failsWith x).mono fun e he => .inl he).bind fun b hb => ?_
      cases b with
      | true => exact hrest
      | false =>
          have hx : ¬ c.connection.store.IsSnapshot x := fun h =>
            Bool.false_ne_true ((Connection.isSnapshot_eq_ok hb).mpr h)
          refine ((c.find_failsWith x).mono fun e he => he.imp_right fun h =>
            .inl ⟨x, List.mem_cons_self, hx, h⟩).bind fun o ho => ?_
          cases o with
          | none =>
              change FailsWith _ (if x = origin then _ else c.plans origin l)
              split
              · rename_i hxo
                subst hxo
                exact FailsWith.error (.inr (.inr ⟨rfl, List.mem_cons_self, ho⟩))
              · exact hrest
          | some found =>
              refine ((c.terms_failsWith found).mono fun e he => .inl he).bind fun terms _ => ?_
              exact hrest.bind fun rest _ => FailsWith.ok _

/-- The members of a related set that a snapshot copies: those that carry no
snapshot type in any graph and that their context describes. -/
def Copies (c : Catalogue) (related : IriSet) (w : Iri) : Prop :=
  w ∈ related ∧ ¬ c.connection.store.IsSnapshot w ∧
    ∃ context, c.contextOf w = .ok context ∧ c.connection.store.Describes context w

theorem exists_plan_iff {origin : Iri} {related : IriSet} {plans : List CopyPlan}
    (h : c.plans origin related.toList = .ok plans) {w : Iri} :
    (∃ p ∈ plans, p.iri = w) ↔ c.Copies related w := by
  constructor
  · rintro ⟨p, hp, rfl⟩
    obtain ⟨hsublist, hplans⟩ := of_plans_eq_ok h
    obtain ⟨hs, hfind, -⟩ := hplans p hp
    refine ⟨hsublist.subset (List.mem_map_of_mem hp), ?_, ?_⟩
    · intro hsnapshot
      exact Bool.false_ne_true ((Connection.isSnapshot_eq_ok hs).mpr hsnapshot)
    · obtain ⟨context, hcontext, ⟨ho, -⟩ | ⟨-, -, hdescribes, -⟩⟩ := find_cases hfind
      · cases ho
      · exact ⟨context, hcontext, hdescribes⟩
  · rintro ⟨hw, hsnapshot, context, hcontext, hdescribes⟩
    rcases plans_cases h hw with hs | ⟨-, ⟨hfind, -⟩ | ⟨p, hp, hiri, -⟩⟩
    · exact absurd ((Connection.isSnapshot_eq_ok hs).mp rfl) hsnapshot
    · obtain ⟨context', hcontext', ⟨-, hnot⟩ | ⟨_, ho, -⟩⟩ := find_cases hfind
      · rw [hcontext] at hcontext'
        cases hcontext'
        exact absurd hdescribes hnot
      · cases ho
    · exact ⟨p, hp, hiri⟩

theorem copies_origin {v : Iri} {related : IriSet} {plans : List CopyPlan}
    (hsnapshot : c.connection.isSnapshot v = .ok false) (hv : v ∈ related)
    (hplans : c.plans v related.toList = .ok plans) : c.Copies related v := by
  rcases plans_cases hplans hv with hs | ⟨-, ⟨-, hne⟩ | ⟨p, hp, hiri, -⟩⟩
  · rw [hsnapshot] at hs
    cases hs
  · exact absurd rfl hne
  · exact (exists_plan_iff hplans).mp ⟨p, hp, hiri⟩

theorem checkTargets_cases {k : Cascade} {plans : List CopyPlan}
    (h : Uninterrupted (c.checkTargets k plans)) :
    c.checkTargets k plans = .ok () ∧ (∀ p ∈ plans, k.target p ∉ c.connection.store.graphs) ∨
      ∃ before p after, plans = before ++ p :: after ∧
        (∀ p' ∈ before, k.target p' ∉ c.connection.store.graphs) ∧
          k.target p ∈ c.connection.store.graphs ∧
            c.checkTargets k plans = .error (.snapshotConflict (k.target p)) := by
  induction plans with
  | nil => exact .inl ⟨rfl, by simp⟩
  | cons p plans ih =>
      rw [checkTargets] at h ⊢
      obtain ⟨b, hb⟩ := h.first.exists_ok (c.connection.holds_failsWith _)
      have hgraph : b = true ↔ k.target p ∈ c.connection.store.graphs := by
        rw [← Connection.ask_of_holds hb]
        exact Store.ask_graph
      have hrest := h.second hb
      rw [hb, ok_bind]
      cases b with
      | true => exact .inr ⟨[], p, plans, rfl, by simp, hgraph.mp rfl, rfl⟩
      | false =>
          have hp : k.target p ∉ c.connection.store.graphs := fun hp =>
            Bool.false_ne_true (hgraph.mpr hp)
          rcases ih hrest with ⟨hok, hall⟩ | ⟨before, p', after, rfl, hbefore, hp', herror⟩
          · exact .inl ⟨hok, List.forall_mem_cons.mpr ⟨hp, hall⟩⟩
          · exact .inr ⟨p :: before, p', after, rfl, List.forall_mem_cons.mpr ⟨hp, hbefore⟩,
              hp', herror⟩

theorem fresh_of_checkTargets {k : Cascade} {plans : List CopyPlan}
    (h : c.checkTargets k plans = .ok ()) :
    ∀ p ∈ plans, k.target p ∉ c.connection.store.graphs := by
  have hun : Uninterrupted (c.checkTargets k plans) := h ▸ FailsWith.ok ()
  rcases checkTargets_cases hun with ⟨-, hfresh⟩ | ⟨_, _, _, -, -, -, herror⟩
  · exact hfresh
  · rw [h] at herror
    cases herror

theorem mem_cascadeQuads {k : Cascade} {plans : List CopyPlan} {quads : List Quad}
    (h : c.cascadeQuads k plans = .ok quads) {q : Quad} :
    q ∈ quads ↔ ∃ p ∈ plans, ∃ source,
      c.connection.quads { graph := some p.found.context } = .ok source ∧
        q ∈ k.graphQuads p source := by
  induction plans generalizing quads with
  | nil =>
      cases h
      simp
  | cons p plans ih =>
      obtain ⟨source, hsource, h⟩ := bind_eq_ok h
      obtain ⟨rest, hrest, h⟩ := bind_eq_ok h
      cases h
      rw [List.mem_append, ih hrest]
      simp only [List.mem_cons, exists_eq_or_imp, hsource, Except.ok.injEq, exists_eq_left']

theorem exists_source {k : Cascade} {plans : List CopyPlan} {quads : List Quad}
    (h : c.cascadeQuads k plans = .ok quads) {p : CopyPlan} (hp : p ∈ plans) :
    ∃ source, c.connection.quads { graph := some p.found.context } = .ok source := by
  induction plans generalizing quads with
  | nil => cases hp
  | cons x plans ih =>
      obtain ⟨source, hsource, h⟩ := bind_eq_ok h
      obtain ⟨rest, hrest, -⟩ := bind_eq_ok h
      rcases List.mem_cons.mp hp with rfl | hp
      · exact ⟨source, hsource⟩
      · exact ih hrest hp

theorem cascadeQuads_failsWith (c : Catalogue) (k : Cascade) (plans : List CopyPlan) :
    FailsWith Error.IsStorage (c.cascadeQuads k plans) := by
  induction plans with
  | nil => exact FailsWith.ok []
  | cons p plans ih =>
      refine (c.connection.quads_failsWith _).bind fun source _ => ?_
      exact ih.bind fun rest _ => FailsWith.ok _

theorem cascade_eq_ok {resolver : Resolver} {config : SnapshotConfig} {now : Instant}
    {v : Iri} {k : Cascade} (h : c.cascade resolver config now v = .ok k) :
    ∃ related, c.related resolver config.cascade v = .ok related ∧
      c.plans v related.toList = .ok k.plans ∧ k.created = now.truncate ∧
        k.suffix = Snapshot.suffix config.separator now := by
  obtain ⟨related, hrelated, h⟩ := bind_eq_ok h
  obtain ⟨plans, hplans, h⟩ := bind_eq_ok h
  cases h
  exact ⟨related, hrelated, hplans, rfl, rfl⟩

end Catalogue

end SkosArchive
