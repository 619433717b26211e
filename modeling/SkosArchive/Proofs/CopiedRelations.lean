import SkosArchive.Proofs.FaithfulCopies

namespace SkosArchive

theorem Store.Avoids.live_of_relates {s : Store} {suffix : String} (h : s.Avoids suffix)
    {u predicate o : Iri} (hrelates : s.Relates u predicate o) :
    ¬ u.EndsWith suffix ∧ ¬ o.EndsWith suffix := by
  obtain ⟨g, hreads⟩ := hrelates
  obtain ⟨-, hu, ho⟩ := h.live_of_reads hreads
  exact ⟨hu, ho o rfl⟩

theorem RelationSet.not_tag_of_follows {relations : RelationSet} {predicate : Iri}
    (h : relations.follows predicate = true) : predicate ∉ Cascade.tagPredicates := by
  obtain ⟨property, -, hproperty⟩ := List.any_eq_true.mp h
  rw [decide_eq_true_eq] at hproperty
  subst hproperty
  cases property <;> decide

namespace Cascade

variable {k : Cascade} {s t : Store} {p : CopyPlan} {u predicate o g : Iri}

theorem rename_inj {i j : Iri} (hi : ¬ i.EndsWith k.suffix) (hj : ¬ j.EndsWith k.suffix)
    (h : k.rename i = k.rename j) : i = j := by
  rw [← withoutSuffix_rename fun _ => hi, h, withoutSuffix_rename fun _ => hj]

theorem copies_iri (hp : p ∈ k.plans) :
    k.Copies s p ⟨u, predicate, .iri o, g⟩ ↔ g = k.target p ∧ ∃ u₀ ∈ p.owned, ∃ o₀,
      s.Reads ⟨u₀, predicate, .iri o₀, p.found.context⟩ ∧ u = u₀.withSuffix k.suffix ∧
        o = k.rename o₀ := by
  constructor
  · rintro ⟨⟨u₀, _, object, g₀⟩, hreads, hg, howned, hq⟩
    dsimp only at hg howned
    cases object with
    | literal l => cases hq
    | iri o₀ =>
        cases hq
        subst hg
        exact ⟨rfl, u₀, howned, o₀, hreads, rename_of_owned hp howned, rfl⟩
  · rintro ⟨rfl, u₀, howned, o₀, hreads, rfl, rfl⟩
    refine ⟨_, hreads, rfl, howned, ?_⟩
    simp only [copy, renameTerm, rename_of_owned hp howned]

namespace Written

variable (h : k.Written s t) (hpredicate : predicate ∉ tagPredicates)

include h hpredicate

theorem reads_iri :
    t.Reads ⟨u, predicate, .iri o, g⟩ ↔ s.Reads ⟨u, predicate, .iri o, g⟩ ∨
      ∃ p ∈ k.plans, g = k.target p ∧ ∃ u₀ ∈ p.owned, ∃ o₀,
        s.Reads ⟨u₀, predicate, .iri o₀, p.found.context⟩ ∧ u = u₀.withSuffix k.suffix ∧
          o = k.rename o₀ := by
  rw [h.reads_iff]
  refine or_congr_right (exists_congr fun p => and_congr_right fun hp => ?_)
  rw [copies_iri hp, or_iff_left fun htag => hpredicate htag.predicate]

theorem reads_target_iri (hp : p ∈ k.plans) (hext : ∀ p' ∈ k.plans, p'.iri = p.iri → p' = p) :
    t.Reads ⟨u, predicate, .iri o, k.target p⟩ ↔ ∃ u₀ ∈ p.owned, ∃ o₀,
      s.Reads ⟨u₀, predicate, .iri o₀, p.found.context⟩ ∧ u = u₀.withSuffix k.suffix ∧
        o = k.rename o₀ := by
  have hreads := h.reads_target hp hext ⟨u, predicate, .iri o, k.target p⟩
  rw [copies_iri hp, or_iff_left fun htag => hpredicate htag.predicate] at hreads
  simpa using hreads

theorem reads_copy (hp : p ∈ k.plans) (hext : ∀ p' ∈ k.plans, p'.iri = p.iri → p' = p)
    (hu : u ∈ p.owned) :
    t.Reads ⟨u.withSuffix k.suffix, predicate, .iri o, k.target p⟩ ↔
      ∃ o₀, s.Reads ⟨u, predicate, .iri o₀, p.found.context⟩ ∧ o = k.rename o₀ := by
  rw [h.reads_target_iri hpredicate hp hext]
  constructor
  · rintro ⟨u₀, -, o₀, hreads, hsuffix, rfl⟩
    cases Iri.withSuffix_inj hsuffix
    exact ⟨o₀, hreads, rfl⟩
  · rintro ⟨o₀, hreads, rfl⟩
    exact ⟨u, hu, o₀, hreads, rfl, rfl⟩

/-- A relation with the suffix at one of its ends is a copy. -/
theorem relates_of_endsWith (havoids : s.Avoids k.suffix) (hrelates : t.Relates u predicate o)
    (hends : u.EndsWith k.suffix ∨ o.EndsWith k.suffix) :
    ∃ u₀ o₀, s.Relates u₀ predicate o₀ ∧ u = u₀.withSuffix k.suffix ∧ o = k.rename o₀ := by
  obtain ⟨g, hreads⟩ := hrelates
  rcases (h.reads_iri hpredicate).mp hreads with hold | ⟨p, -, -, u₀, -, o₀, hcopied, hu, ho⟩
  · obtain ⟨hu, ho⟩ := havoids.live_of_relates ⟨g, hold⟩
    exact absurd hends (not_or.mpr ⟨hu, ho⟩)
  · exact ⟨u₀, o₀, ⟨_, hcopied⟩, hu, ho⟩

/-- What the new store relates was related before, suffixes taken off. -/
theorem relates_withoutSuffix (havoids : s.Avoids k.suffix) (hrelates : t.Relates u predicate o) :
    s.Relates (u.withoutSuffix k.suffix) predicate (o.withoutSuffix k.suffix) := by
  obtain ⟨g, hreads⟩ := hrelates
  rcases (h.reads_iri hpredicate).mp hreads with
    hold | ⟨p, -, -, u₀, -, o₀, hcopied, rfl, rfl⟩
  · obtain ⟨hu, ho⟩ := havoids.live_of_relates ⟨g, hold⟩
    rw [Iri.withoutSuffix_of_not_endsWith hu, Iri.withoutSuffix_of_not_endsWith ho]
    exact ⟨g, hold⟩
  · obtain ⟨-, ho⟩ := havoids.live_of_relates ⟨_, hcopied⟩
    rw [Iri.withoutSuffix_withSuffix, withoutSuffix_rename fun _ => ho]
    exact ⟨_, hcopied⟩

end Written

theorem Written.readable (h : k.Written s t) (hp : p ∈ k.plans) {r : Row} (hr : r ∈ t.rows)
    (hg : r.graph = k.target p) : ∃ q, r.toQuad = .ok q := by
  obtain ⟨-, -, -, q, -, rfl⟩ := h.of_mem_target hp hr hg
  exact ⟨_, Row.toQuad_ofQuad q⟩

theorem Written.describes_target (h : k.Written s t) (hp : p ∈ k.plans) :
    t.Describes (k.target p) (k.target p) := by
  have htag := (tags_iff hp).mpr ⟨.vocabulary, p.iri, .inl ⟨rfl, rfl⟩, .inl rfl⟩
  exact ⟨_, (h.rows _).mpr (.inr ⟨p, hp, _, .inr htag, rfl⟩), rfl, rfl⟩

end Cascade

end SkosArchive
