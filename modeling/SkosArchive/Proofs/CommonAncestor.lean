import Mathlib.Data.Fintype.EquivFin
import SkosArchive.Proofs.Derivation

namespace SkosArchive.Choice

/-- No chain of parents comes back to a graph that it has left. -/
def Acyclic (parent : Iri → Option Iri) : Prop := ∀ g, ¬ Leads parent g g

/-- `c` is one of `l`, and the chain of every other one passes through it. -/
def IsCommonAncestor (parent : Iri → Option Iri) (l : List Iri) (c : Iri) : Prop :=
  c ∈ l ∧ ∀ g ∈ l, g ≠ c → Leads parent g c

instance (parents : IriMap Iri) (l : List Iri) (c : Iri) :
    Decidable (IsCommonAncestor parents.get? l c) :=
  inferInstanceAs (Decidable (c ∈ l ∧ ∀ g ∈ l, g ≠ c → Leads parents.get? g c))

section

variable {parent : Iri → Option Iri} {l : List Iri} {c : Iri}

theorem Acyclic.wellFounded (h : Acyclic parent) (l : List Iri) :
    WellFounded fun p g : {x // x ∈ l} => Leads parent g p := by
  have : IsTrans {x // x ∈ l} fun p g => Leads parent g p :=
    ⟨fun _ _ _ hpq hqg => Relation.TransGen.trans hqg hpq⟩
  have : Std.Irrefl fun p g : {x // x ∈ l} => Leads parent g p := ⟨fun g => h g⟩
  exact Finite.wellFounded_of_trans_of_irrefl _

/-- Where only the chain of `c` meets none of `l`, every other chain leads on
from one of `l` to the next until it arrives at `c`. -/
theorem leads_of_isOnly (h : Acyclic parent) (hc : IsOnly l (fun g => ¬ Meets parent l g) c)
    {g : Iri} (hg : g ∈ l) (hne : g ≠ c) : Leads parent g c := by
  induction hx : (⟨g, hg⟩ : {x // x ∈ l}) using (h.wellFounded l).induction generalizing g with
  | _ x ih =>
      subst hx
      have hmeets : Meets parent l g := by
        by_contra hnone
        exact hne (hc.2.2 g hg hnone)
      obtain ⟨p, hp, hleads⟩ := hmeets
      by_cases hpc : p = c
      · exact hpc ▸ hleads
      · exact hleads.trans (ih ⟨p, hp⟩ hleads hp hpc rfl)

theorem isCommonAncestor_iff (h : Acyclic parent) :
    IsCommonAncestor parent l c ↔ IsOnly l (fun g => ¬ Meets parent l g) c := by
  constructor
  · rintro ⟨hc, hothers⟩
    refine ⟨hc, ?_, ?_⟩
    · rintro ⟨d, hd, hleads⟩
      by_cases hdc : d = c
      · exact h c (hdc ▸ hleads)
      · exact h c (hleads.trans (hothers d hd hdc))
    · intro g hg hnone
      by_contra hgc
      exact hnone ⟨c, hc, hothers g hg hgc⟩
  · intro hc
    exact ⟨hc.1, fun g hg hne => leads_of_isOnly h hc hg hne⟩

end

theorem choose_selects_of_acyclic {parent : Iri → Option Iri} (hacyclic : Acyclic parent)
    {derived : List Iri} (hderived : ∀ g p, parent g = some p → g ∈ derived) {steps : Nat}
    (hsteps : derived.length < steps) {vocabulary a : Iri} {l : List Iri} (ha : a ∈ l) :
    Selects (fun g => ¬ Meets parent l g) vocabulary l
      ((choose parent steps vocabulary l).toExcept vocabulary) := by
  by_cases hone : ∀ b ∈ l, b = a
  · rw [choose_of_one ha hone]
    refine selects_ok ⟨ha, ?_, fun b hb _ => hone b hb⟩
    rintro ⟨b, hb, hleads⟩
    exact hacyclic a (hone b hb ▸ hleads)
  · obtain ⟨b, hb, hne⟩ : ∃ b ∈ l, b ≠ a := by simpa using hone
    exact choose_selects hderived hsteps hb ha hne

theorem acyclic_iff {parent : Iri → Option Iri} {derived : List Iri}
    (hderived : ∀ g p, parent g = some p → g ∈ derived) :
    Acyclic parent ↔ ∀ g ∈ derived, ¬ Leads parent g g := by
  constructor
  · exact fun h g _ => h g
  · intro h g hleads
    obtain ⟨p, hp, -⟩ := Relation.TransGen.head'_iff.mp hleads
    exact h g (hderived g p hp) hleads

theorem acyclic_get?_iff (parents : IriMap Iri) :
    Acyclic parents.get? ↔ ∀ g ∈ parents.keys, ¬ Leads parents.get? g g :=
  acyclic_iff fun _ _ => IriMap.mem_keys_of_get?

instance (parents : IriMap Iri) : Decidable (Acyclic parents.get?) :=
  decidable_of_iff _ (acyclic_get?_iff parents).symm

/-- Among several graphs whose chains of parents have no cycle, the choice is the
one that all the others are derived from, through whatever graphs there are in
between. -/
theorem resolve_commonAncestor (parents : IriMap Iri) (hacyclic : Acyclic parents.get?)
    (vocabulary : Iri) {l : List Iri} {a b : Iri} (ha : a ∈ l) (hb : b ∈ l) (hab : a ≠ b)
    (c : Iri) :
    resolve parents vocabulary l = .ok c ↔ IsCommonAncestor parents.get? l c := by
  have hsteps : parents.keys.length < parents.size + 1 := by simp
  have hselects : Selects (fun g => ¬ Meets parents.get? l g) vocabulary l
      (resolve parents vocabulary l) :=
    choose_selects (fun _ _ => IriMap.mem_keys_of_get?) hsteps ha hb hab
  rw [hselects.ok_iff, isCommonAncestor_iff hacyclic]

theorem resolve_commonAncestor_copies :
    let parents : IriMap Iri :=
      IriMap.ofList [(⟨"a"⟩, ⟨"draft"⟩), (⟨"draft"⟩, ⟨"graph"⟩), (⟨"b"⟩, ⟨"graph"⟩),
        (⟨"graph"⟩, ⟨"source"⟩)]
    let l : List Iri := [⟨"a"⟩, ⟨"graph"⟩, ⟨"b"⟩]
    Acyclic parents.get? ∧ ⟨"a"⟩ ∈ l ∧ ⟨"b"⟩ ∈ l ∧ resolve parents ⟨"v"⟩ l = .ok ⟨"graph"⟩ := by
  intro parents l
  have hacyclic : Acyclic parents.get? := by decide +kernel
  have ha : ⟨"a"⟩ ∈ l := by decide
  have hb : ⟨"b"⟩ ∈ l := by decide
  have hancestor : IsCommonAncestor parents.get? l ⟨"graph"⟩ := by decide +kernel
  exact ⟨hacyclic, ha, hb,
    (resolve_commonAncestor parents hacyclic ⟨"v"⟩ ha hb (by decide) ⟨"graph"⟩).mpr hancestor⟩

end SkosArchive.Choice
