import Mathlib.Logic.Relation
import Mathlib.Data.List.Nodup
import SkosArchive.Order.IriMap
import SkosArchive.Proofs.Choice

namespace SkosArchive.Choice

/-- The chain of parents leads from one graph to another in one or more steps. -/
def Leads (parent : Iri → Option Iri) : Iri → Iri → Prop :=
  Relation.TransGen fun g p => parent g = some p

theorem leads_congr {parent parent' : Iri → Option Iri} {P : Iri → Prop}
    (hparent : ∀ g, P g → parent' g = parent g) (hclosed : ∀ g p, P g → parent g = some p → P p)
    {g c : Iri} (hg : P g) : Leads parent' g c ↔ Leads parent g c := by
  have hmono : ∀ {f f' : Iri → Option Iri}, (∀ g, P g → f' g = f g) →
      (∀ g p, P g → f g = some p → P p) → ∀ {g}, P g → Leads f g c → Leads f' g c := by
    intro f f' hf hclosed g hg h
    induction h using Relation.TransGen.head_induction_on with
    | single hp => exact .single ((hf _ hg).trans hp)
    | head hp _ ih => exact .head ((hf _ hg).trans hp) (ih (hclosed _ _ hg hp))
  constructor
  · refine hmono (fun g hg => (hparent g hg).symm) (fun g p hg hp => ?_) hg
    exact hclosed g p hg ((hparent g hg).symm.trans hp)
  · exact hmono hparent hclosed hg

/-- On the chain of a graph the first candidate comes after `n` graphs that are
none. -/
inductive FirstAfter (parent : Iri → Option Iri) (candidates : IriSet) : Nat → Iri → Prop where
  | next {g c : Iri} : parent g = some c → c ∈ candidates → FirstAfter parent candidates 0 g
  | later {n : Nat} {g p : Iri} : parent g = some p → p ∉ candidates →
    FirstAfter parent candidates n p → FirstAfter parent candidates (n + 1) g

section

variable {parent : Iri → Option Iri} {candidates : IriSet} {n : Nat} {g : Iri}

theorem FirstAfter.unique {m : Nat} (h : FirstAfter parent candidates n g)
    (h' : FirstAfter parent candidates m g) : n = m := by
  induction h generalizing m with
  | next hp hc =>
      cases h' with
      | next => rfl
      | later hp' hc' =>
          rw [hp] at hp'
          cases hp'
          exact absurd hc hc'
  | later hp hc _ ih =>
      cases h' with
      | next hp' hc' =>
          rw [hp] at hp'
          cases hp'
          exact absurd hc' hc
      | later hp' _ h' =>
          rw [hp] at hp'
          cases hp'
          exact congrArg Nat.succ (ih h')

theorem exists_firstAfter_iff :
    (∃ n, FirstAfter parent candidates n g) ↔ ∃ c ∈ candidates, Leads parent g c := by
  constructor
  · rintro ⟨n, h⟩
    induction h with
    | next hp hc => exact ⟨_, hc, .single hp⟩
    | later hp _ _ ih =>
        obtain ⟨c, hc, h⟩ := ih
        exact ⟨c, hc, .head hp h⟩
  · rintro ⟨c, hc, h⟩
    induction h using Relation.TransGen.head_induction_on with
    | single hp => exact ⟨0, .next hp hc⟩
    | @head g p hp _ ih =>
        by_cases hcandidate : p ∈ candidates
        · exact ⟨0, .next hp hcandidate⟩
        · obtain ⟨n, h⟩ := ih
          exact ⟨n + 1, .later hp hcandidate h⟩

/-- The graphs before the first candidate are distinct, since each is closer to
it than the one before. -/
theorem FirstAfter.exists_path {derived : List Iri}
    (hderived : ∀ g p, parent g = some p → g ∈ derived)
    (h : FirstAfter parent candidates n g) :
    ∃ path : List Iri, path.Nodup ∧ path ⊆ derived ∧ path.length = n + 1 ∧
      ∀ x ∈ path, ∃ m ≤ n, FirstAfter parent candidates m x := by
  induction h with
  | @next g c hp hc =>
      refine ⟨[g], by simp, by simpa using hderived g c hp, rfl, ?_⟩
      intro x hx
      rw [List.mem_singleton.mp hx]
      exact ⟨0, Nat.le_refl 0, .next hp hc⟩
  | @later n g p hp hc h ih =>
      obtain ⟨path, hnodup, hsubset, hlength, hpath⟩ := ih
      have hg : FirstAfter parent candidates (n + 1) g := .later hp hc h
      have hfresh : g ∉ path := by
        intro hmem
        obtain ⟨m, hm, h'⟩ := hpath g hmem
        have := hg.unique h'
        omega
      refine ⟨g :: path, hnodup.cons hfresh, ?_, by simp [hlength], ?_⟩
      · exact List.cons_subset.mpr ⟨hderived g p hp, hsubset⟩
      · intro x hx
        rcases List.mem_cons.mp hx with rfl | hx
        · exact ⟨n + 1, Nat.le_refl _, hg⟩
        · obtain ⟨m, hm, h'⟩ := hpath x hx
          exact ⟨m, Nat.le_succ_of_le hm, h'⟩

theorem FirstAfter.lt_length {derived : List Iri}
    (hderived : ∀ g p, parent g = some p → g ∈ derived)
    (h : FirstAfter parent candidates n g) : n < derived.length := by
  obtain ⟨path, hnodup, hsubset, hlength, -⟩ := h.exists_path hderived
  have := (List.subperm_of_subset hnodup hsubset).length_le
  omega

/-- The walk arrives at the first candidate: no graph on the way to it was
visited, since what was visited is farther from it. -/
theorem FirstAfter.derives {steps : Nat} {visited : List Iri}
    (h : FirstAfter parent candidates n g) (hsteps : n < steps)
    (hvisited : ∀ x ∈ visited, ∀ m, FirstAfter parent candidates m x → n ≤ m) :
    derives parent candidates steps visited g = true := by
  induction h generalizing steps visited with
  | next hp hc =>
      obtain ⟨steps, rfl⟩ : ∃ k, steps = k + 1 := ⟨steps - 1, by omega⟩
      simp only [derives_succ, hp, hc, if_true]
  | @later n g p hp hc h ih =>
      obtain ⟨steps, rfl⟩ : ∃ k, steps = k + 1 := ⟨steps - 1, by omega⟩
      have hfresh : p ∉ visited := by
        intro hmem
        have := hvisited p hmem n h
        omega
      simp only [derives_succ, hp, hc, hfresh, if_false]
      apply ih (by omega)
      intro x hx m hm
      rcases List.mem_cons.mp hx with rfl | hx
      · exact Nat.le_of_eq (h.unique hm)
      · exact Nat.le_of_succ_le (hvisited x hx m hm)

theorem leads_of_derives {steps : Nat} {visited : List Iri}
    (h : derives parent candidates steps visited g = true) :
    ∃ c ∈ candidates, Leads parent g c := by
  induction steps generalizing visited g with
  | zero => cases h
  | succ steps ih =>
      rw [derives_succ] at h
      cases hp : parent g with
      | none => simp [hp] at h
      | some p =>
          simp only [hp] at h
          by_cases hc : p ∈ candidates
          · exact ⟨p, hc, .single hp⟩
          · by_cases hmet : p ∈ visited
            · simp [hc, hmet] at h
            · simp only [hc, hmet, if_false] at h
              obtain ⟨c, hc, hleads⟩ := ih h
              exact ⟨c, hc, .head hp hleads⟩

theorem derives_iff {derived : List Iri} (hderived : ∀ g p, parent g = some p → g ∈ derived)
    {steps : Nat} (hsteps : derived.length < steps) :
    derives parent candidates steps [g] g = true ↔ ∃ c ∈ candidates, Leads parent g c := by
  constructor
  · exact leads_of_derives
  · intro h
    obtain ⟨n, h⟩ := exists_firstAfter_iff.mpr h
    apply h.derives (Nat.lt_trans (h.lt_length hderived) hsteps)
    intro x hx m hm
    rw [List.mem_singleton.mp hx] at hm
    exact Nat.le_of_eq (h.unique hm)

end

/-- `c` is the only one of `l` that has the property `P`. -/
def IsOnly (l : List Iri) (P : Iri → Prop) (c : Iri) : Prop :=
  c ∈ l ∧ P c ∧ ∀ g ∈ l, P g → g = c

instance (l : List Iri) (P : Iri → Prop) [DecidablePred P] (c : Iri) : Decidable (IsOnly l P c) :=
  inferInstanceAs (Decidable (c ∈ l ∧ P c ∧ ∀ g ∈ l, P g → g = c))

/-- The outcome is the only one of `l` that has the property `P`; where there is
no such graph, all of `l` are reported as candidates. -/
structure Selects (P : Iri → Prop) (vocabulary : Iri) (l : List Iri)
    (outcome : Except Error Iri) : Prop where
  ok_iff : ∀ c, outcome = .ok c ↔ IsOnly l P c
  ambiguous : (∀ c, ¬ IsOnly l P c) →
    outcome = .error (.ambiguousContext vocabulary (Ascending.ofList l))

section

variable {P Q : Iri → Prop} {vocabulary c : Iri} {l : List Iri} {outcome : Except Error Iri}

theorem isOnly_congr {k : List Iri} (hkl : ∀ g, g ∈ k ↔ g ∈ l) (hPQ : ∀ g ∈ l, P g ↔ Q g) :
    IsOnly k P c ↔ IsOnly l Q c := by
  constructor
  · rintro ⟨hc, hPc, honly⟩
    refine ⟨(hkl c).mp hc, (hPQ c ((hkl c).mp hc)).mp hPc, ?_⟩
    intro g hg hQg
    exact honly g ((hkl g).mpr hg) ((hPQ g hg).mpr hQg)
  · rintro ⟨hc, hQc, honly⟩
    refine ⟨(hkl c).mpr hc, (hPQ c hc).mpr hQc, ?_⟩
    intro g hg hPg
    exact honly g ((hkl g).mp hg) ((hPQ g ((hkl g).mp hg)).mp hPg)

theorem selects_ok (h : IsOnly l P c) : Selects P vocabulary l (.ok c) := by
  constructor
  · intro d
    constructor
    · rintro ⟨⟩
      exact h
    · rintro ⟨_, _, honly⟩
      rw [honly c h.1 h.2.1]
  · intro hnone
    exact absurd h (hnone c)

theorem selects_ambiguous (h : ∀ c, ¬ IsOnly l P c) :
    Selects P vocabulary l (.error (.ambiguousContext vocabulary (Ascending.ofList l))) := by
  constructor
  · intro c
    constructor
    · rintro ⟨⟩
    · intro hc
      exact absurd hc (h c)
  · intro _
    rfl

theorem Selects.ambiguous_iff (h : Selects P vocabulary l outcome) :
    (∃ candidates, outcome = .error (.ambiguousContext vocabulary candidates)) ↔
      ∀ c, ¬ IsOnly l P c := by
  constructor
  · rintro ⟨candidates, houtcome⟩ c hc
    rw [(h.ok_iff c).mpr hc] at houtcome
    cases houtcome
  · exact fun hnone => ⟨_, h.ambiguous hnone⟩

theorem Selects.wider_iff (h : Selects P vocabulary l outcome) (hPQ : ∀ g, P g → Q g) :
    Selects Q vocabulary l outcome ↔
      ∀ g ∈ l, Q g → ¬ P g → (∀ c, ¬ IsOnly l P c) ∧ ∃ a ∈ l, a ≠ g ∧ Q a := by
  constructor
  · intro hwider g hg hQg hPg
    constructor
    · intro c hc
      obtain ⟨_, _, honly⟩ := (hwider.ok_iff c).mp ((h.ok_iff c).mpr hc)
      rw [honly g hg hQg] at hPg
      exact hPg hc.2.1
    · by_contra hother
      have hg : IsOnly l Q g := by
        refine ⟨hg, hQg, ?_⟩
        intro a ha hQa
        by_contra hne
        exact hother ⟨a, ha, hne, hQa⟩
      exact hPg ((h.ok_iff g).mp ((hwider.ok_iff g).mpr hg)).2.1
  · intro hsame
    by_cases hmore : ∃ g ∈ l, Q g ∧ ¬ P g
    · obtain ⟨g, hg, hQg, hPg⟩ := hmore
      obtain ⟨hnone, _⟩ := hsame g hg hQg hPg
      rw [h.ambiguous hnone]
      apply selects_ambiguous
      rintro d ⟨hd, hQd, honly⟩
      by_cases hPd : P d
      · exact hnone d ⟨hd, hPd, fun x hx hPx => honly x hx (hPQ x hPx)⟩
      · obtain ⟨_, a, ha, hne, hQa⟩ := hsame d hd hQd hPd
        exact hne (honly a ha hQa)
    · have hiff : ∀ g ∈ l, Q g ↔ P g := by
        intro g hg
        constructor
        · intro hQg
          by_contra hPg
          exact hmore ⟨g, hg, hQg, hPg⟩
        · exact hPQ g
      have honly : ∀ c, IsOnly l Q c ↔ IsOnly l P c := fun c => isOnly_congr (fun _ => Iff.rfl) hiff
      constructor
      · intro c
        rw [honly, h.ok_iff]
      · intro hnone
        exact h.ambiguous fun c => (honly c).not.mp (hnone c)

theorem filter_eq_singleton_iff {s : IriSet} {p : Iri → Bool} :
    s.toList.filter p = [c] ↔ IsOnly s.toList (fun g => p g = true) c := by
  rw [← List.perm_singleton,
    List.perm_ext_iff_of_nodup (s.nodup.filter p) (List.nodup_singleton c)]
  simp only [List.mem_filter, List.mem_singleton]
  constructor
  · intro h
    obtain ⟨hc, hpc⟩ := (h c).mpr rfl
    exact ⟨hc, hpc, fun g hg hpg => (h g).mp ⟨hg, hpg⟩⟩
  · rintro ⟨hc, hpc, honly⟩ g
    constructor
    · rintro ⟨hg, hpg⟩
      exact honly g hg hpg
    · rintro rfl
      exact ⟨hc, hpc⟩

end

/-- The chain of the graph meets one of `l`, maybe the graph itself again. -/
def Meets (parent : Iri → Option Iri) (l : List Iri) (g : Iri) : Prop :=
  ∃ c ∈ l, Leads parent g c

/-- The chain of the graph reaches another one of `l`. -/
def ReachesAnother (parent : Iri → Option Iri) (l : List Iri) (g : Iri) : Prop :=
  ∃ c ∈ l, c ≠ g ∧ Leads parent g c

section

variable {parent : Iri → Option Iri} {steps : Nat} {vocabulary : Iri} {l : List Iri}

theorem choose_of_none : choose parent steps vocabulary [] = .graph vocabulary := rfl

theorem choose_of_one {g : Iri} (hg : g ∈ l) (honly : ∀ a ∈ l, a = g) :
    choose parent steps vocabulary l = .graph g := among_of_one (m := Id) hg honly

theorem choose_of_two {a b : Iri} (ha : a ∈ l) (hb : b ∈ l) (hab : a ≠ b) :
    choose parent steps vocabulary l =
      match (Ascending.ofList l : IriSet).toList.filter
        (fun g => !derives parent (Ascending.ofList l) steps [g] g) with
      | [g] => .graph g
      | _ => .ambiguous (Ascending.ofList l) := by
  have ha : a ∈ (Ascending.ofList l : IriSet).toList := Ascending.mem_ofList.mpr ha
  have hb : b ∈ (Ascending.ofList l : IriSet).toList := Ascending.mem_ofList.mpr hb
  rw [← underived_eq_filter]
  simp only [choose, among]
  rcases hset : (Ascending.ofList l : IriSet).toList with _ | ⟨g, _ | ⟨g', graphs⟩⟩
  · simp [hset] at ha
  · simp only [hset, List.mem_singleton] at ha hb
    exact absurd (ha.trans hb.symm) hab
  · simp only [Id.run, pure, bind]
    rename_i hunder
    split <;> simp only [*]

theorem choose_selects {derived : List Iri} (hderived : ∀ g p, parent g = some p → g ∈ derived)
    (hsteps : derived.length < steps) {a b : Iri} (ha : a ∈ l) (hb : b ∈ l) (hab : a ≠ b) :
    Selects (fun g => ¬ Meets parent l g) vocabulary l
      ((choose parent steps vocabulary l).toExcept vocabulary) := by
  have honly : ∀ c, IsOnly (Ascending.ofList l : IriSet).toList
      (fun g => (!derives parent (Ascending.ofList l) steps [g] g) = true) c ↔
      IsOnly l (fun g => ¬ Meets parent l g) c := by
    intro c
    apply isOnly_congr (fun _ => Ascending.mem_ofList)
    intro g _
    rw [Bool.not_eq_true', ← Bool.not_eq_true, derives_iff hderived hsteps]
    simp only [Ascending.mem_ofList, Meets]
  rw [choose_of_two ha hb hab]
  split
  · rename_i c hc
    exact selects_ok ((honly c).mp (filter_eq_singleton_iff.mp hc))
  · rename_i hnone
    apply selects_ambiguous
    intro c hc
    exact hnone c (filter_eq_singleton_iff.mpr ((honly c).mpr hc))

end

/-- The choice among graphs whose parents a map gives. -/
def resolve (parents : IriMap Iri) (vocabulary : Iri) (l : List Iri) : Except Error Iri :=
  (choose parents.get? (parents.size + 1) vocabulary l).toExcept vocabulary

section

variable (parents : IriMap Iri)

theorem derives_get?_iff {candidates : IriSet} {g : Iri} :
    derives parents.get? candidates (parents.size + 1) [g] g = true ↔
      ∃ c ∈ candidates, Leads parents.get? g c := by
  apply derives_iff (fun _ _ => IriMap.mem_keys_of_get?)
  rw [IriMap.length_keys]
  exact Nat.lt_succ_self _

instance (a b : Iri) : Decidable (Leads parents.get? a b) :=
  decidable_of_iff
    (derives parents.get? (Ascending.ofList [b]) (parents.size + 1) [a] a = true)
    ((derives_get?_iff parents).trans (by simp))

instance (l : List Iri) : DecidablePred (Meets parents.get? l) := fun g =>
  inferInstanceAs (Decidable (∃ c ∈ l, Leads parents.get? g c))

instance (l : List Iri) : DecidablePred (ReachesAnother parents.get? l) := fun g =>
  inferInstanceAs (Decidable (∃ c ∈ l, c ≠ g ∧ Leads parents.get? g c))

end

theorem meets_iff {parent : Iri → Option Iri} {l : List Iri} {g : Iri} (hg : g ∈ l) :
    Meets parent l g ↔ ReachesAnother parent l g ∨ Leads parent g g := by
  constructor
  · rintro ⟨c, hc, h⟩
    by_cases hcg : c = g
    · exact .inr (hcg ▸ h)
    · exact .inl ⟨c, hc, hcg, h⟩
  · rintro (⟨c, hc, -, h⟩ | h)
    · exact ⟨c, hc, h⟩
    · exact ⟨g, hg, h⟩

/-- Among several graphs the choice is the only one whose chain of parents never
meets one of them again. A chain that comes back to its own graph counts as much
as one that reaches another, so a graph that reaches itself alone is passed over.
The choice by the chains that reach another graph is the same just where, for
each such graph, none is chosen and it is not the only one left. -/
theorem resolve_selects (parents : IriMap Iri) (vocabulary : Iri) (l : List Iri) :
    (∀ a ∈ l, ∀ b ∈ l, a ≠ b →
      Selects (fun g => ¬ Meets parents.get? l g) vocabulary l (resolve parents vocabulary l) ∧
      (Selects (fun g => ¬ ReachesAnother parents.get? l g) vocabulary l
          (resolve parents vocabulary l) ↔
        ∀ g ∈ l, Leads parents.get? g g → ¬ ReachesAnother parents.get? l g →
          (∀ c, ¬ IsOnly l (fun x => ¬ Meets parents.get? l x) c) ∧
            ∃ x ∈ l, x ≠ g ∧ ¬ ReachesAnother parents.get? l x)) ∧
    (∀ g ∈ l, (∀ a ∈ l, a = g) → resolve parents vocabulary l = .ok g) ∧
    (l = [] → resolve parents vocabulary l = .ok vocabulary) := by
  refine ⟨?_, ?_, ?_⟩
  · intro a ha b hb hab
    have hsteps : parents.keys.length < parents.size + 1 := by simp
    have hselects : Selects (fun g => ¬ Meets parents.get? l g) vocabulary l
        (resolve parents vocabulary l) :=
      choose_selects (fun _ _ => IriMap.mem_keys_of_get?) hsteps ha hb hab
    refine ⟨hselects, (hselects.wider_iff ?_).trans ?_⟩
    · rintro g hg ⟨c, hc, -, h⟩
      exact hg ⟨c, hc, h⟩
    · apply forall₂_congr
      intro g hg
      rw [meets_iff hg]
      tauto
  · intro g hg honly
    rw [resolve, choose_of_one hg honly]
    rfl
  · rintro rfl
    rw [resolve, choose_of_none]
    rfl

theorem resolve_selects_copy :
    resolve (IriMap.ofList [(⟨"copy"⟩, ⟨"graph"⟩)]) ⟨"v"⟩ [⟨"copy"⟩, ⟨"graph"⟩] = .ok ⟨"graph"⟩ :=
  (((resolve_selects (IriMap.ofList [(⟨"copy"⟩, ⟨"graph"⟩)]) ⟨"v"⟩ [⟨"copy"⟩, ⟨"graph"⟩]).1
    ⟨"copy"⟩ (by decide) ⟨"graph"⟩ (by decide) (by decide)).1.ok_iff _).mpr (by decide +kernel)

/-- A graph that names itself as its parent is passed over, though it is the only
one that is not derived from another. -/
theorem resolve_passes_over_selfDerived :
    IsOnly [⟨"g1"⟩, ⟨"g2"⟩] (fun g => ¬ ReachesAnother
      (IriMap.ofList [(⟨"g1"⟩, ⟨"g1"⟩), (⟨"g2"⟩, ⟨"g1"⟩)]).get? [⟨"g1"⟩, ⟨"g2"⟩] g) ⟨"g1"⟩ ∧
    resolve (IriMap.ofList [(⟨"g1"⟩, ⟨"g1"⟩), (⟨"g2"⟩, ⟨"g1"⟩)]) ⟨"v"⟩ [⟨"g1"⟩, ⟨"g2"⟩] =
      .error (.ambiguousContext ⟨"v"⟩ (Ascending.ofList [⟨"g1"⟩, ⟨"g2"⟩])) := by
  constructor
  · decide +kernel
  · decide +kernel

end SkosArchive.Choice
