import Mathlib.Data.List.Perm.Subperm
import SkosArchive.Context.Candidates
import SkosArchive.Proofs.Outcome

namespace SkosArchive.Choice

variable {candidates : IriSet}

/-- The walk along the chain of a graph's parents where every parent is known. -/
def derives (parent : Iri → Option Iri) (candidates : IriSet) (steps : Nat)
    (visited : List Iri) (g : Iri) : Bool :=
  Id.run (isDerived (fun g => pure (parent g)) candidates steps visited g)

/-- The choice where every parent is known. -/
def choose (parent : Iri → Option Iri) (steps : Nat) (vocabulary : Iri)
    (candidates : List Iri) : Choice :=
  Id.run (among (fun g => pure (parent g)) steps vocabulary candidates)

theorem derives_succ (parent : Iri → Option Iri) (steps : Nat) (visited : List Iri) (g : Iri) :
    derives parent candidates (steps + 1) visited g =
      match parent g with
      | none => false
      | some p =>
        if p ∈ candidates then true
        else if p ∈ visited then false
        else derives parent candidates steps (p :: visited) p := by
  simp only [derives, isDerived, Id.run, pure, bind]
  cases parent g with
  | none => rfl
  | some p => rfl

theorem underived_eq_filter (parent : Iri → Option Iri) (steps : Nat) (graphs : List Iri) :
    Id.run (underived (fun g => pure (parent g)) candidates steps graphs) =
      graphs.filter fun g => !derives parent candidates steps [g] g := by
  induction graphs with
  | nil => rfl
  | cons g graphs ih =>
      simp only [underived, Id.run, pure, bind] at ih ⊢
      rw [ih, List.filter_cons]
      cases hg : derives parent candidates steps [g] g <;>
        simp only [derives, Id.run, pure] at hg <;> simp [hg]

section

variable {ε : Type} {parentOf parentOf' : Iri → Except ε (Option Iri)}

theorem isDerived_succ (steps : Nat) (visited : List Iri) (g : Iri) :
    isDerived parentOf candidates (steps + 1) visited g =
      (parentOf g >>= fun o => match o with
        | none => .ok false
        | some p =>
          if p ∈ candidates then .ok true
          else if p ∈ visited then .ok false
          else isDerived parentOf candidates steps (p :: visited) p) := rfl

/-- The walk does not depend on its steps, if they exceed what is left to meet
of the graphs that have a parent. -/
theorem isDerived_eq_of_steps {derived : List Iri}
    (hderived : ∀ g p, parentOf g = .ok (some p) → g ∈ derived) {steps steps' : Nat}
    {visited : List Iri} {g : Iri} (hnodup : (g :: visited).Nodup) (hvisited : visited ⊆ derived)
    (hsteps : derived.length < steps + visited.length)
    (hsteps' : derived.length < steps' + visited.length) :
    isDerived parentOf candidates steps (g :: visited) g =
      isDerived parentOf candidates steps' (g :: visited) g := by
  induction steps generalizing steps' visited g with
  | zero =>
      -- no steps are left only if more graphs were visited than have a parent
      have hlength : visited.length ≤ derived.length :=
        (List.subperm_of_subset hnodup.of_cons hvisited).length_le
      omega
  | succ steps ih =>
      have hlength : visited.length ≤ derived.length :=
        (List.subperm_of_subset hnodup.of_cons hvisited).length_le
      obtain ⟨steps', rfl⟩ : ∃ n, steps' = n + 1 := ⟨steps' - 1, by omega⟩
      rw [isDerived_succ, isDerived_succ]
      rcases hp : parentOf g with e | _ | p
      · rfl
      · rfl
      · rw [ok_bind, ok_bind]
        by_cases hcandidate : p ∈ candidates
        · simp only [hcandidate, if_true]
        · by_cases hmet : p ∈ g :: visited
          · simp only [hcandidate, hmet, if_true, if_false]
          · simp only [hcandidate, hmet, if_false]
            apply ih (List.nodup_cons.mpr ⟨hmet, hnodup⟩)
            · exact List.cons_subset.mpr ⟨hderived g p hp, hvisited⟩
            · rw [List.length_cons]; omega
            · rw [List.length_cons]; omega

theorem isDerived_congr {P : Iri → Prop} (hparent : ∀ g, P g → parentOf' g = parentOf g)
    (hclosed : ∀ g p, P g → parentOf g = .ok (some p) → P p) (steps : Nat) (visited : List Iri)
    {g : Iri} (hg : P g) :
    isDerived parentOf' candidates steps visited g =
      isDerived parentOf candidates steps visited g := by
  induction steps generalizing visited g with
  | zero => rfl
  | succ steps ih =>
      rw [isDerived_succ, isDerived_succ, hparent g hg]
      rcases hp : parentOf g with e | _ | p
      · rfl
      · rfl
      · simp only [ok_bind, ih (p :: visited) (hclosed g p hg hp)]

theorem isDerived_ok (parent : Iri → Option Iri) (steps : Nat) (visited : List Iri) (g : Iri) :
    isDerived (fun g => Except.ok (ε := ε) (parent g)) candidates steps visited g =
      .ok (derives parent candidates steps visited g) := by
  induction steps generalizing visited g with
  | zero => rfl
  | succ steps ih =>
      rw [isDerived_succ, derives_succ, ok_bind]
      cases parent g with
      | none => rfl
      | some p =>
          by_cases hcandidate : p ∈ candidates
          · simp only [hcandidate, if_true]
          · by_cases hmet : p ∈ visited
            · simp only [hcandidate, hmet, if_true, if_false]
            · simp only [hcandidate, hmet, if_false, ih]

end

theorem derives_eq_of_steps {parent : Iri → Option Iri} {derived : List Iri}
    (hderived : ∀ g p, parent g = some p → g ∈ derived) {steps steps' : Nat} {g : Iri}
    (hsteps : derived.length < steps) (hsteps' : derived.length < steps') :
    derives parent candidates steps [g] g = derives parent candidates steps' [g] g := by
  have hwalk : isDerived (fun g => Except.ok (ε := Empty) (parent g)) candidates steps [g] g =
      isDerived (fun g => .ok (parent g)) candidates steps' [g] g := by
    exact isDerived_eq_of_steps (fun g p hp => hderived g p (Except.ok.inj hp)) (by simp)
      (List.nil_subset derived) hsteps hsteps'
  rw [isDerived_ok, isDerived_ok] at hwalk
  exact Except.ok.inj hwalk

theorem derives_congr {parent parent' : Iri → Option Iri} {P : Iri → Prop}
    (hparent : ∀ g, P g → parent' g = parent g) (hclosed : ∀ g p, P g → parent g = some p → P p)
    (steps : Nat) (visited : List Iri) {g : Iri} (hg : P g) :
    derives parent' candidates steps visited g = derives parent candidates steps visited g := by
  have hwalk : isDerived (fun g => Except.ok (ε := Empty) (parent' g)) candidates steps visited g =
      isDerived (fun g => .ok (parent g)) candidates steps visited g := by
    refine isDerived_congr (fun g hg => congrArg Except.ok (hparent g hg)) ?_ steps visited hg
    exact fun g p hg hp => hclosed g p hg (Except.ok.inj hp)
  rw [isDerived_ok, isDerived_ok] at hwalk
  exact Except.ok.inj hwalk

theorem ofList_congr {l l' : List Iri} (h : ∀ g, g ∈ l ↔ g ∈ l') :
    (Ascending.ofList l : IriSet) = Ascending.ofList l' :=
  Ascending.eq_of_mem_iff fun g => by rw [Ascending.mem_ofList, Ascending.mem_ofList, h]

section

variable {m : Type → Type} [Monad m] {parentOf parentOf' : Iri → m (Option Iri)}
  {steps steps' : Nat}

theorem underived_congr {graphs : List Iri}
    (h : ∀ g ∈ graphs, isDerived parentOf' candidates steps' [g] g =
      isDerived parentOf candidates steps [g] g) :
    underived parentOf' candidates steps' graphs = underived parentOf candidates steps graphs := by
  induction graphs with
  | nil => rfl
  | cons g graphs ih =>
      obtain ⟨hg, hgraphs⟩ := List.forall_mem_cons.mp h
      rw [underived, underived, hg, ih hgraphs]

/-- The choice depends on the members of the list and on where their walks
lead. -/
theorem among_congr {l l' : List Iri} (vocabulary : Iri) (hl : ∀ g, g ∈ l' ↔ g ∈ l)
    (h : ∀ g ∈ l, isDerived parentOf' (Ascending.ofList l) steps' [g] g =
      isDerived parentOf (Ascending.ofList l) steps [g] g) :
    among parentOf' steps' vocabulary l' = among parentOf steps vocabulary l := by
  simp only [among, ofList_congr hl]
  rcases hset : (Ascending.ofList l : IriSet).toList with _ | ⟨g, _ | ⟨g', graphs⟩⟩
  · rfl
  · rfl
  · have hunderived : underived parentOf' (Ascending.ofList l) steps' (g :: g' :: graphs) =
        underived parentOf (Ascending.ofList l) steps (g :: g' :: graphs) := by
      apply underived_congr
      intro x hx
      rw [← hset] at hx
      exact h x (Ascending.mem_ofList.mp hx)
    simp only [hunderived]

/-- A single graph is chosen without a look at its parents. -/
theorem among_of_one {vocabulary g : Iri} {l : List Iri} (hg : g ∈ l) (honly : ∀ a ∈ l, a = g) :
    among parentOf steps vocabulary l = pure (.graph g) := by
  have hset : (Ascending.ofList l : IriSet) = Ascending.ofList [g] := by
    apply ofList_congr
    intro a
    rw [List.mem_singleton]
    exact ⟨honly a, fun h => h ▸ hg⟩
  simp only [among, hset]
  rfl

end

theorem choose_congr {parent parent' : Iri → Option Iri} {steps steps' : Nat}
    {l l' : List Iri} (vocabulary : Iri) (hl : ∀ g, g ∈ l' ↔ g ∈ l)
    (hderives : ∀ g ∈ l, derives parent' (Ascending.ofList l) steps' [g] g =
      derives parent (Ascending.ofList l) steps [g] g) :
    choose parent' steps' vocabulary l' = choose parent steps vocabulary l :=
  among_congr (m := Id) vocabulary hl hderives

theorem mem_of_choose {parent : Iri → Option Iri} {steps : Nat} {vocabulary g : Iri}
    {l : List Iri} (h : choose parent steps vocabulary l = .graph g) : g = vocabulary ∨ g ∈ l := by
  simp only [choose, among] at h
  rcases hset : (Ascending.ofList l : IriSet).toList with _ | ⟨a, _ | ⟨b, graphs⟩⟩
  · rw [hset] at h
    cases h
    exact .inl rfl
  · rw [hset] at h
    cases h
    refine .inr (Ascending.mem_ofList.mp ?_)
    rw [Ascending.mem_def, hset]
    exact List.mem_cons_self
  · have hunderived : underived (m := Id) (fun g => pure (parent g)) (Ascending.ofList l) steps
        (a :: b :: graphs) = (a :: b :: graphs).filter fun x =>
          !derives parent (Ascending.ofList l) steps [x] x :=
      underived_eq_filter parent steps _
    simp only [hset, Id.run, pure, bind] at h
    split at h
    · rename_i x hx
      cases h
      refine .inr (Ascending.mem_ofList.mp ?_)
      rw [Ascending.mem_def, hset]
      replace hx := hunderived.symm.trans hx
      exact List.mem_of_mem_filter (hx ▸ List.mem_cons_self)
    · cases h

/-- What is chosen does not depend on the steps, if they exceed the number of
graphs that have a parent. -/
theorem choose_eq_of_steps {parent : Iri → Option Iri} {derived : List Iri}
    (hderived : ∀ g p, parent g = some p → g ∈ derived) {steps steps' : Nat}
    (hsteps : derived.length < steps) (hsteps' : derived.length < steps') (vocabulary : Iri)
    (l : List Iri) : choose parent steps' vocabulary l = choose parent steps vocabulary l := by
  refine choose_congr vocabulary (fun _ => Iff.rfl) fun g _ => ?_
  exact derives_eq_of_steps hderived hsteps' hsteps

section

variable {parentOf : Iri → Except Error (Option Iri)} {parent : Iri → Option Iri}
  (hparent : ∀ g, Uninterrupted (parentOf g) → parentOf g = .ok (parent g))

include hparent

theorem isDerived_eq_ok (steps : Nat) (visited : List Iri) (g : Iri)
    (h : Uninterrupted (isDerived parentOf candidates steps visited g)) :
    isDerived parentOf candidates steps visited g =
      .ok (derives parent candidates steps visited g) := by
  induction steps generalizing visited g with
  | zero => rfl
  | succ steps ih =>
      rw [derives_succ]
      rw [isDerived] at h ⊢
      have hg := hparent g h.first
      replace h := h.second hg
      rw [hg, ok_bind]
      cases hp : parent g with
      | none => rfl
      | some p =>
          simp only [hp] at h
          by_cases hcandidate : p ∈ candidates
          · simp only [hcandidate, if_true]
            rfl
          · by_cases hmet : p ∈ visited
            · simp only [hcandidate, hmet, if_true, if_false]
              rfl
            · simp only [hcandidate, hmet, if_false] at h ⊢
              exact ih (p :: visited) p h

theorem underived_eq_ok (steps : Nat) (graphs : List Iri)
    (h : Uninterrupted (underived parentOf candidates steps graphs)) :
    underived parentOf candidates steps graphs =
      .ok (Id.run (underived (fun g => pure (parent g)) candidates steps graphs)) := by
  induction graphs with
  | nil => rfl
  | cons g graphs ih =>
      rw [underived] at h ⊢
      have hg := isDerived_eq_ok hparent steps [g] g h.first
      rw [hg, ok_bind, ih (h.second hg).first]
      rfl

/-- Where no call fails, the choice is the one made with the parents known. -/
theorem among_eq_ok (steps : Nat) (vocabulary : Iri) (l : List Iri)
    (h : Uninterrupted (among parentOf steps vocabulary l)) :
    among parentOf steps vocabulary l = .ok (choose parent steps vocabulary l) := by
  simp only [choose, among] at h ⊢
  revert h
  rcases (Ascending.ofList l : IriSet).toList with _ | ⟨g, _ | ⟨g', graphs⟩⟩ <;> intro h
  · rfl
  · rfl
  · dsimp only at h ⊢
    rw [underived_eq_ok hparent steps (g :: g' :: graphs) h.first, ok_bind]
    simp only [Id.run, pure, bind]
    split <;> rfl

end

theorem isDerived_failsWith {E : Error → Prop} {parentOf : Iri → Except Error (Option Iri)}
    (h : ∀ g, FailsWith E (parentOf g)) (steps : Nat) (visited : List Iri) (g : Iri) :
    FailsWith E (isDerived parentOf candidates steps visited g) := by
  induction steps generalizing visited g with
  | zero => exact FailsWith.ok false
  | succ steps ih =>
      refine (h g).bind fun o _ => ?_
      cases o with
      | none => exact FailsWith.ok false
      | some p =>
          by_cases hcandidate : p ∈ candidates
          · simp only [hcandidate, if_true]
            exact FailsWith.ok true
          · by_cases hmet : p ∈ visited
            · simp only [hcandidate, hmet, if_true, if_false]
              exact FailsWith.ok false
            · simp only [hcandidate, hmet, if_false]
              exact ih _ p

theorem among_failsWith {E : Error → Prop} {parentOf : Iri → Except Error (Option Iri)}
    (h : ∀ g, FailsWith E (parentOf g)) (steps : Nat) (vocabulary : Iri) (l : List Iri) :
    FailsWith E (among parentOf steps vocabulary l) := by
  have hunderived : ∀ candidates graphs,
      FailsWith E (underived parentOf candidates steps graphs) := by
    intro candidates graphs
    induction graphs with
    | nil => exact FailsWith.ok []
    | cons g graphs ih =>
        refine (isDerived_failsWith h steps [g] g).bind fun derived _ => ?_
        exact ih.bind fun rest _ => FailsWith.ok _
  simp only [among]
  rcases (Ascending.ofList l : IriSet).toList with _ | ⟨g, _ | ⟨g', graphs⟩⟩
  · exact FailsWith.ok _
  · exact FailsWith.ok _
  · refine (hunderived _ _).bind fun graphs _ => ?_
    split <;> exact FailsWith.ok _

end SkosArchive.Choice
