import Mathlib.Data.List.Perm.Subperm
import SkosArchive.Proofs.Outcome
import SkosArchive.Relation.Reachability

namespace SkosArchive

theorem nodup_eraseDups {α : Type} [DecidableEq α] (l : List α) : l.eraseDups.Nodup := by
  induction hn : l.length using Nat.strongRecOn generalizing l with
  | ind n ih =>
      cases l with
      | nil => exact List.nodup_nil
      | cons a l =>
          rw [List.eraseDups_cons, List.nodup_cons]
          constructor
          · simp [List.mem_eraseDups]
          · refine ih _ ?_ _ rfl
            rw [← hn]
            exact Nat.lt_succ_of_le (List.length_filter_le _ l)

namespace Reachable

variable {α ε : Type} [DecidableEq α] {next : α → Except ε (List α)}

/-- What a step of the search adds: what it found and had not met before, each
once. -/
def fresh (found visited : List α) : List α := found.eraseDups.filter fun b => b ∉ visited

theorem mem_fresh {found visited : List α} {b : α} :
    b ∈ fresh found visited ↔ b ∈ found ∧ b ∉ visited := by
  rw [fresh, List.mem_filter, List.mem_eraseDups, decide_eq_true_iff]

theorem nodup_append_fresh {found visited : List α} (h : visited.Nodup) :
    (visited ++ fresh found visited).Nodup := by
  refine List.nodup_append.mpr ⟨h, (nodup_eraseDups found).filter _, ?_⟩
  rintro a ha b hb rfl
  exact (mem_fresh.mp hb).2 ha

theorem explore_cons (fuel : Nat) (a : α) (queue visited : List α) :
    explore next (fuel + 1) (a :: queue) visited =
      (next a >>= fun found =>
        explore next fuel (queue ++ fresh found visited) (visited ++ fresh found visited)) := rfl

theorem explore_nil (fuel : Nat) (visited : List α) :
    explore next fuel [] visited = .ok visited := by
  cases fuel <;> rfl

/-- The search with no bound on its steps, as far as it comes to an end. -/
inductive Searches (next : α → Except ε (List α)) :
    (queue visited : List α) → Except ε (List α) → Prop where
  | done (visited : List α) : Searches next [] visited (.ok visited)
  | failed {a : α} {queue visited : List α} {e : ε} :
    next a = .error e → Searches next (a :: queue) visited (.error e)
  | step {a : α} {queue visited found : List α} {outcome : Except ε (List α)} :
    next a = .ok found →
    Searches next (queue ++ fresh found visited) (visited ++ fresh found visited) outcome →
    Searches next (a :: queue) visited outcome

theorem Searches.unique {queue visited : List α} {outcome outcome' : Except ε (List α)}
    (h : Searches next queue visited outcome) (h' : Searches next queue visited outcome') :
    outcome = outcome' := by
  induction h with
  | done visited =>
      cases h'
      rfl
  | failed he =>
      cases h' with
      | failed he' =>
          cases he.symm.trans he'
          rfl
      | step hfound _ => cases he.symm.trans hfound
  | step hfound _ ih =>
      cases h' with
      | failed he => cases hfound.symm.trans he
      | step hfound' h' =>
          cases hfound.symm.trans hfound'
          exact ih h'

/-- The search ends where the steps stay within finitely many: each member of
`all` is taken from the queue once at most, and with fuel for that the bounded
search comes to the same end. -/
theorem searches_explore {all : List α} (hnext : ∀ a found, next a = .ok found → found ⊆ all)
    {fuel : Nat} {queue visited : List α} (hnodup : visited.Nodup) (hvisited : visited ⊆ all)
    (hfuel : all.length + queue.length ≤ fuel + visited.length) :
    Searches next queue visited (explore next fuel queue visited) := by
  have hlength : visited.length ≤ all.length :=
    (List.subperm_of_subset hnodup hvisited).length_le
  induction fuel generalizing queue visited with
  | zero =>
      obtain rfl : queue = [] := List.eq_nil_of_length_eq_zero (by omega)
      rw [explore_nil]
      exact .done visited
  | succ fuel ih =>
      cases queue with
      | nil =>
          rw [explore_nil]
          exact .done visited
      | cons a queue =>
          rw [List.length_cons] at hfuel
          rw [explore_cons]
          cases hfound : next a with
          | error e => exact .failed hfound
          | ok found =>
              have hsubset : visited ++ fresh found visited ⊆ all := by
                refine List.append_subset.mpr ⟨hvisited, fun b hb => ?_⟩
                exact hnext a found hfound (mem_fresh.mp hb).1
              have hnodup' : (visited ++ fresh found visited).Nodup := nodup_append_fresh hnodup
              -- a step takes one from the queue and adds as many to it as it visits
              exact .step hfound (ih hnodup' hsubset (by simp only [List.length_append]; omega)
                (List.subperm_of_subset hnodup' hsubset).length_le)

theorem explore_eq_of_fuel {all : List α} (hnext : ∀ a found, next a = .ok found → found ⊆ all)
    {fuel fuel' : Nat} {queue visited : List α} (hnodup : visited.Nodup) (hvisited : visited ⊆ all)
    (hfuel : all.length + queue.length ≤ fuel + visited.length)
    (hfuel' : all.length + queue.length ≤ fuel' + visited.length) :
    explore next fuel queue visited = explore next fuel' queue visited :=
  (searches_explore hnext hnodup hvisited hfuel).unique
    (searches_explore hnext hnodup hvisited hfuel')

theorem explore_agrees {E : Error → Prop} {next next' : α → Except Error (List α)} {P : α → Prop}
    (hagrees : ∀ a, P a → AgreesUnless E (next' a) (next a))
    (hclosed : ∀ a found, P a → next a = .ok found → ∀ b ∈ found, P b) (fuel : Nat)
    {queue : List α} (hqueue : ∀ a ∈ queue, P a) (visited : List α) :
    AgreesUnless E (explore next' fuel queue visited) (explore next fuel queue visited) := by
  induction fuel generalizing queue visited with
  | zero => exact AgreesUnless.refl _
  | succ fuel ih =>
      cases queue with
      | nil => exact AgreesUnless.refl _
      | cons a queue =>
          obtain ⟨ha, hqueue⟩ := List.forall_mem_cons.mp hqueue
          rw [explore_cons, explore_cons]
          refine (hagrees a ha).bind fun found hfound => ih ?_ _
          intro b hb
          rcases List.mem_append.mp hb with hb | hb
          · exact hqueue b hb
          · exact hclosed a found ha hfound b (mem_fresh.mp hb).1

theorem explore_failsWith {E : Error → Prop} {next : α → Except Error (List α)}
    (h : ∀ a, FailsWith E (next a)) (fuel : Nat) (queue visited : List α) :
    FailsWith E (explore next fuel queue visited) := by
  induction fuel generalizing queue visited with
  | zero => exact FailsWith.ok visited
  | succ fuel ih =>
      cases queue with
      | nil => exact FailsWith.ok visited
      | cons a queue => exact (h a).bind fun found _ => ih _ _

end Reachable

end SkosArchive
