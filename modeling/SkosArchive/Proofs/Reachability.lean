import SkosArchive.Proofs.Traversal

namespace SkosArchive

namespace Reachable

variable {α β ε : Type} [DecidableEq α] {next : α → Except ε (List α)} {start : α}

theorem mem_of_mem_append_fresh {found visited : List α} {b : α}
    (h : b ∈ visited ++ fresh found visited) : b ∈ visited ∨ b ∈ found := by
  rcases List.mem_append.mp h with h | h
  · exact .inl h
  · exact .inr (mem_fresh.mp h).1

theorem Searches.visited_subset {queue visited l : List α}
    (h : Searches next queue visited (.ok l)) : visited ⊆ l := by
  generalize houtcome : Except.ok l = outcome at h
  induction h with
  | done visited =>
      cases houtcome
      exact List.Subset.refl _
  | failed _ => cases houtcome
  | step _ _ ih => exact List.Subset.trans (List.subset_append_left _ _) (ih houtcome)

theorem Searches.sound {queue visited l : List α} (h : Searches next queue visited (.ok l))
    (hqueue : ∀ a ∈ queue, Reachable next start a)
    (hvisited : ∀ a ∈ visited, Reachable next start a) : ∀ a ∈ l, Reachable next start a := by
  generalize houtcome : Except.ok l = outcome at h
  induction h with
  | done visited =>
      cases houtcome
      exact hvisited
  | failed _ => cases houtcome
  | step hfound _ ih =>
      obtain ⟨ha, hqueue⟩ := List.forall_mem_cons.mp hqueue
      refine ih ?_ ?_ houtcome
      · intro b hb
        rcases List.mem_append.mp hb with hb | hb
        · exact hqueue b hb
        · exact .step ha hfound (mem_fresh.mp hb).1
      · intro b hb
        rcases mem_of_mem_append_fresh hb with hb | hb
        · exact hvisited b hb
        · exact .step ha hfound hb

theorem Searches.closed {queue visited l : List α} (h : Searches next queue visited (.ok l))
    (hdone : ∀ a ∈ visited, a ∉ queue → ∃ found, next a = .ok found ∧ found ⊆ visited) :
    ∀ a ∈ l, ∃ found, next a = .ok found ∧ found ⊆ l := by
  generalize houtcome : Except.ok l = outcome at h
  induction h with
  | done visited =>
      cases houtcome
      exact fun a ha => hdone a ha List.not_mem_nil
  | failed _ => cases houtcome
  | @step a queue visited found _ hfound _ ih =>
      refine ih ?_ houtcome
      -- the member just taken from the queue is done now, and so is what was done before
      intro b hb hnot
      rw [List.mem_append, not_or] at hnot
      obtain hb := (List.mem_append.mp hb).resolve_right hnot.2
      by_cases hba : b = a
      · subst hba
        refine ⟨found, hfound, ?_⟩
        intro c hc
        by_cases hmet : c ∈ visited
        · exact List.mem_append_left _ hmet
        · exact List.mem_append_right _ (mem_fresh.mpr ⟨hc, hmet⟩)
      · have hbqueue : b ∉ a :: queue := by simp [hba, hnot.1]
        obtain ⟨found', hfound', hsubset⟩ := hdone b hb hbqueue
        exact ⟨found', hfound', List.subset_append_of_subset_left _ hsubset⟩

theorem searches_from? {all : List α} (hnext : ∀ a found, next a = .ok found → found ⊆ all)
    (hstart : start ∈ all) {fuel : Nat} (hfuel : all.length ≤ fuel) :
    Searches next [start] [start] (from? next fuel start) := by
  refine searches_explore hnext (by simp) (by simpa using hstart) ?_
  simp only [List.length_singleton]
  omega

theorem Searches.eq_ok {l : List α} (h : Searches next [start] [start] (.ok l)) :
    (∀ a, a ∈ l ↔ Reachable next start a) ∧ ∀ a ∈ l, ∃ found, next a = .ok found := by
  have hclosed := h.closed fun a ha hnot => absurd ha hnot
  constructor
  · intro a
    constructor
    · apply h.sound
      · simpa using Reachable.refl
      · simpa using Reachable.refl
    · intro hreach
      induction hreach with
      | refl => exact h.visited_subset List.mem_cons_self
      | step _ hfound hb ih =>
          obtain ⟨found, hfound', hsubset⟩ := hclosed _ ih
          rw [hfound] at hfound'
          cases hfound'
          exact hsubset hb
  · intro a ha
    obtain ⟨found, hfound, -⟩ := hclosed a ha
    exact ⟨found, hfound⟩

theorem explore_failsWith_of_reachable {E : Error → Prop} {next : α → Except Error (List α)}
    (h : ∀ a, Reachable next start a → FailsWith E (next a)) (fuel : Nat) {queue : List α}
    (hqueue : ∀ a ∈ queue, Reachable next start a) (visited : List α) :
    FailsWith E (explore next fuel queue visited) := by
  induction fuel generalizing queue visited with
  | zero => exact FailsWith.ok visited
  | succ fuel ih =>
      cases queue with
      | nil => exact FailsWith.ok visited
      | cons a queue =>
          obtain ⟨ha, hqueue⟩ := List.forall_mem_cons.mp hqueue
          rw [explore_cons]
          refine (h a ha).bind fun found hfound => ih ?_ _
          intro b hb
          rcases List.mem_append.mp hb with hb | hb
          · exact hqueue b hb
          · exact .step ha hfound (mem_fresh.mp hb).1

theorem exists_from? {next : α → Except Error (List α)}
    (h : ∀ a, Reachable next start a → ∃ found, next a = .ok found) (fuel : Nat) :
    ∃ l, from? next fuel start = .ok l := by
  have hnext : ∀ a, Reachable next start a → FailsWith (fun _ => False) (next a) := by
    intro a ha
    obtain ⟨found, hfound⟩ := h a ha
    rw [hfound]
    exact FailsWith.ok found
  exact (explore_failsWith_of_reachable hnext fuel (by simpa using Reachable.refl) _).exists_ok

omit [DecidableEq α] in
/-- Where every step from what is reached has an image under `f`, the images
are just what is reached from the image of the start. -/
theorem map_iff {next' : β → Except ε (List β)} {f : α → β}
    (h : ∀ a, Reachable next start a → ∃ found found', next a = .ok found ∧
      next' (f a) = .ok found' ∧ ∀ b, b ∈ found' ↔ ∃ a' ∈ found, b = f a') {b : β} :
    Reachable next' (f start) b ↔ ∃ a, Reachable next start a ∧ b = f a := by
  constructor
  · intro hreach
    induction hreach with
    | refl => exact ⟨start, .refl, rfl⟩
    | step _ hnext' hb ih =>
        obtain ⟨a, ha, rfl⟩ := ih
        obtain ⟨found, found', hfound, hfound', hiff⟩ := h a ha
        rw [hfound'] at hnext'
        cases hnext'
        obtain ⟨a', ha', rfl⟩ := (hiff _).mp hb
        exact ⟨a', .step ha hfound ha', rfl⟩
  · rintro ⟨a, hreach, rfl⟩
    induction hreach with
    | refl => exact .refl
    | step ha hnext hb ih =>
        obtain ⟨found, found', hfound, hfound', hiff⟩ := h _ ha
        rw [hfound] at hnext
        cases hnext
        exact .step ih hfound' ((hiff _).mpr ⟨_, hb, rfl⟩)

end Reachable

end SkosArchive
