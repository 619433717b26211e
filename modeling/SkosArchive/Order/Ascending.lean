namespace SkosArchive

/-- A decidable strict total order. -/
class TotalOrder (α : Type) extends LT α where
  decidableLT : ∀ a b : α, Decidable (a < b)
  lt_irrefl : ∀ a : α, ¬ a < a
  lt_trans : ∀ {a b c : α}, a < b → b < c → a < c
  eq_of_not_lt : ∀ {a b : α}, ¬ a < b → ¬ b < a → a = b

instance TotalOrder.decidableBefore {α : Type} [TotalOrder α] (a b : α) : Decidable (a < b) :=
  TotalOrder.decidableLT a b

/-- A finite set, kept as its members in strictly ascending order, so that two
sets with the same members are equal. -/
structure Ascending (α : Type) [TotalOrder α] where
  toList : List α
  ascending : toList.Pairwise (· < ·)

namespace Ascending

variable {α : Type} [TotalOrder α]

instance [DecidableEq α] : DecidableEq (Ascending α) := fun s t =>
  if h : s.toList = t.toList then
    isTrue (by cases s; cases t; cases h; rfl)
  else isFalse (fun e => h (e ▸ rfl))

instance : Membership α (Ascending α) := ⟨fun s a => a ∈ s.toList⟩

instance [DecidableEq α] (a : α) (s : Ascending α) : Decidable (a ∈ s) :=
  inferInstanceAs (Decidable (a ∈ s.toList))

theorem mem_def {a : α} {s : Ascending α} : a ∈ s ↔ a ∈ s.toList := Iff.rfl

def empty : Ascending α := ⟨[], .nil⟩

/-- Puts `a` before the first larger member, unless it is a member already. -/
def place (a : α) : List α → List α
  | [] => [a]
  | b :: l => if a < b then a :: b :: l else if b < a then b :: place a l else b :: l

theorem mem_place {a x : α} {l : List α} : x ∈ place a l ↔ x = a ∨ x ∈ l := by
  induction l with
  | nil => simp [place]
  | cons b l ih =>
    by_cases hab : a < b
    · simp [place, hab]
    · by_cases hba : b < a
      · simp only [place, hab, hba, if_false, if_true, List.mem_cons, ih]
        exact or_left_comm
      · have : a = b := TotalOrder.eq_of_not_lt hab hba
        subst this
        simp [place, hab]

theorem pairwise_place {a : α} {l : List α} (h : l.Pairwise (· < ·)) :
    (place a l).Pairwise (· < ·) := by
  induction l with
  | nil => simp [place]
  | cons b l ih =>
    obtain ⟨hb, hl⟩ := List.pairwise_cons.1 h
    by_cases hab : a < b
    · simp only [place, hab, if_true]
      refine List.pairwise_cons.2 ⟨fun x hx => ?_, h⟩
      rcases List.mem_cons.1 hx with rfl | hx
      · exact hab
      · exact TotalOrder.lt_trans hab (hb x hx)
    · by_cases hba : b < a
      · simp only [place, hab, hba, if_false, if_true]
        refine List.pairwise_cons.2 ⟨fun x hx => ?_, ih hl⟩
        rcases mem_place.1 hx with rfl | hx
        · exact hba
        · exact hb x hx
      · simpa only [place, hab, hba, if_false] using h

def insert (a : α) (s : Ascending α) : Ascending α :=
  ⟨place a s.toList, pairwise_place s.ascending⟩

@[simp] theorem mem_insert {a x : α} {s : Ascending α} : x ∈ s.insert a ↔ x = a ∨ x ∈ s :=
  mem_place

def insertAll (l : List α) (s : Ascending α) : Ascending α :=
  l.foldl (fun s a => s.insert a) s

@[simp] theorem mem_insertAll {x : α} {l : List α} {s : Ascending α} :
    x ∈ s.insertAll l ↔ x ∈ l ∨ x ∈ s := by
  induction l generalizing s with
  | nil => simp [insertAll]
  | cons a l ih =>
    rw [insertAll, List.foldl_cons]
    exact ih.trans (by rw [mem_insert, List.mem_cons]; exact or_left_comm.trans or_assoc.symm)

def ofList (l : List α) : Ascending α := insertAll l empty

@[simp] theorem mem_ofList {x : α} {l : List α} : x ∈ ofList l ↔ x ∈ l := by
  rw [ofList, mem_insertAll]
  exact or_iff_left List.not_mem_nil

def filter (p : α → Bool) (s : Ascending α) : Ascending α :=
  ⟨s.toList.filter p, s.ascending.sublist List.filter_sublist⟩

@[simp] theorem mem_filter {p : α → Bool} {x : α} {s : Ascending α} :
    x ∈ s.filter p ↔ x ∈ s ∧ p x = true := List.mem_filter

def isEmpty (s : Ascending α) : Bool := s.toList.isEmpty

theorem nodup (s : Ascending α) : s.toList.Nodup := by
  refine s.ascending.imp ?_
  rintro a _ hlt rfl
  exact TotalOrder.lt_irrefl a hlt

theorem eq_of_mem_iff {s t : Ascending α} (h : ∀ x, x ∈ s ↔ x ∈ t) : s = t := by
  obtain ⟨l, hl⟩ := s
  obtain ⟨k, hk⟩ := t
  congr
  induction l generalizing k with
  | nil =>
    cases k with
    | nil => rfl
    | cons b k => exact absurd ((h b).2 List.mem_cons_self) List.not_mem_nil
  | cons a l ih =>
    cases k with
    | nil => exact absurd ((h a).1 List.mem_cons_self) List.not_mem_nil
    | cons b k =>
      obtain ⟨ha, hl⟩ := List.pairwise_cons.1 hl
      obtain ⟨hb, hk'⟩ := List.pairwise_cons.1 hk
      have hab : a = b := by
        rcases List.mem_cons.1 ((h a).1 List.mem_cons_self) with e | hak
        · exact e
        · rcases List.mem_cons.1 ((h b).2 List.mem_cons_self) with e | hbl
          · exact e.symm
          · exact absurd (TotalOrder.lt_trans (ha b hbl) (hb a hak)) (TotalOrder.lt_irrefl a)
      subst hab
      refine congrArg (a :: ·) (ih hl k hk' fun x => ?_)
      have hx := h x
      simp only [mem_def, List.mem_cons] at hx ⊢
      constructor
      · intro hxl
        rcases hx.1 (.inr hxl) with rfl | hxk
        · exact absurd (ha x hxl) (TotalOrder.lt_irrefl x)
        · exact hxk
      · intro hxk
        rcases hx.2 (.inr hxk) with rfl | hxl
        · exact absurd (hb x hxk) (TotalOrder.lt_irrefl x)
        · exact hxl

end Ascending

end SkosArchive
