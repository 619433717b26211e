import SkosArchive.Store.Basic

namespace SkosArchive

theorem lex_append_iff {α : Type} {before : α → α → Prop} {l l' k k' : List α}
    (hlength : l.length = l'.length) :
    List.Lex before (l ++ k) (l' ++ k') ↔
      List.Lex before l l' ∨ l = l' ∧ List.Lex before k k' := by
  induction l generalizing l' with
  | nil =>
      cases List.length_eq_zero_iff.mp hlength.symm
      simp
  | cons a l ih =>
      cases l' with
      | nil => cases hlength
      | cons a' l' =>
          have hrest := ih (Nat.succ.inj hlength)
          simp only [List.cons_append, List.cons_lex_cons_iff, hrest, List.cons.injEq]
          constructor
          · rintro (h | ⟨rfl, h | ⟨rfl, h⟩⟩)
            · exact .inl (.inl h)
            · exact .inl (.inr ⟨rfl, h⟩)
            · exact .inr ⟨⟨rfl, rfl⟩, h⟩
          · rintro ((h | ⟨rfl, h⟩) | ⟨⟨rfl, rfl⟩, h⟩)
            · exact .inl h
            · exact .inr ⟨rfl, .inl h⟩
            · exact .inr ⟨rfl, .inr ⟨rfl, h⟩⟩

namespace Row

variable {arrival : Row → Nat} {a b c r : Row} {l : List Row}

theorem texts_eq_iff : a.texts = b.texts ↔
    a.graph = b.graph ∧ a.subject = b.subject ∧ a.predicate = b.predicate ∧
      a.object = b.object := by
  obtain ⟨⟨g⟩, ⟨u⟩, ⟨p⟩, o, _, _, _⟩ := a
  obtain ⟨⟨g'⟩, ⟨u'⟩, ⟨p'⟩, o', _, _, _⟩ := b
  simp only [texts, List.cons.injEq, Iri.mk.injEq, and_true]

/-- The columns that an answer is not ordered by. -/
def ties (r : Row) : List String := [r.kind, r.language, r.datatype]

theorem lt_iff : a < b ↔ List.Lex Text.Before a.texts b.texts ∨
    a.texts = b.texts ∧ List.Lex Text.Before a.ties b.ties := by
  change List.Lex Text.Before (a.texts ++ a.ties) (b.texts ++ b.ties) ↔ _
  exact lex_append_iff rfl

/-- The order of rows that are found as they came: by their texts, and those of the
same texts by their arrival; rows that came together ascend. -/
def Before (arrival : Row → Nat) (a b : Row) : Prop :=
  List.Lex Text.Before a.texts b.texts ∨
    a.texts = b.texts ∧ (arrival a < arrival b ∨ arrival a = arrival b ∧ a < b)

theorem before_irrefl (arrival : Row → Nat) (a : Row) : ¬ Before arrival a a := by
  rintro (h | ⟨-, h | ⟨-, h⟩⟩)
  · exact List.lex_irrefl Text.before_irrefl _ h
  · exact Nat.lt_irrefl _ h
  · exact TotalOrder.lt_irrefl _ h

theorem Before.trans (h : Before arrival a b) (k : Before arrival b c) : Before arrival a c := by
  rcases h with h | ⟨hsame, h⟩
  · rcases k with k | ⟨ksame, -⟩
    · exact .inl (List.lex_trans Text.before_trans h k)
    · exact .inl (ksame ▸ h)
  · rcases k with k | ⟨ksame, k⟩
    · exact .inl (hsame ▸ k)
    · refine .inr ⟨hsame.trans ksame, ?_⟩
      rcases h with h | ⟨hequal, h⟩ <;> rcases k with k | ⟨kequal, k⟩
      · exact .inl (Nat.lt_trans h k)
      · exact .inl (kequal ▸ h)
      · exact .inl (hequal ▸ k)
      · exact .inr ⟨hequal.trans kequal, TotalOrder.lt_trans h k⟩

theorem Before.asymm (h : Before arrival a b) : ¬ Before arrival b a :=
  fun k => before_irrefl arrival a (h.trans k)

/-- A greater row comes later, unless it is passed for its arrival. -/
theorem before_of_lt (h : a < b) (hpassed : ¬ (arrival b < arrival a ∧ b.texts = a.texts)) :
    Before arrival a b := by
  rcases lt_iff.mp h with htexts | ⟨hsame, -⟩
  · exact .inl htexts
  · refine .inr ⟨hsame, ?_⟩
    rcases Nat.lt_or_ge (arrival a) (arrival b) with harrival | harrival
    · exact .inl harrival
    · rcases Nat.lt_or_eq_of_le harrival with hlater | hequal
      · exact absurd ⟨hlater, hsame.symm⟩ hpassed
      · exact .inr ⟨hequal.symm, h⟩

theorem before_of_lt_together (h : a < b) : Before (fun _ => 0) a b :=
  before_of_lt h fun hpassed => Nat.lt_irrefl 0 hpassed.1

theorem settle_perm (arrival : Row → Nat) (r : Row) (l : List Row) :
    (settle arrival r l).Perm (r :: l) := by
  induction l with
  | nil => exact List.Perm.refl _
  | cons b l ih =>
      rw [settle]
      split
      · exact (ih.cons b).trans (List.Perm.swap r b l)
      · exact List.Perm.refl _

theorem arrange_perm (arrival : Row → Nat) (l : List Row) : (arrange arrival l).Perm l := by
  induction l with
  | nil => exact List.Perm.refl _
  | cons r l ih => exact (settle_perm arrival r _).trans (ih.cons r)

@[simp] theorem mem_arrange : r ∈ arrange arrival l ↔ r ∈ l := (arrange_perm arrival l).mem_iff

theorem pairwise_settle (hl : l.Pairwise (Before arrival)) (hr : ∀ b ∈ l, r < b) :
    (settle arrival r l).Pairwise (Before arrival) := by
  induction l with
  | nil => exact List.pairwise_singleton _ _
  | cons b l ih =>
      obtain ⟨hb, hl⟩ := List.pairwise_cons.mp hl
      obtain ⟨hrb, hr⟩ := List.forall_mem_cons.mp hr
      rw [settle]
      split
      · rename_i hpassed
        refine List.pairwise_cons.mpr ⟨fun x hx => ?_, ih hl hr⟩
        rcases List.mem_cons.mp ((settle_perm arrival r l).mem_iff.mp hx) with rfl | hx
        · exact .inr ⟨hpassed.2, .inl hpassed.1⟩
        · exact hb x hx
      · rename_i hpassed
        have hfirst : Before arrival r b := before_of_lt hrb hpassed
        refine List.pairwise_cons.mpr ⟨fun x hx => ?_, List.pairwise_cons.mpr ⟨hb, hl⟩⟩
        rcases List.mem_cons.mp hx with rfl | hx
        · exact hfirst
        · exact hfirst.trans (hb x hx)

theorem pairwise_arrange (hl : l.Pairwise (· < ·)) :
    (arrange arrival l).Pairwise (Before arrival) := by
  induction l with
  | nil => exact .nil
  | cons r l ih =>
      obtain ⟨hr, hl⟩ := List.pairwise_cons.mp hl
      exact pairwise_settle (ih hl) fun b hb => hr b (mem_arrange.mp hb)

/-- Rows may be passed over before or after they are arranged. -/
theorem arrange_filter (hl : l.Pairwise (· < ·)) (P : Row → Bool) :
    (arrange arrival l).filter P = arrange arrival (l.filter P) := by
  refine List.Perm.eq_of_pairwise (fun a b _ _ hab hba => absurd hba hab.asymm)
    ((pairwise_arrange hl).sublist List.filter_sublist)
    (pairwise_arrange (hl.sublist List.filter_sublist)) ?_
  exact ((arrange_perm arrival l).filter P).trans (arrange_perm arrival _).symm

theorem arrange_together (l : List Row) : arrange (fun _ => 0) l = l := by
  induction l with
  | nil => rfl
  | cons r l ih =>
      change settle _ r (arrange _ l) = r :: l
      rw [ih]
      cases l with
      | nil => rfl
      | cons b l => rw [settle, if_neg fun h => Nat.lt_irrefl 0 h.1]

/-- Rows of the same texts give the same, if they give anything. -/
def Agree {β : Type} (f : Row → Option β) : Prop :=
  ∀ a b x y, a.texts = b.texts → f a = some x → f b = some y → x = y

theorem filterMap_settle {β : Type} {f : Row → Option β} (hf : Agree f) (arrival : Row → Nat)
    (r : Row) (l : List Row) : (settle arrival r l).filterMap f = (r :: l).filterMap f := by
  induction l with
  | nil => rfl
  | cons b l ih =>
      rw [settle]
      split
      · rename_i hpassed
        rw [List.filterMap_cons, ih]
        cases hb : f b with
        | none => simp only [List.filterMap_cons, hb]
        | some y =>
            cases hr : f r with
            | none => simp only [List.filterMap_cons, hb, hr]
            | some x =>
                obtain rfl := hf b r y x hpassed.2 hb hr
                simp only [List.filterMap_cons, hb, hr]
      · rfl

/-- The arrival of rows does not matter to what rows of the same texts agree on. -/
theorem filterMap_arrange {β : Type} {f : Row → Option β} (hf : Agree f) (arrival : Row → Nat)
    (l : List Row) : (arrange arrival l).filterMap f = l.filterMap f := by
  induction l with
  | nil => rfl
  | cons r l ih =>
      change (settle arrival r (arrange arrival l)).filterMap f = _
      rw [filterMap_settle hf, List.filterMap_cons, List.filterMap_cons, ih]

end Row

end SkosArchive
