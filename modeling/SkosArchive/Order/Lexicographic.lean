import SkosArchive.Order.Ascending

namespace SkosArchive.Text

/-- Order by code point. -/
def CharBefore (a b : Char) : Prop := a.toNat < b.toNat

instance : DecidableRel CharBefore := fun a b => inferInstanceAs (Decidable (a.toNat < b.toNat))

/-- The order of texts: by the first differing code point, a proper beginning
of a text before the text. -/
def Before (s t : String) : Prop := List.Lex CharBefore s.toList t.toList

instance : DecidableRel Before := fun s t =>
  List.decidableLex CharBefore s.toList t.toList

theorem before_irrefl (s : String) : ¬ Before s s :=
  List.lex_irrefl (fun c => Nat.lt_irrefl c.toNat) s.toList

theorem before_trans {s t u : String} (h : Before s t) (k : Before t u) : Before s u :=
  List.lex_trans (fun {_ _ _} => Nat.lt_trans) h k

theorem eq_of_not_before {s t : String} (h : ¬ Before s t) (k : ¬ Before t s) : s = t := by
  refine String.toList_inj.1 (List.lex_trichotomous (fun a b hab hba => ?_) k h)
  exact Char.toNat_inj.1 (Nat.le_antisymm (Nat.not_lt.1 hba) (Nat.not_lt.1 hab))

end SkosArchive.Text
