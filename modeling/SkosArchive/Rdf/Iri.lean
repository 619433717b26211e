import SkosArchive.Order.Lexicographic

namespace SkosArchive

/-- The name of a resource or of a graph, an opaque key. -/
structure Iri where
  text : String
deriving DecidableEq

namespace Iri

instance : TotalOrder Iri where
  lt a b := Text.Before a.text b.text
  decidableLT a b := inferInstanceAs (Decidable (Text.Before a.text b.text))
  lt_irrefl a := Text.before_irrefl a.text
  lt_trans := Text.before_trans
  eq_of_not_lt {a b} h k := by
    cases a; cases b
    exact congrArg Iri.mk (Text.eq_of_not_before h k)

def withSuffix (iri : Iri) (suffix : String) : Iri := ⟨iri.text ++ suffix⟩

end Iri

abbrev IriSet := Ascending Iri

end SkosArchive
