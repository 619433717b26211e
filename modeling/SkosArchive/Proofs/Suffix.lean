import SkosArchive.Store.Basic

namespace SkosArchive

namespace Iri

theorem withSuffix_inj {i j : Iri} {suffix : String}
    (h : i.withSuffix suffix = j.withSuffix suffix) : i = j := by
  cases i
  cases j
  exact congrArg Iri.mk ((String.append_left_inj suffix).mp (congrArg Iri.text h))

def EndsWith (i : Iri) (suffix : String) : Prop := ∃ j : Iri, j.withSuffix suffix = i

theorem endsWith_withSuffix (i : Iri) (suffix : String) :
    (i.withSuffix suffix).EndsWith suffix := ⟨i, rfl⟩

theorem endsWith_iff {i : Iri} {suffix : String} :
    i.EndsWith suffix ↔ suffix.toList <:+ i.text.toList := by
  constructor
  · rintro ⟨j, rfl⟩
    exact ⟨j.text.toList, by rw [withSuffix, String.toList_append]⟩
  · rintro ⟨before, h⟩
    refine ⟨⟨String.ofList before⟩, ?_⟩
    cases i
    refine congrArg Iri.mk (String.toList_inj.mp ?_)
    rw [String.toList_append, String.toList_ofList]
    exact h

instance (i : Iri) (suffix : String) : Decidable (i.EndsWith suffix) :=
  decidable_of_iff _ endsWith_iff.symm

/-- The name before the suffix; a name that does not end with it stays. -/
def withoutSuffix (i : Iri) (suffix : String) : Iri :=
  if i.EndsWith suffix then
    ⟨String.ofList (i.text.toList.take (i.text.toList.length - suffix.toList.length))⟩
  else i

theorem withoutSuffix_withSuffix (i : Iri) (suffix : String) :
    (i.withSuffix suffix).withoutSuffix suffix = i := by
  rw [withoutSuffix, if_pos (endsWith_withSuffix i suffix)]
  cases i
  refine congrArg Iri.mk (String.toList_inj.mp ?_)
  simp [withSuffix, String.toList_append]

theorem withoutSuffix_of_not_endsWith {i : Iri} {suffix : String} (h : ¬ i.EndsWith suffix) :
    i.withoutSuffix suffix = i := if_neg h

end Iri

/-- No name in the store ends with the suffix. -/
def Store.Avoids (s : Store) (suffix : String) : Prop :=
  ∀ r ∈ s.rows.toList, ¬ r.graph.EndsWith suffix ∧ ¬ r.subject.EndsWith suffix ∧
    ¬ r.predicate.EndsWith suffix ∧ (r.kind = "iri" → ¬ Iri.EndsWith ⟨r.object⟩ suffix)

instance (s : Store) (suffix : String) : Decidable (s.Avoids suffix) :=
  inferInstanceAs (Decidable (∀ r ∈ s.rows.toList, ¬ r.graph.EndsWith suffix ∧
    ¬ r.subject.EndsWith suffix ∧ ¬ r.predicate.EndsWith suffix ∧
      (r.kind = "iri" → ¬ Iri.EndsWith ⟨r.object⟩ suffix)))

end SkosArchive
