import SkosArchive.Rdf.Iri

namespace SkosArchive

/-- A finite map from IRIs, kept as its entries in strictly ascending order of
their keys, so that two maps with the same values are equal. -/
structure IriMap (β : Type) where
  entries : List (Iri × β)
  ascending : (entries.map Prod.fst).Pairwise (· < ·)

namespace IriMap

variable {β : Type}

instance [DecidableEq β] : DecidableEq (IriMap β) := fun s t =>
  if h : s.entries = t.entries then
    isTrue (by cases s; cases t; cases h; rfl)
  else isFalse (fun e => h (e ▸ rfl))

def empty : IriMap β := ⟨[], .nil⟩

/-- Puts a value at `k`, in place of the one there if there is one. -/
def place (k : Iri) (b : β) : List (Iri × β) → List (Iri × β)
  | [] => [(k, b)]
  | e :: l =>
    if k < e.1 then (k, b) :: e :: l else if e.1 < k then e :: place k b l else (k, b) :: l

theorem mem_keys_place {k x : Iri} {b : β} {l : List (Iri × β)} :
    x ∈ (place k b l).map Prod.fst ↔ x = k ∨ x ∈ l.map Prod.fst := by
  induction l with
  | nil => simp [place]
  | cons e l ih =>
    by_cases hke : k < e.1
    · simp [place, hke]
    · by_cases hek : e.1 < k
      · simp only [place, hke, hek, if_false, if_true, List.map_cons, List.mem_cons, ih]
        exact or_left_comm
      · have : k = e.1 := TotalOrder.eq_of_not_lt hke hek
        subst this
        simp [place, hke]

theorem pairwise_place {k : Iri} {b : β} {l : List (Iri × β)}
    (h : (l.map Prod.fst).Pairwise (· < ·)) : ((place k b l).map Prod.fst).Pairwise (· < ·) := by
  induction l with
  | nil => simp [place]
  | cons e l ih =>
    obtain ⟨he, hl⟩ := List.pairwise_cons.1 h
    by_cases hke : k < e.1
    · simp only [place, hke, if_true]
      refine List.pairwise_cons.2 ⟨fun x hx => ?_, h⟩
      rcases List.mem_cons.1 hx with rfl | hx
      · exact hke
      · exact TotalOrder.lt_trans hke (he x hx)
    · by_cases hek : e.1 < k
      · simp only [place, hke, hek, if_false, if_true]
        refine List.pairwise_cons.2 ⟨fun x hx => ?_, ih hl⟩
        rcases mem_keys_place.1 hx with rfl | hx
        · exact hek
        · exact he x hx
      · have : k = e.1 := TotalOrder.eq_of_not_lt hke hek
        subst this
        simpa only [place, hke, if_false, List.map_cons] using h

def insert (k : Iri) (b : β) (m : IriMap β) : IriMap β :=
  ⟨place k b m.entries, pairwise_place m.ascending⟩

def get? (m : IriMap β) (k : Iri) : Option β := (m.entries.find? fun e => e.1 = k).map Prod.snd

def contains (m : IriMap β) (k : Iri) : Bool := (m.get? k).isSome

def erase (k : Iri) (m : IriMap β) : IriMap β :=
  ⟨m.entries.filter fun e => e.1 ≠ k,
    m.ascending.sublist (List.filter_sublist.map Prod.fst)⟩

def keys (m : IriMap β) : List Iri := m.entries.map Prod.fst

def values (m : IriMap β) : List β := m.entries.map Prod.snd

def size (m : IriMap β) : Nat := m.entries.length

theorem mem_keys_of_get? {m : IriMap β} {k : Iri} {b : β} (h : m.get? k = some b) :
    k ∈ m.keys := by
  obtain ⟨e, he, -⟩ := Option.map_eq_some_iff.1 h
  have hk : e.1 = k := by simpa using List.find?_some he
  exact List.mem_map.2 ⟨e, List.mem_of_find?_eq_some he, hk⟩

theorem find?_key_cons {x : Iri} {e : Iri × β} {l : List (Iri × β)} :
    (e :: l).find? (fun e => e.1 = x) = if e.1 = x then some e else l.find? fun e => e.1 = x := by
  by_cases h : e.1 = x <;> simp [h]

theorem find?_place {k x : Iri} {b : β} {l : List (Iri × β)} :
    (place k b l).find? (fun e => e.1 = x) =
      if k = x then some (k, b) else l.find? fun e => e.1 = x := by
  induction l with
  | nil => exact find?_key_cons
  | cons e l ih =>
    by_cases hke : k < e.1
    · rw [place, if_pos hke, find?_key_cons]
    · by_cases hek : e.1 < k
      · rw [place, if_neg hke, if_pos hek, find?_key_cons, find?_key_cons, ih]
        by_cases hex : e.1 = x
        · have hkx : k ≠ x := by
            rintro rfl
            exact hke (hex ▸ hek)
          simp [hex, hkx]
        · simp [hex]
      · have hkey : k = e.1 := TotalOrder.eq_of_not_lt hke hek
        rw [place, if_neg hke, if_neg hek, find?_key_cons, find?_key_cons, ← hkey]
        by_cases hkx : k = x <;> simp [hkx]

theorem get?_insert {m : IriMap β} {k x : Iri} {b : β} :
    (m.insert k b).get? x = if k = x then some b else m.get? x := by
  rw [get?, insert, find?_place]
  split <;> rfl

theorem get?_erase {m : IriMap β} {k x : Iri} :
    (m.erase k).get? x = if k = x then none else m.get? x := by
  obtain ⟨l, hl⟩ := m
  simp only [get?, erase]
  clear hl
  induction l with
  | nil => simp
  | cons e l ih =>
    rw [find?_key_cons]
    by_cases hek : e.1 = k
    · rw [List.filter_cons_of_neg (by simpa using hek), ih, hek]
      by_cases hkx : k = x <;> simp [hkx]
    · rw [List.filter_cons_of_pos (by simpa using hek), find?_key_cons]
      by_cases hex : e.1 = x
      · have hkx : k ≠ x := fun h => hek (hex.trans h.symm)
        simp [hex, hkx]
      · rw [if_neg hex, if_neg hex, ih]

/-- An entry is found under its key. -/
theorem get?_of_mem {m : IriMap β} {e : Iri × β} (h : e ∈ m.entries) : m.get? e.1 = some e.2 := by
  obtain ⟨l, hl⟩ := m
  simp only [get?]
  induction l with
  | nil => exact absurd h List.not_mem_nil
  | cons e' l ih =>
    obtain ⟨he', hl⟩ := List.pairwise_cons.1 hl
    rcases List.mem_cons.1 h with rfl | h
    · simp
    · have hne : e'.1 ≠ e.1 := by
        intro heq
        have hlt := he' e.1 (List.mem_map_of_mem h)
        rw [heq] at hlt
        exact TotalOrder.lt_irrefl _ hlt
      simpa [List.find?_cons, hne] using ih hl h

@[simp] theorem length_keys (m : IriMap β) : m.keys.length = m.size := List.length_map _

def ofList (l : List (Iri × β)) : IriMap β := l.foldl (fun m e => m.insert e.1 e.2) empty

end IriMap

end SkosArchive
