import SkosArchive.Proofs.AnswerOrder
import SkosArchive.Proofs.Outcome
import SkosArchive.Store.Connection

namespace SkosArchive

namespace Pattern

variable {p : Pattern} {r : Row}

theorem covers_graph {g : Iri} : covers { graph := some g } r = true ↔ r.graph = g := by
  simp only [covers, Option.all_some, Option.all_none, Bool.and_true, decide_eq_true_eq]
  exact eq_comm

theorem covers_subject {u : Iri} : covers { subject := some u } r = true ↔ r.subject = u := by
  simp only [covers, Option.all_some, Option.all_none, Bool.and_true, Bool.true_and,
    decide_eq_true_eq]
  exact eq_comm

theorem covers_description {g u : Iri} :
    covers { graph := some g, subject := some u } r = true ↔ r.graph = g ∧ r.subject = u := by
  simp only [covers, Option.all_some, Option.all_none, Bool.and_true, Bool.and_eq_true,
    decide_eq_true_eq]
  exact and_congr eq_comm eq_comm

theorem graph_of_covers {g : Iri} (hp : p.graph = some g) (h : p.covers r = true) :
    r.graph = g := by
  simp only [covers, hp, Option.all_some, Bool.and_eq_true, decide_eq_true_eq] at h
  exact h.1.1.1.symm

theorem subject_of_covers {u : Iri} (hp : p.subject = some u) (h : p.covers r = true) :
    r.subject = u := by
  simp only [covers, hp, Option.all_some, Bool.and_eq_true, decide_eq_true_eq] at h
  exact h.1.1.2.symm

theorem predicate_of_covers {i : Iri} (hp : p.predicate = some i) (h : p.covers r = true) :
    r.predicate = i := by
  simp only [covers, hp, Option.all_some, Bool.and_eq_true, decide_eq_true_eq] at h
  exact h.1.2.symm

theorem object_of_covers {i : Iri} (hp : p.object = some (.iri i)) (h : p.covers r = true) :
    r.kind = "iri" ∧ r.object = i.text := by
  simp only [covers, hp, Option.all_some, Row.objectColumns, Bool.and_eq_true, decide_eq_true_eq,
    Prod.mk.injEq] at h
  exact ⟨h.2.2.1.symm, h.2.1.symm⟩

end Pattern

/-- `q` says something about `i`, or relates something to it. -/
def Quad.Mentions (q : Quad) (i : Iri) : Prop := q.subject = i ∨ q.object = .iri i

/-- A literal as it is read back after it was stored: an empty language or
datatype counts as absent. -/
def Literal.normal (l : Literal) : Literal where
  value := l.value
  language := l.language.filter fun s => s ≠ ""
  datatype := l.datatype.filter fun i => i.text ≠ ""

def Term.normal : Term → Term
  | .iri i => .iri i
  | .literal l => .literal l.normal

theorem Term.iri?_eq_some {o : Term} {i : Iri} : o.iri? = some i ↔ o = .iri i := by
  cases o <;> simp [Term.iri?]

theorem Term.literal?_eq_some {o : Term} {l : Literal} : o.literal? = some l ↔ o = .literal l := by
  cases o <;> simp [Term.literal?]

def Quad.normal (q : Quad) : Quad := { q with object := q.object.normal }

namespace Row

theorem absentIfEmpty_getD (o : Option String) :
    absentIfEmpty (o.getD "") = o.filter fun s => s ≠ "" := by
  cases o with
  | none => rfl
  | some s => by_cases h : s = "" <;> simp [absentIfEmpty, Option.filter, h]

theorem absentIfEmpty_text (o : Option Iri) :
    (absentIfEmpty ((o.map Iri.text).getD "")).map Iri.mk = o.filter fun i => i.text ≠ "" := by
  cases o with
  | none => rfl
  | some i => by_cases h : i.text = "" <;> simp [absentIfEmpty, Option.filter, h]

theorem toQuad_ofQuad (q : Quad) : (ofQuad q).toQuad = .ok q.normal := by
  obtain ⟨u, p, o, g⟩ := q
  cases o with
  | iri i => rfl
  | literal l =>
      change toQuad ⟨g, u, p, l.value, "literal", l.language.getD "",
        (l.datatype.map Iri.text).getD ""⟩ = _
      rw [toQuad, if_neg (show "literal" ≠ "iri" by decide), if_pos rfl,
        absentIfEmpty_getD, absentIfEmpty_text]
      rfl

/-- A row that can be read keeps its graph, subject and predicate; its object
is an IRI or a literal as its kind says. -/
theorem toQuad_eq_ok {r : Row} {q : Quad} (h : r.toQuad = .ok q) :
    ∃ o, q = ⟨r.subject, r.predicate, o, r.graph⟩ ∧
      (r.kind = "iri" ∧ o = .iri ⟨r.object⟩ ∨ r.kind = "literal" ∧ ∃ l, o = .literal l) := by
  rw [toQuad] at h
  split at h
  · rename_i hkind
    cases h
    exact ⟨_, rfl, .inl ⟨hkind, rfl⟩⟩
  · split at h
    · rename_i hkind
      cases h
      exact ⟨_, rfl, .inr ⟨hkind, _, rfl⟩⟩
    · cases h

/-- A quad is read as it would be if it had been written and read again. -/
theorem normal_of_toQuad {r : Row} {q : Quad} (h : r.toQuad = .ok q) : q.normal = q := by
  rw [toQuad] at h
  split at h
  · cases h
    rfl
  · split at h
    · cases h
      by_cases hl : r.language = "" <;> by_cases hd : r.datatype = "" <;>
        simp [Quad.normal, Term.normal, Literal.normal, absentIfEmpty, hl, hd, Option.filter]
    · cases h

theorem exists_toQuad_of_iri {r : Row} (h : r.kind = "iri") : ∃ q, r.toQuad = .ok q :=
  ⟨_, if_pos h⟩

theorem graph_of_toQuad {r : Row} {q : Quad} (h : r.toQuad = .ok q) : q.graph = r.graph := by
  obtain ⟨o, rfl, -⟩ := toQuad_eq_ok h
  rfl

theorem subject_of_toQuad {r : Row} {q : Quad} (h : r.toQuad = .ok q) :
    q.subject = r.subject := by
  obtain ⟨o, rfl, -⟩ := toQuad_eq_ok h
  rfl

theorem predicate_of_toQuad {r : Row} {q : Quad} (h : r.toQuad = .ok q) :
    q.predicate = r.predicate := by
  obtain ⟨o, rfl, -⟩ := toQuad_eq_ok h
  rfl

theorem object_of_toQuad {r : Row} {q : Quad} {i : Iri} (h : r.toQuad = .ok q)
    (hi : q.object = .iri i) : r.kind = "iri" ∧ r.object = i.text := by
  obtain ⟨o, rfl, ⟨hkind, rfl⟩ | ⟨-, l, rfl⟩⟩ := toQuad_eq_ok h
  · cases hi
    exact ⟨hkind, rfl⟩
  · cases hi

/-- Rows of the same texts that hold an IRI read as the same quad. -/
theorem toQuad_of_texts {a b : Row} {q q' : Quad} (h : a.texts = b.texts) (ha : a.toQuad = .ok q)
    (hb : b.toQuad = .ok q') (hq : q.objectIri? ≠ none) (hq' : q'.objectIri? ≠ none) : q = q' := by
  have hiri : ∀ {r : Row} {q : Quad}, r.toQuad = .ok q → q.objectIri? ≠ none →
      q = ⟨r.subject, r.predicate, .iri ⟨r.object⟩, r.graph⟩ := by
    intro r q hr hq
    obtain ⟨o, rfl, ⟨-, rfl⟩ | ⟨-, l, rfl⟩⟩ := toQuad_eq_ok hr
    · rfl
    · exact absurd rfl hq
  obtain ⟨hg, hu, hp, ho⟩ := texts_eq_iff.mp h
  rw [hiri ha hq, hiri hb hq', hg, hu, hp, ho]

theorem value_of_toQuad {r : Row} {q : Quad} {l : Literal} (h : r.toQuad = .ok q)
    (hl : q.object = .literal l) : l.value = r.object := by
  rw [toQuad] at h
  split at h
  · cases h
    cases hl
  · split at h
    · cases h
      cases hl
      rfl
    · cases h

end Row

namespace Store

/-- `q` is one of the quads that the stored rows read as. -/
def Reads (s : Store) (q : Quad) : Prop := ∃ r ∈ s.rows, r.toQuad = .ok q

theorem normal_of_reads {s : Store} {q : Quad} (h : s.Reads q) : q.normal = q := by
  obtain ⟨r, -, hq⟩ := h
  exact Row.normal_of_toQuad hq

/-- Some graph relates `u` to `o`. -/
def Relates (s : Store) (u predicate o : Iri) : Prop := ∃ g, s.Reads ⟨u, predicate, .iri o, g⟩

/-- Some quad mentions `i`. -/
def Mentions (s : Store) (i : Iri) : Prop := ∃ q, s.Reads q ∧ q.Mentions i

/-- All that the rows can mention, in two positions each. -/
def positions (s : Store) : List Iri := s.rows.toList.flatMap fun r => [r.subject, ⟨r.object⟩]

theorem length_positions (s : Store) : s.positions.length = 2 * s.rows.toList.length := by
  rw [positions, List.length_flatMap]
  induction s.rows.toList with
  | nil => rfl
  | cons r l ih =>
      simp only [List.map_cons, List.sum_cons, List.length_cons, List.length_nil] at ih ⊢
      omega

theorem mem_positions_of_mentions {s : Store} {i : Iri} (h : s.Mentions i) : i ∈ s.positions := by
  obtain ⟨q, ⟨r, hr, hrq⟩, hi⟩ := h
  refine List.mem_flatMap.mpr ⟨r, hr, ?_⟩
  rcases hi with rfl | hi
  · rw [Row.subject_of_toQuad hrq]
    exact List.mem_cons_self
  · rw [(Row.object_of_toQuad hrq hi).2]
    exact List.mem_cons_of_mem _ List.mem_cons_self

/-- `graph` says something about `subject`. -/
def Describes (s : Store) (graph subject : Iri) : Prop :=
  ∃ r ∈ s.rows, r.graph = graph ∧ r.subject = subject

theorem mem_select {s : Store} {p : Pattern} {r : Row} :
    r ∈ s.select p ↔ r ∈ s.rows ∧ p.covers r = true := List.mem_filter

theorem ask_eq_true {s : Store} {p : Pattern} :
    s.ask p = true ↔ ∃ r ∈ s.rows, p.covers r = true := by
  simp only [ask, List.any_eq_true, Ascending.mem_def]

theorem mem_graphs {s : Store} {g : Iri} : g ∈ s.graphs ↔ ∃ r ∈ s.rows, r.graph = g := by
  simp only [graphs, Ascending.mem_ofList, List.mem_map]
  rfl

theorem ask_graph {s : Store} {g : Iri} :
    s.ask { graph := some g } = true ↔ g ∈ s.graphs := by
  rw [ask_eq_true, mem_graphs]
  exact exists_congr fun r => and_congr_right fun _ => Pattern.covers_graph

/-- The quads that the covered rows read as, in their order; a row that cannot
be read is passed over. -/
def quads (s : Store) (p : Pattern) : List Quad :=
  (s.select p).filterMap fun r => r.toQuad.toOption

theorem mem_quads {s : Store} {p : Pattern} {q : Quad} :
    q ∈ s.quads p ↔ ∃ r ∈ s.rows, p.covers r = true ∧ r.toQuad = .ok q := by
  simp only [quads, List.mem_filterMap, mem_select, toOption_eq_some, and_assoc]

theorem mem_quads_graph {s : Store} {g : Iri} {q : Quad} :
    q ∈ s.quads { graph := some g } ↔ s.Reads q ∧ q.graph = g := by
  rw [mem_quads]
  constructor
  · rintro ⟨r, hr, hcovers, hq⟩
    exact ⟨⟨r, hr, hq⟩, (Row.graph_of_toQuad hq).trans (Pattern.covers_graph.mp hcovers)⟩
  · rintro ⟨⟨r, hr, hq⟩, hg⟩
    rw [Row.graph_of_toQuad hq] at hg
    exact ⟨r, hr, Pattern.covers_graph.mpr hg, hq⟩

/-- A query for an IRI as the object covers only rows that a quad is stored as. -/
theorem mem_quads_iri {s : Store} {g u p : Option Iri} {i : Iri} {q : Quad} :
    q ∈ s.quads { graph := g, subject := u, predicate := p, object := some (.iri i) } ↔
      q.object = .iri i ∧ .ofQuad q ∈ s.rows ∧ g.all (· = q.graph) = true ∧
        u.all (· = q.subject) = true ∧ p.all (· = q.predicate) = true := by
  rw [mem_quads]
  constructor
  · rintro ⟨⟨g', u', p', o, kind, language, datatype⟩, hr, hcovers, hq⟩
    simp only [Pattern.covers, Row.objectColumns, Option.all_some, Bool.and_eq_true,
      decide_eq_true_eq, Prod.mk.injEq] at hcovers
    obtain ⟨⟨⟨hg, hu⟩, hp⟩, rfl, rfl, rfl, rfl⟩ := hcovers
    cases hq
    exact ⟨rfl, hr, hg, hu, hp⟩
  · rintro ⟨ho, hr, hg, hu, hp⟩
    obtain ⟨u', p', o, g'⟩ := q
    subst ho
    refine ⟨_, hr, ?_, Row.toQuad_ofQuad _⟩
    simpa [Pattern.covers, Row.ofQuad, Row.objectColumns] using ⟨⟨hg, hu⟩, hp⟩

section Answers

variable {s t : Store} {arrival arrival' : Row → Nat} {p : Pattern} {l : List Quad}

theorem answer_eq_select (hp : p.byArrival = false) : s.answer arrival p = s.select p := by
  rw [answer, hp]
  rfl

theorem mem_answer {r : Row} : r ∈ s.answer arrival p ↔ r ∈ s.rows ∧ p.covers r = true := by
  rw [answer]
  split
  · rw [Row.mem_arrange, mem_select]
  · exact mem_select

theorem answer_of_select (arrival : Row → Nat) (h : s.select p = t.select p) :
    s.answer arrival p = t.answer arrival p := by
  rw [answer, answer, h]

/-- The quads that the rows of an answer read as; a row that cannot be read is
passed over. -/
def answered (s : Store) (arrival : Row → Nat) (p : Pattern) : List Quad :=
  (s.answer arrival p).filterMap fun r => r.toQuad.toOption

theorem answered_eq_quads (hp : p.byArrival = false) : s.answered arrival p = s.quads p := by
  rw [answered, answer_eq_select hp, quads]

/-- Rows that came together are found by their columns alone. -/
theorem answered_together (s : Store) (p : Pattern) : s.answered (fun _ => 0) p = s.quads p := by
  rw [answered, answer, Row.arrange_together, ite_self, quads]

theorem mem_answered {q : Quad} : q ∈ s.answered arrival p ↔ q ∈ s.quads p := by
  simp only [answered, mem_quads, List.mem_filterMap, mem_answer, toOption_eq_some, and_assoc]

/-- Only the literals among the quads of the same texts are told apart by when they
came. -/
theorem filterMap_answered {β : Type} {f : Quad → Option β}
    (hf : ∀ q, q.objectIri? = none → f q = none) :
    (s.answered arrival p).filterMap f = (s.quads p).filterMap f := by
  rw [answered, answer]
  split
  · rw [quads, List.filterMap_filterMap, List.filterMap_filterMap]
    refine Row.filterMap_arrange (fun a b x y htexts ha hb => ?_) arrival _
    obtain ⟨q, hq, hx⟩ := Option.bind_eq_some_iff.mp ha
    obtain ⟨q', hq', hy⟩ := Option.bind_eq_some_iff.mp hb
    have hsame : q = q' := Row.toQuad_of_texts htexts (toOption_eq_some.mp hq)
      (toOption_eq_some.mp hq') (fun h => by simp [hf q h] at hx) fun h => by simp [hf q' h] at hy
    rw [hsame, hy] at hx
    exact (Option.some.inj hx).symm
  · rfl

/-- What a query without a limit gives, if it can read every row it covers. -/
theorem find_eq_ok (hp : p.limit = none) (h : s.find arrival p = .ok l) :
    l = s.answered arrival p ∧ ∀ r ∈ s.rows, p.covers r = true → ∃ q, r.toQuad = .ok q := by
  simp only [find, hp] at h
  obtain ⟨hl, hall⟩ := mapM_eq_ok h
  exact ⟨hl, fun r hr hcovers => hall r (mem_answer.mpr ⟨hr, hcovers⟩)⟩

/-- A query without a limit reads the rows that it covers, if all of them can be
read. -/
theorem find_eq_answered (hp : p.limit = none)
    (h : ∀ r ∈ s.rows, p.covers r = true → ∃ q, r.toQuad = .ok q) :
    s.find arrival p = .ok (s.answered arrival p) := by
  simp only [find, hp]
  apply mapM_of_forall
  intro r hr
  obtain ⟨hr, hcovers⟩ := mem_answer.mp hr
  exact h r hr hcovers

theorem reads_of_find (h : s.find arrival p = .ok l) {q : Quad} (hq : q ∈ l) : s.Reads q := by
  have hread : ∀ rows : List Row, rows ⊆ s.answer arrival p → rows.mapM Row.toQuad = .ok l →
      s.Reads q := by
    intro rows hrows hl
    rw [(mapM_eq_ok hl).1] at hq
    obtain ⟨r, hr, hrq⟩ := List.mem_filterMap.mp hq
    exact ⟨r, (mem_answer.mp (hrows hr)).1, toOption_eq_some.mp hrq⟩
  rw [find] at h
  split at h
  · exact hread _ (List.Subset.refl _) h
  · split at h
    · exact hread _ (List.take_subset _ _) h
    · cases h

theorem find_congr (h : s.answer arrival p = t.answer arrival' p) :
    s.find arrival p = t.find arrival' p := by
  simp only [find, h]

end Answers

theorem quads_congr {s t : Store} {p : Pattern} (h : s.select p = t.select p) :
    s.quads p = t.quads p := by
  rw [quads, quads, h]

theorem ask_congr {s t : Store} {p : Pattern} (h : s.select p = t.select p) :
    s.ask p = t.ask p := by
  rw [Bool.eq_iff_iff, ask_eq_true, ask_eq_true]
  apply exists_congr
  intro r
  rw [← mem_select, ← mem_select, h]

theorem select_eq_of_covers_iff {s t : Store} {p : Pattern}
    (h : ∀ r, p.covers r = true → (r ∈ s.rows ↔ r ∈ t.rows)) : s.select p = t.select p := by
  have heq : s.rows.filter p.covers = t.rows.filter p.covers := by
    refine Ascending.eq_of_mem_iff fun r => ?_
    simp only [Ascending.mem_filter]
    exact and_congr_left (h r)
  exact congrArg Ascending.toList heq

theorem eq_of_rows {s t : Store} (hsealed : s.sealed = t.sealed)
    (h : ∀ r, r ∈ s.rows ↔ r ∈ t.rows) : s = t := by
  cases s
  cases t
  cases hsealed
  congr
  exact Ascending.eq_of_mem_iff h

theorem mem_rows_insert {s t : Store} {quads : List Quad} (h : s.insert quads = .ok t)
    {r : Row} : r ∈ t.rows ↔ r ∈ s.rows ∨ ∃ q ∈ quads, r = .ofQuad q := by
  induction quads generalizing s with
  | nil =>
      cases h
      simp
  | cons q quads ih =>
      rw [insert] at h
      split at h
      · cases h
      · rw [ih h]
        simp only [put, Ascending.mem_insert, List.mem_cons, exists_eq_or_imp]
        exact (or_congr_left or_comm).trans or_assoc

/-- An insertion changes nothing for a query that covers none of the quads. -/
theorem select_insert {s t : Store} {quads : List Quad} {p : Pattern} (h : s.insert quads = .ok t)
    (hp : ∀ q ∈ quads, p.covers (.ofQuad q) ≠ true) : t.select p = s.select p := by
  apply select_eq_of_covers_iff
  intro r hcovers
  rw [mem_rows_insert h]
  constructor
  · rintro (hr | ⟨q, hq, rfl⟩)
    · exact hr
    · exact absurd hcovers (hp q hq)
  · exact .inl

theorem sealed_insert {s t : Store} {quads : List Quad} (h : s.insert quads = .ok t) :
    t.sealed = s.sealed := by
  induction quads generalizing s with
  | nil => cases h; rfl
  | cons q quads ih =>
      rw [insert] at h
      split at h
      · cases h
      · exact (ih h).trans rfl

theorem apply_dropGraph (s : Store) (graphs : List Iri) :
    ∃ t : Store, s.apply (graphs.map .dropGraph) = .ok t ∧ t.sealed = s.sealed ∧
      ∀ r, r ∈ t.rows ↔ r ∈ s.rows ∧ r.graph ∉ graphs := by
  induction graphs generalizing s with
  | nil => exact ⟨s, rfl, rfl, fun r => by simp⟩
  | cons g graphs ih =>
      obtain ⟨t, ht, hsealed, hrows⟩ := ih (s.dropGraph g)
      refine ⟨t, ht, hsealed, fun r => ?_⟩
      rw [hrows]
      simp only [dropGraph, Ascending.mem_filter, decide_eq_true_eq, List.mem_cons, not_or,
        and_assoc]

theorem mem_graphs_of_dropped {s t : Store} {graphs : List Iri} {g : Iri}
    (hrows : ∀ r, r ∈ t.rows ↔ r ∈ s.rows ∧ r.graph ∉ graphs) :
    g ∈ t.graphs ↔ g ∈ s.graphs ∧ g ∉ graphs := by
  simp only [mem_graphs, hrows]
  constructor
  · rintro ⟨r, ⟨hr, hkept⟩, rfl⟩
    exact ⟨⟨r, hr, rfl⟩, hkept⟩
  · rintro ⟨⟨r, hr, rfl⟩, hkept⟩
    exact ⟨r, ⟨hr, hkept⟩, rfl⟩

end Store

/-- An IRI is stored with neither a language nor a datatype. -/
def Row.Regular (r : Row) : Prop := r.kind = "iri" → r.language = "" ∧ r.datatype = ""

theorem Row.regular_ofQuad (q : Quad) : (ofQuad q).Regular := by
  obtain ⟨u, p, o, g⟩ := q
  cases o with
  | iri i => exact fun _ => ⟨rfl, rfl⟩
  | literal l => exact fun h => absurd h (show "literal" ≠ "iri" by decide)

namespace Store

/-- The rows are such as quads are stored in. -/
def Regular (s : Store) : Prop := ∀ r ∈ s.rows, r.Regular

variable {s t : Store}

theorem Regular.reads_iri (h : s.Regular) {u p o g : Iri} :
    s.Reads ⟨u, p, .iri o, g⟩ ↔ .ofQuad ⟨u, p, .iri o, g⟩ ∈ s.rows := by
  constructor
  · rintro ⟨r, hr, hrq⟩
    obtain ⟨hkind, hobject⟩ := Row.object_of_toQuad hrq rfl
    obtain ⟨hlanguage, hdatatype⟩ := h r hr hkind
    have hu := Row.subject_of_toQuad hrq
    have hp := Row.predicate_of_toQuad hrq
    have hg := Row.graph_of_toQuad hrq
    cases r
    cases hkind
    cases hobject
    cases hlanguage
    cases hdatatype
    cases hu
    cases hp
    cases hg
    exact hr
  · exact fun hr => ⟨_, hr, Row.toQuad_ofQuad _⟩

theorem regular_ofQuads (quads : List Quad) : (ofQuads quads).Regular := by
  intro r hr
  obtain ⟨q, -, rfl⟩ := List.mem_map.mp (Ascending.mem_ofList.mp hr)
  exact Row.regular_ofQuad q

theorem forall_rows_update {P : Row → Prop} (hquads : ∀ q, P (.ofQuad q))
    (h : ∀ r ∈ s.rows, P r) {change : Update} (ht : s.update change = .ok t) :
    ∀ r ∈ t.rows, P r := by
  cases change with
  | insert quads =>
      intro r hr
      rcases (mem_rows_insert ht).mp hr with hr | ⟨q, -, rfl⟩
      · exact h r hr
      · exact hquads q
  | delete p =>
      cases ht
      exact fun r hr => h r (Ascending.mem_filter.mp hr).1
  | dropGraph g =>
      cases ht
      exact fun r hr => h r (Ascending.mem_filter.mp hr).1

/-- What holds of the rows of quads and of the rows of a store holds of its rows
after any changes. -/
theorem forall_rows_apply {P : Row → Prop} (hquads : ∀ q, P (.ofQuad q))
    (h : ∀ r ∈ s.rows, P r) {changes : List Update} (ht : s.apply changes = .ok t) :
    ∀ r ∈ t.rows, P r := by
  induction changes generalizing s with
  | nil =>
      cases ht
      exact h
  | cons change changes ih =>
      obtain ⟨s', hs', ht⟩ := bind_eq_ok ht
      exact ih (forall_rows_update hquads h hs') ht

/-- Every row can be read as a quad. -/
def Readable (s : Store) : Prop := ∀ r ∈ s.rows, ∃ q, r.toQuad = .ok q

theorem Readable.apply (h : s.Readable) {changes : List Update} (ht : s.apply changes = .ok t) :
    t.Readable := forall_rows_apply (fun q => ⟨_, Row.toQuad_ofQuad q⟩) h ht

theorem reads_ofQuads {quads : List Quad} {q : Quad} (h : q ∈ quads) :
    (ofQuads quads).Reads q.normal :=
  ⟨.ofQuad q, Ascending.mem_ofList.mpr (List.mem_map_of_mem h), Row.toQuad_ofQuad q⟩

theorem readable_ofQuads (quads : List Quad) : (ofQuads quads).Readable := by
  intro r hr
  obtain ⟨q, -, rfl⟩ := List.mem_map.mp (Ascending.mem_ofList.mp hr)
  exact ⟨_, Row.toQuad_ofQuad q⟩

end Store

namespace Connection

variable {c : Connection}

theorem attempt_eq_ok {α : Type} {call : Call} {result : Except StorageError α} {a : α}
    (h : c.attempt call result = .ok a) : result = .ok a := by
  rw [attempt] at h
  split at h
  · cases h
  · exact h

/-- The quads of an answer on the connection. -/
def answered (c : Connection) (p : Pattern) : List Quad := c.store.answered c.service.arrival p

theorem mem_answered {p : Pattern} {q : Quad} : q ∈ c.answered p ↔ q ∈ c.store.quads p :=
  Store.mem_answered

theorem find_of_quads {p : Pattern} {quads : List Quad} (h : c.quads p = .ok quads) :
    c.store.find c.service.arrival p = .ok quads := attempt_eq_ok (mapError_eq_ok h)

theorem ask_of_holds {p : Pattern} {b : Bool} (h : c.holds p = .ok b) :
    c.store.ask p = b := Except.ok.inj (attempt_eq_ok (mapError_eq_ok h))

theorem quads_failsWith (c : Connection) (p : Pattern) :
    FailsWith Error.IsStorage (c.quads p) := persistence_failsWith _

theorem holds_failsWith (c : Connection) (p : Pattern) :
    FailsWith Error.IsStorage (c.holds p) := persistence_failsWith _

theorem insert_eq_ok {quads : List Quad} {t : Store}
    (h : (c.insert quads).mapError Error.persistence = .ok t) :
    c.store.insert quads = .ok t := by
  have happly : c.store.apply [.insert quads] = .ok t := attempt_eq_ok (mapError_eq_ok h)
  obtain ⟨t', ht', happly⟩ := bind_eq_ok happly
  cases happly
  exact ht'

theorem quads_eq_answered {p : Pattern} {l : List Quad} (hp : p.limit = none)
    (h : c.quads p = .ok l) : l = c.answered p :=
  (Store.find_eq_ok hp (find_of_quads h)).1

theorem quads_eq_ok {p : Pattern} {l : List Quad} (hp : p.limit = none)
    (hkey : p.byArrival = false) (h : c.quads p = .ok l) : l = c.store.quads p :=
  (quads_eq_answered hp h).trans (Store.answered_eq_quads hkey)

theorem mem_quads {p : Pattern} {l : List Quad} (hp : p.limit = none) (h : c.quads p = .ok l)
    {q : Quad} : q ∈ l ↔ ∃ r ∈ c.store.rows, p.covers r = true ∧ r.toQuad = .ok q := by
  rw [quads_eq_answered hp h, mem_answered, Store.mem_quads]

theorem mem_description {g u : Iri} {l : List Quad}
    (h : c.quads { graph := some g, subject := some u } = .ok l) {q : Quad} :
    q ∈ l ↔ c.store.Reads q ∧ q.graph = g ∧ q.subject = u := by
  rw [mem_quads rfl h]
  constructor
  · rintro ⟨r, hr, hcovers, hq⟩
    obtain ⟨hg, hu⟩ := Pattern.covers_description.mp hcovers
    exact ⟨⟨r, hr, hq⟩, (Row.graph_of_toQuad hq).trans hg, (Row.subject_of_toQuad hq).trans hu⟩
  · rintro ⟨⟨r, hr, hq⟩, hg, hu⟩
    rw [Row.graph_of_toQuad hq] at hg
    rw [Row.subject_of_toQuad hq] at hu
    exact ⟨r, hr, Pattern.covers_description.mpr ⟨hg, hu⟩, hq⟩

theorem reads_of_quads {p : Pattern} {l : List Quad} (h : c.quads p = .ok l) {q : Quad}
    (hq : q ∈ l) : c.store.Reads q := Store.reads_of_find (find_of_quads h) hq

/-- Two connections agree on what a query gives, if their stores do on the rows
that it covers and these are not found as they came. -/
theorem quads_agrees {c c' : Connection} {p : Pattern} (hkey : p.byArrival = false)
    (h : c'.store.select p = c.store.select p) : Agrees (c'.quads p) (c.quads p) := by
  intro hx hy
  obtain ⟨l', hl'⟩ := Uninterrupted.exists_ok hx (c'.quads_failsWith p)
  obtain ⟨l, hl⟩ := Uninterrupted.exists_ok hy (c.quads_failsWith p)
  have hanswer : c'.store.answer c'.service.arrival p = c.store.answer c.service.arrival p := by
    rw [Store.answer_eq_select hkey, Store.answer_eq_select hkey, h]
  have hfind := find_of_quads hl'
  rw [Store.find_congr hanswer, find_of_quads hl] at hfind
  cases hfind
  rw [hl, hl']

/-- They agree on the IRIs in any case. -/
theorem iris_agrees {c c' : Connection} {p : Pattern} (hp : p.limit = none)
    (h : c'.store.select p = c.store.select p) :
    Agrees ((c'.quads p).map (List.filterMap Quad.objectIri?))
      ((c.quads p).map (List.filterMap Quad.objectIri?)) := by
  intro hx hy
  cases hl' : c'.quads p with
  | error e => exact absurd (c'.quads_failsWith p e hl') (hx e (by rw [hl']; rfl))
  | ok l' =>
      cases hl : c.quads p with
      | error e => exact absurd (c.quads_failsWith p e hl) (hy e (by rw [hl]; rfl))
      | ok l =>
          have hiris : ∀ {d : Connection} {l : List Quad}, d.quads p = .ok l →
              l.filterMap Quad.objectIri? = (d.store.quads p).filterMap Quad.objectIri? := by
            intro d l hl
            rw [quads_eq_answered hp hl]
            exact Store.filterMap_answered fun _ => id
          change Except.ok _ = Except.ok _
          rw [hiris hl, hiris hl', Store.quads_congr h]

theorem quads_ne_nil {p : Pattern} {l : List Quad} (hp : p.limit = none)
    (h : c.quads p = .ok l) : l ≠ [] ↔ ∃ r ∈ c.store.rows, p.covers r = true := by
  constructor
  · intro hne
    obtain ⟨q, hq⟩ := List.exists_mem_of_ne_nil l hne
    obtain ⟨r, hr, hcovers, -⟩ := (mem_quads hp h).mp hq
    exact ⟨r, hr, hcovers⟩
  · rintro ⟨r, hr, hcovers⟩
    obtain ⟨q, hq⟩ := (Store.find_eq_ok hp (find_of_quads h)).2 r hr hcovers
    exact List.ne_nil_of_mem ((mem_quads hp h).mpr ⟨r, hr, hcovers, hq⟩)

/-- Where no call fails, a query succeeds if the rows that it covers can be
read. -/
theorem reliable_quads {t : Store} {arrival : Row → Nat} {p : Pattern} (hp : p.limit = none)
    (h : ∀ r ∈ t.rows, p.covers r = true → ∃ q, r.toQuad = .ok q) :
    (reliable t arrival).quads p = .ok (t.answered arrival p) := by
  change (t.find arrival p).mapError Error.persistence = _
  rw [Store.find_eq_answered hp h]
  rfl

theorem quads_succeed {t : Store} {arrival : Row → Nat} (h : t.Readable) {p : Pattern}
    (hp : p.limit = none) : FailsWith (fun _ => False) ((reliable t arrival).quads p) := by
  rw [reliable_quads hp fun r hr _ => h r hr]
  exact FailsWith.ok _

end Connection

end SkosArchive
