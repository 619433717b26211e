import Mathlib.Data.Set.Basic
import SkosArchive.Proofs.Storage

namespace SkosArchive

namespace Row

@[simp] theorem objectColumns_normal (o : Term) : objectColumns o.normal = objectColumns o := by
  cases o with
  | iri i => rfl
  | literal l =>
      obtain ⟨value, language, datatype⟩ := l
      have hlanguage : (language.filter fun s => s ≠ "").getD "" = language.getD "" := by
        cases language with
        | none => rfl
        | some s => by_cases h : s = "" <;> simp [Option.filter, h]
      have hdatatype : ((datatype.filter fun i => i.text ≠ "").map Iri.text).getD "" =
          (datatype.map Iri.text).getD "" := by
        cases datatype with
        | none => rfl
        | some i => by_cases h : i.text = "" <;> simp [Option.filter, h]
      simp only [Term.normal, Literal.normal, objectColumns, hlanguage, hdatatype]

@[simp] theorem ofQuad_normal (q : Quad) : ofQuad q.normal = ofQuad q := by
  simp only [ofQuad, Quad.normal, objectColumns_normal]

theorem ofQuad_eq_iff {q q' : Quad} : ofQuad q = ofQuad q' ↔ q.normal = q'.normal := by
  constructor
  · intro h
    have hread := toQuad_ofQuad q
    rw [h, toQuad_ofQuad] at hread
    exact (Except.ok.inj hread).symm
  · intro h
    rw [← ofQuad_normal q, h, ofQuad_normal]

theorem objectColumns_eq_iff {o o' : Term} :
    objectColumns o = objectColumns o' ↔ o.normal = o'.normal := by
  constructor
  · intro h
    have hrow : ofQuad ⟨⟨""⟩, ⟨""⟩, o, ⟨""⟩⟩ = ofQuad ⟨⟨""⟩, ⟨""⟩, o', ⟨""⟩⟩ := by
      simp only [ofQuad, h]
    exact congrArg Quad.object (ofQuad_eq_iff.mp hrow)
  · intro h
    rw [← objectColumns_normal o, h, objectColumns_normal]

end Row

theorem Quad.normal_normal (q : Quad) : q.normal.normal = q.normal :=
  Row.normal_of_toQuad (Row.toQuad_ofQuad q)

/-- `q` has what `p` asks for in every position that `p` binds; a literal counts
as it is stored. The limit of `p` does not matter. -/
structure Pattern.Matches (p : Pattern) (q : Quad) : Prop where
  graph : ∀ g, p.graph = some g → q.graph = g
  subject : ∀ u, p.subject = some u → q.subject = u
  predicate : ∀ i, p.predicate = some i → q.predicate = i
  object : ∀ o, p.object = some o → q.object = o.normal

theorem Pattern.covers_ofQuad {p : Pattern} {q : Quad} (hq : q.normal = q) :
    p.covers (.ofQuad q) = true ↔ p.Matches q := by
  have hnormal : q.object.normal = q.object := congrArg Quad.object hq
  have hobject : ∀ o, Row.objectColumns o = Row.objectColumns q.object ↔ q.object = o.normal := by
    intro o
    rw [Row.objectColumns_eq_iff, hnormal, eq_comm]
  simp only [covers, Bool.and_eq_true, Option.all_eq_true, decide_eq_true_eq]
  constructor
  · rintro ⟨⟨⟨hg, hu⟩, hi⟩, ho⟩
    exact ⟨fun g h => (hg g h).symm, fun u h => (hu u h).symm, fun i h => (hi i h).symm,
      fun o h => (hobject o).mp (ho o h)⟩
  · rintro ⟨hg, hu, hi, ho⟩
    exact ⟨⟨⟨fun g h => (hg g h).symm, fun u h => (hu u h).symm⟩, fun i h => (hi i h).symm⟩,
      fun o h => (hobject o).mpr (ho o h)⟩

def Term.text : Term → String
  | .iri i => i.text
  | .literal l => l.value

namespace Quad

/-- The four texts that answers are ordered by. -/
def texts (q : Quad) : List String :=
  [q.graph.text, q.subject.text, q.predicate.text, q.object.text]

/-- An IRI goes before a literal, and literals by their language and then by their
datatype. -/
def ties (q : Quad) : List String :=
  match q.object with
  | .iri _ => ["iri", "", ""]
  | .literal l => ["literal", l.language.getD "", (l.datatype.map Iri.text).getD ""]

/-- The order of answers: by the four texts, then by `came`, and then by what else
there is to the object. -/
def Precedes (came : Quad → Nat) (q q' : Quad) : Prop :=
  List.Lex Text.Before q.texts q'.texts ∨
    q.texts = q'.texts ∧
      (came q < came q' ∨ came q = came q' ∧ List.Lex Text.Before q.ties q'.ties)

end Quad

/-- When the quads came, where the order of the answers to `p` depends on it. -/
def Pattern.came (p : Pattern) (arrival : Row → Nat) (q : Quad) : Nat :=
  if p.byArrival then arrival (.ofQuad q) else 0

namespace Row

variable {q q' : Quad}

theorem texts_ofQuad (q : Quad) : (ofQuad q).texts = q.texts := by
  obtain ⟨u, p, o, g⟩ := q
  cases o <;> rfl

theorem ties_ofQuad (q : Quad) : (ofQuad q).ties = q.ties := by
  obtain ⟨u, p, o, g⟩ := q
  cases o <;> rfl

theorem ofQuad_lt_iff (hsame : q.texts = q'.texts) :
    ofQuad q < ofQuad q' ↔ List.Lex Text.Before q.ties q'.ties := by
  rw [lt_iff, texts_ofQuad, texts_ofQuad, ties_ofQuad, ties_ofQuad, hsame,
    or_iff_right (List.lex_irrefl Text.before_irrefl q'.texts), and_iff_right rfl]

theorem before_ofQuad {arrival : Row → Nat} :
    Before arrival (ofQuad q) (ofQuad q') ↔ q.Precedes (fun q => arrival (.ofQuad q)) q' := by
  rw [Before, Quad.Precedes, texts_ofQuad, texts_ofQuad]
  refine or_congr_right (and_congr_right fun hsame => ?_)
  rw [ofQuad_lt_iff hsame]

end Row

namespace Update

def inserted : Update → List Quad
  | .insert quads => quads
  | .delete _ => []
  | .dropGraph _ => []

def onQuads (S : Set Quad) : Update → Set Quad
  | .insert quads => S ∪ {q | ∃ q' ∈ quads, q = q'.normal}
  | .delete p => {q | q ∈ S ∧ ¬ p.Matches q}
  | .dropGraph g => {q | q ∈ S ∧ q.graph ≠ g}

end Update

/-- A batch of changes to a store, or a restriction on the batches after it. -/
inductive StoreStep where
  | batch (updates : List Update)
  | forbid (beginning : String)

/-- A set of quads, and the beginnings of the names of graphs that nothing can be
put into. -/
structure QuadSet where
  quads : Set Quad
  sealed : List String

namespace QuadSet

def empty : QuadSet := ⟨∅, []⟩

/-- No insertion of the batch is rejected. -/
def Accepts (S : QuadSet) (updates : List Update) : Prop :=
  ∀ u ∈ updates, ∀ q ∈ u.inserted, ∀ t ∈ S.sealed, ¬ t.toList <+: q.graph.text.toList

instance (S : QuadSet) (updates : List Update) : Decidable (S.Accepts updates) :=
  inferInstanceAs (Decidable (∀ u ∈ updates, ∀ q ∈ u.inserted, ∀ t ∈ S.sealed,
    ¬ t.toList <+: q.graph.text.toList))

/-- A batch makes its changes in their order, or none of them if an insertion is
rejected. -/
def act (S : QuadSet) : StoreStep → QuadSet
  | .batch updates =>
    if S.Accepts updates then { S with quads := updates.foldl Update.onQuads S.quads } else S
  | .forbid beginning => { S with sealed := beginning :: S.sealed }

def run (S : QuadSet) (steps : List StoreStep) : QuadSet := steps.foldl act S

end QuadSet

namespace Store

/-- A batch that fails leaves the store as it was. -/
def act (s : Store) : StoreStep → Store
  | .batch updates =>
    match s.apply updates with
    | .ok t => t
    | .error _ => s
  | .forbid beginning => s.sealAgainst beginning

def run (s : Store) (steps : List StoreStep) : Store := steps.foldl act s

/-- The rows are those that the quads of `S` are stored in. -/
structure Represents (s : Store) (S : QuadSet) : Prop where
  normal : ∀ q ∈ S.quads, q.normal = q
  rows : ∀ r, r ∈ s.rows ↔ ∃ q ∈ S.quads, r = .ofQuad q
  sealed : s.sealed = S.sealed

variable {s t : Store} {S : QuadSet}

theorem isSealed_eq_true {g : Iri} :
    s.isSealed g = true ↔ ∃ t ∈ s.sealed, t.toList <+: g.text.toList := by
  simp only [isSealed, List.any_eq_true, List.isPrefixOf_iff_prefix]

theorem insert_eq_error {quads : List Quad} :
    (∃ e, s.insert quads = .error e) ↔ ∃ q ∈ quads, s.isSealed q.graph = true := by
  induction quads generalizing s with
  | nil => simp [insert]
  | cons q quads ih =>
      have hsealed : ∀ g, (s.put (.ofQuad q)).isSealed g = s.isSealed g := fun _ => rfl
      rw [insert]
      by_cases h : s.isSealed q.graph = true
      · simp [h]
      · simp [h, ih, hsealed]

namespace Represents

theorem mem_ofQuad (h : s.Represents S) {q : Quad} (hq : q.normal = q) :
    .ofQuad q ∈ s.rows ↔ q ∈ S.quads := by
  rw [h.rows]
  constructor
  · rintro ⟨q', hq', heq⟩
    rw [Row.ofQuad_eq_iff, hq, h.normal q' hq'] at heq
    rwa [heq]
  · exact fun hmem => ⟨q, hmem, rfl⟩

theorem insert (h : s.Represents S) {quads : List Quad} (ht : s.insert quads = .ok t) :
    t.Represents { S with quads := Update.onQuads S.quads (.insert quads) } := by
  refine ⟨?_, fun r => ?_, (sealed_insert ht).trans h.sealed⟩
  · rintro q (hq | ⟨q', -, rfl⟩)
    · exact h.normal q hq
    · exact q'.normal_normal
  · rw [mem_rows_insert ht, h.rows]
    constructor
    · rintro (⟨q, hq, rfl⟩ | ⟨q, hq, rfl⟩)
      · exact ⟨q, .inl hq, rfl⟩
      · exact ⟨q.normal, .inr ⟨q, hq, rfl⟩, (Row.ofQuad_normal q).symm⟩
    · rintro ⟨q, hq | ⟨q', hq', rfl⟩, rfl⟩
      · exact .inl ⟨q, hq, rfl⟩
      · exact .inr ⟨q', hq', Row.ofQuad_normal q'⟩

theorem filter (h : s.Represents S) {keep : Row → Bool} {Keep : Quad → Prop}
    (hkeep : ∀ q, q.normal = q → (keep (.ofQuad q) = true ↔ Keep q)) :
    Represents { s with rows := s.rows.filter keep }
      { S with quads := {q | q ∈ S.quads ∧ Keep q} } := by
  refine ⟨fun q hq => h.normal q hq.1, fun r => ?_, h.sealed⟩
  simp only [Ascending.mem_filter, h.rows]
  constructor
  · rintro ⟨⟨q, hq, rfl⟩, hr⟩
    exact ⟨q, ⟨hq, (hkeep q (h.normal q hq)).mp hr⟩, rfl⟩
  · rintro ⟨q, ⟨hq, hr⟩, rfl⟩
    exact ⟨⟨q, hq, rfl⟩, (hkeep q (h.normal q hq)).mpr hr⟩

theorem delete (h : s.Represents S) (p : Pattern) :
    (s.delete p).Represents { S with quads := Update.onQuads S.quads (.delete p) } := by
  refine h.filter fun q hq => ?_
  rw [Bool.not_eq_true', ← Bool.not_eq_true, Pattern.covers_ofQuad hq]

theorem dropGraph (h : s.Represents S) (g : Iri) :
    (s.dropGraph g).Represents { S with quads := Update.onQuads S.quads (.dropGraph g) } :=
  h.filter fun _ _ => decide_eq_true_iff

theorem update (h : s.Represents S) {u : Update} (ht : s.update u = .ok t) :
    t.Represents { S with quads := Update.onQuads S.quads u } := by
  cases u with
  | insert quads => exact h.insert ht
  | delete p =>
      cases ht
      exact h.delete p
  | dropGraph g =>
      cases ht
      exact h.dropGraph g

theorem update_eq_error (h : s.Represents S) {u : Update} :
    (∃ e, s.update u = .error e) ↔ ¬ S.Accepts [u] := by
  simp only [QuadSet.Accepts, List.mem_singleton, forall_eq]
  cases u with
  | insert quads =>
      rw [Store.update, insert_eq_error]
      simp [isSealed_eq_true, h.sealed, Update.inserted]
  | delete p => simp [Store.update, Update.inserted]
  | dropGraph g => simp [Store.update, Update.inserted]

theorem apply (h : s.Represents S) (updates : List Update) :
    (S.Accepts updates ∧ ∃ t, s.apply updates = .ok t ∧
      t.Represents { S with quads := updates.foldl Update.onQuads S.quads }) ∨
      ¬ S.Accepts updates ∧ ∃ e, s.apply updates = .error e := by
  -- what is accepted depends on the sealed names only, which no update changes
  induction updates generalizing s S with
  | nil => exact .inl ⟨by simp [QuadSet.Accepts], s, rfl, h⟩
  | cons u updates ih =>
      have haccepts : S.Accepts (u :: updates) ↔ S.Accepts [u] ∧ S.Accepts updates := by
        simp only [QuadSet.Accepts, List.forall_mem_cons, List.mem_singleton, forall_eq]
      cases hu : s.update u with
      | error e =>
          have hreject := h.update_eq_error.mp ⟨e, hu⟩
          refine .inr ⟨fun hall => hreject (haccepts.mp hall).1, e, ?_⟩
          rw [Store.apply, List.foldlM_cons, hu]
          rfl
      | ok s' =>
          have haccept : S.Accepts [u] := by
            by_contra hreject
            obtain ⟨e, he⟩ := h.update_eq_error.mpr hreject
            rw [hu] at he
            cases he
          have hstep : s.apply (u :: updates) = s'.apply updates := by
            rw [Store.apply, List.foldlM_cons, hu]
            rfl
          rw [haccepts, hstep, List.foldl_cons]
          rcases ih (h.update hu) with ⟨hall, ht⟩ | ⟨hall, he⟩
          · exact .inl ⟨⟨haccept, hall⟩, ht⟩
          · exact .inr ⟨fun hboth => hall hboth.2, he⟩

theorem act (h : s.Represents S) (step : StoreStep) : (s.act step).Represents (S.act step) := by
  cases step with
  | forbid beginning =>
      exact ⟨h.normal, h.rows, congrArg (beginning :: ·) h.sealed⟩
  | batch updates =>
      rcases h.apply updates with ⟨haccepts, t, ht, hset⟩ | ⟨haccepts, e, he⟩
      · rw [Store.act, ht, QuadSet.act, if_pos haccepts]
        exact hset
      · rw [Store.act, he, QuadSet.act, if_neg haccepts]
        exact h

theorem run (h : s.Represents S) (steps : List StoreStep) :
    (s.run steps).Represents (S.run steps) := by
  induction steps generalizing s S with
  | nil => exact h
  | cons step steps ih => exact ih (h.act step)

end Represents

theorem represents_empty : Store.empty.Represents .empty :=
  ⟨fun _ hq => hq.elim, fun _ => ⟨fun hr => (List.not_mem_nil hr).elim, fun ⟨_, hq, _⟩ => hq.elim⟩,
    rfl⟩

/-- What can be asked of the store is answered as by the set, whenever the rows
came. -/
structure ActsAs (s : Store) (S : QuadSet) : Prop where
  find : ∀ (arrival : Row → Nat) (p : Pattern),
    ∃ l, s.find arrival { p with limit := none } = .ok l ∧ l.Nodup ∧
      (∀ q, q ∈ l ↔ q ∈ S.quads ∧ p.Matches q) ∧ l.Pairwise (Quad.Precedes (p.came arrival)) ∧
      (∀ n ≤ maxLimit, s.find arrival { p with limit := some n } = .ok (l.take n)) ∧
      (s.ask p = true ↔ l ≠ [])
  graphs : s.graphs.toList.Pairwise (· < ·) ∧
    ∀ g, g ∈ s.graphs.toList ↔ ∃ q ∈ S.quads, q.graph = g
  containsGraph : ∀ g, (Connection.reliable s).containsGraph g = .ok (decide (g ∈ s.graphs))
  accepts : ∀ updates, (∃ t, s.apply updates = .ok t) ↔ S.Accepts updates

theorem mapM_ofQuad (l : List Quad) :
    (l.map Row.ofQuad).mapM Row.toQuad = .ok (l.map Quad.normal) := by
  induction l with
  | nil => rfl
  | cons q l ih =>
      rw [List.map_cons, List.mapM_cons, Row.toQuad_ofQuad, ok_bind, ih]
      rfl

theorem containsGraph_reliable (s : Store) (g : Iri) :
    (Connection.reliable s).containsGraph g = .ok (decide (g ∈ s.graphs)) := by
  change Except.ok (s.ask { graph := some g }) = _
  rw [Except.ok.injEq, Bool.eq_iff_iff, ask_graph, decide_eq_true_iff]

namespace Represents

theorem readable (h : s.Represents S) : s.Readable := by
  intro r hr
  obtain ⟨q, -, rfl⟩ := (h.rows r).mp hr
  exact ⟨_, Row.toQuad_ofQuad q⟩

theorem answer_eq (h : s.Represents S) (arrival : Row → Nat) (p : Pattern) :
    s.answer arrival p = (s.answered arrival p).map .ofQuad := by
  have hrows : ∀ r ∈ s.answer arrival p, ∃ q, r = .ofQuad q := by
    intro r hr
    obtain ⟨q, -, hq⟩ := (h.rows r).mp (mem_answer.mp hr).1
    exact ⟨q, hq⟩
  rw [answered]
  generalize s.answer arrival p = rows at hrows
  induction rows with
  | nil => rfl
  | cons r rows ih =>
      obtain ⟨⟨q, rfl⟩, hrest⟩ := List.forall_mem_cons.mp hrows
      have hread : (Row.ofQuad q).toQuad.toOption = some q.normal :=
        toOption_eq_some.mpr (Row.toQuad_ofQuad q)
      simp only [List.filterMap_cons, hread, List.map_cons, Row.ofQuad_normal, ← ih hrest]

theorem mem_answered (h : s.Represents S) {arrival : Row → Nat} {p : Pattern} {q : Quad} :
    q ∈ s.answered arrival p ↔ q ∈ S.quads ∧ p.Matches q := by
  rw [Store.mem_answered, Store.mem_quads]
  constructor
  · rintro ⟨r, hr, hcovers, hq⟩
    obtain ⟨q', hq', rfl⟩ := (h.rows r).mp hr
    rw [Row.toQuad_ofQuad, h.normal q' hq'] at hq
    cases hq
    exact ⟨hq', (Pattern.covers_ofQuad (h.normal q hq')).mp hcovers⟩
  · rintro ⟨hq, hmatches⟩
    have hnormal := h.normal q hq
    refine ⟨_, (h.mem_ofQuad hnormal).mpr hq, (Pattern.covers_ofQuad hnormal).mpr hmatches, ?_⟩
    rw [Row.toQuad_ofQuad, hnormal]

theorem pairwise_answered (h : s.Represents S) (arrival : Row → Nat) (p : Pattern) :
    (s.answered arrival p).Pairwise (Quad.Precedes (p.came arrival)) := by
  have hordered : (s.answer arrival p).Pairwise
      (Row.Before fun r => if p.byArrival then arrival r else 0) := by
    have hselect : (s.select p).Pairwise (· < ·) := s.rows.ascending.sublist List.filter_sublist
    rw [answer]
    split
    · exact Row.pairwise_arrange hselect
    · exact hselect.imp Row.before_of_lt_together
  rw [h.answer_eq, List.pairwise_map] at hordered
  exact hordered.imp Row.before_ofQuad.mp

theorem nodup_answered (h : s.Represents S) (arrival : Row → Nat) (p : Pattern) :
    (s.answered arrival p).Nodup := by
  refine (h.pairwise_answered arrival p).imp ?_
  rintro q _ hprecedes rfl
  exact Row.before_irrefl (fun r => if p.byArrival then arrival r else 0) _
    (Row.before_ofQuad.mpr hprecedes)

theorem find_take (h : s.Represents S) (arrival : Row → Nat) (p : Pattern) {n : Nat}
    (hn : n ≤ maxLimit) :
    s.find arrival { p with limit := some n } = .ok ((s.answered arrival p).take n) := by
  have hnormal : ∀ q ∈ (s.answered arrival p).take n, q.normal = q := fun q hq =>
    h.normal q (h.mem_answered.mp (List.mem_of_mem_take hq)).1
  have hanswer : s.answer arrival { p with limit := some n } = s.answer arrival p := rfl
  simp only [Store.find, hn, if_true, hanswer, h.answer_eq, ← List.map_take, mapM_ofQuad]
  rw [List.map_congr_left hnormal, List.map_id']

theorem ask (h : s.Represents S) (arrival : Row → Nat) (p : Pattern) :
    s.ask p = true ↔ s.answered arrival p ≠ [] := by
  have hanswer : s.ask p = true ↔ s.answer arrival p ≠ [] := by
    rw [ask_eq_true]
    constructor
    · rintro ⟨r, hr, hcovers⟩
      exact List.ne_nil_of_mem (mem_answer.mpr ⟨hr, hcovers⟩)
    · intro hne
      obtain ⟨r, hr⟩ := List.exists_mem_of_ne_nil _ hne
      exact ⟨r, mem_answer.mp hr⟩
  rw [hanswer, h.answer_eq, ne_eq, List.map_eq_nil_iff]

theorem mem_graphs (h : s.Represents S) {g : Iri} :
    g ∈ s.graphs ↔ ∃ q ∈ S.quads, q.graph = g := by
  rw [Store.mem_graphs]
  constructor
  · rintro ⟨r, hr, rfl⟩
    obtain ⟨q, hq, rfl⟩ := (h.rows r).mp hr
    exact ⟨q, hq, rfl⟩
  · rintro ⟨q, hq, rfl⟩
    exact ⟨_, (h.mem_ofQuad (h.normal q hq)).mpr hq, rfl⟩

theorem accepts (h : s.Represents S) (updates : List Update) :
    (∃ t, s.apply updates = .ok t) ↔ S.Accepts updates := by
  rcases h.apply updates with ⟨haccepts, t, ht, -⟩ | ⟨hrejects, e, he⟩
  · exact iff_of_true ⟨t, ht⟩ haccepts
  · rw [he]
    exact iff_of_false (fun ⟨_, ht⟩ => nomatch ht) hrejects

theorem actsAs (h : s.Represents S) : s.ActsAs S where
  find arrival p := by
    have hread : s.find arrival { p with limit := none } = .ok (s.answered arrival p) :=
      find_eq_answered rfl fun r hr _ => h.readable r hr
    exact ⟨s.answered arrival p, hread, h.nodup_answered arrival p, fun q => h.mem_answered,
      h.pairwise_answered arrival p, fun n hn => h.find_take arrival p hn, h.ask arrival p⟩
  graphs := ⟨s.graphs.ascending, fun g => h.mem_graphs⟩
  containsGraph := s.containsGraph_reliable
  accepts := h.accepts

end Represents

/-- A store behaves as a set of quads. After any run from the empty store it
answers as the set that the same changes make of the empty set, one batch after
the other, where a batch of which an insertion is rejected changes nothing. What a
query finds is every matching quad of the set once, ordered by graph, subject,
predicate and object text, or the first of these if it is limited; among quads of
the same texts the order is fixed by when they came or by the rest of the object,
as the pattern has it. Dropping a graph tells whether the graph was there and takes
its quads out, and a deletion takes out what its pattern matches, whatever its
limit. -/
theorem acts_as_set (steps : List StoreStep) :
    let s := Store.empty.run steps
    let S := QuadSet.empty.run steps
    s.ActsAs S ∧
      (∀ g, ∃ t, (Connection.reliable s).dropGraph g = .ok (decide (g ∈ s.graphs), t) ∧
        t.ActsAs { S with quads := {q | q ∈ S.quads ∧ q.graph ≠ g} }) ∧
      ∀ p, ∃ t, (Connection.reliable s).delete p = .ok t ∧
        t.ActsAs { S with quads := {q | q ∈ S.quads ∧ ¬ p.Matches q} } := by
  intro s S
  have h : s.Represents S := represents_empty.run steps
  refine ⟨h.actsAs, fun g => ⟨s.dropGraph g, ?_, (h.dropGraph g).actsAs⟩,
    fun p => ⟨s.delete p, rfl, (h.delete p).actsAs⟩⟩
  rw [Connection.dropGraph, containsGraph_reliable]
  rfl

/-- A rejected insertion undoes the drop before it. -/
example :
    let old : Quad := ⟨⟨"v"⟩, Names.type, .iri Names.vocabulary, ⟨"g"⟩⟩
    let steps : List StoreStep := [.batch [.insert [old]], .forbid "h",
      .batch [.dropGraph ⟨"g"⟩, .insert [{ old with graph := ⟨"h/1"⟩ }]]]
    (Store.empty.run steps).find (fun _ => 0) {} = .ok [old] := by
  decide +kernel

/-- A literal that came before the IRI of the same text. -/
example :
    let name : Quad := ⟨⟨"s"⟩, Names.versionOf, .iri ⟨"v"⟩, ⟨"g"⟩⟩
    let text : Quad := { name with object := .literal ⟨"v", none, none⟩ }
    let s := Store.empty.run [.batch [.insert [text, name]]]
    let arrival (r : Row) := if r.kind = "literal" then 1 else 2
    s.find arrival { subject := some ⟨"s"⟩ } = .ok [text, name] ∧
      s.find arrival { graph := some ⟨"g"⟩, subject := some ⟨"s"⟩ } = .ok [name, text] := by
  decide +kernel

end Store

end SkosArchive
