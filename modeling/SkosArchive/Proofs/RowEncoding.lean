import SkosArchive.Proofs.QuadSets

namespace SkosArchive

namespace Row

/-- The part of a row that is read: an IRI has no language and no datatype, whatever
stands in these columns. -/
def asRead (r : Row) : Row :=
  if r.kind = "iri" then { r with language := "", datatype := "" } else r

theorem asRead_of_iri {r : Row} (h : r.kind = "iri") :
    r.asRead = { r with language := "", datatype := "" } := if_pos h

theorem asRead_of_not_iri {r : Row} (h : r.kind ≠ "iri") : r.asRead = r := if_neg h

theorem toQuad_of_iri {r : Row} (h : r.kind = "iri") :
    r.toQuad = .ok ⟨r.subject, r.predicate, .iri ⟨r.object⟩, r.graph⟩ := if_pos h

theorem toQuad_asRead (r : Row) : r.asRead.toQuad = r.toQuad := by
  by_cases h : r.kind = "iri"
  · rw [asRead_of_iri h, toQuad_of_iri h]
    exact toQuad_of_iri h
  · rw [asRead_of_not_iri h]

theorem toQuad_eq_error_iff {r : Row} {e : StorageError} :
    r.toQuad = .error e ↔
      (r.kind ≠ "iri" ∧ r.kind ≠ "literal") ∧ e = .unknownKind r.kind r.subject := by
  by_cases hiri : r.kind = "iri"
  · simp [toQuad_of_iri hiri, hiri]
  · by_cases hliteral : r.kind = "literal"
    · simp [toQuad, hliteral]
    · simp [toQuad, hiri, hliteral, eq_comm]

/-- What is read from a row of a literal is written as that row. -/
theorem ofQuad_of_toQuad_literal {r : Row} {q : Quad} (hkind : r.kind = "literal")
    (h : r.toQuad = .ok q) : ofQuad q = r := by
  have hempty : ∀ s, (absentIfEmpty s).getD "" = s := by
    intro s
    by_cases hs : s = "" <;> simp [absentIfEmpty, hs]
  have hdatatype : (((absentIfEmpty r.datatype).map Iri.mk).map Iri.text).getD "" = r.datatype := by
    rw [Option.map_map]
    change ((absentIfEmpty r.datatype).map id).getD "" = r.datatype
    rw [Option.map_id_apply, hempty]
  obtain ⟨g, u, p, object, kind, language, datatype⟩ := r
  subst hkind
  cases h
  simp only [ofQuad, objectColumns, hempty, hdatatype]

theorem ofQuad_of_toQuad {r : Row} {q : Quad} (h : r.toQuad = .ok q) : ofQuad q = r.asRead := by
  obtain ⟨o, -, ⟨hkind, -⟩ | ⟨hkind, -⟩⟩ := toQuad_eq_ok h
  · rw [toQuad_of_iri hkind] at h
    cases h
    simp only [asRead_of_iri hkind, ofQuad, objectColumns, hkind]
  · rw [asRead_of_not_iri (hkind ▸ by decide)]
    exact ofQuad_of_toQuad_literal hkind h

theorem toQuad_eq_ok_iff {r : Row} {q : Quad} :
    r.toQuad = .ok q ↔ q.normal = q ∧ ofQuad q = r.asRead := by
  constructor
  · intro h
    exact ⟨normal_of_toQuad h, ofQuad_of_toQuad h⟩
  · rintro ⟨hnormal, hrow⟩
    rw [← toQuad_asRead, ← hrow, toQuad_ofQuad, hnormal]

end Row

namespace Pattern

variable {p : Pattern} {q : Quad}

theorem covers_ofQuad_iff : p.covers (.ofQuad q) = true ↔ p.Matches q.normal := by
  rw [← Row.ofQuad_normal]
  exact covers_ofQuad q.normal_normal

theorem object_of_covers_ofQuad {o : Term} (ho : p.object = some o)
    (h : p.covers (.ofQuad q) = true) : q.object.normal = o.normal :=
  (covers_ofQuad_iff.mp h).object o ho

end Pattern

/-- A literal without language and datatype; an empty one counts as none. -/
def Literal.IsPlain (l : Literal) : Prop := l.normal.language = none ∧ l.normal.datatype = none

instance (l : Literal) : Decidable l.IsPlain :=
  inferInstanceAs (Decidable (l.normal.language = none ∧ l.normal.datatype = none))

/-- A quad is read back from its row up to empty languages and datatypes, and only
quads that differ in no more have the same row. A row is read if its kind is known,
and what is read is written as the row itself, but for the language and the datatype
of an IRI. A pattern covers the row of a quad if it agrees with the quad, up to
empty languages and datatypes, wherever it binds something, so it confuses neither an
IRI with a literal nor a plain literal with one that has a language or a datatype. -/
theorem Row.encodes_quads :
    (∀ q : Quad, (ofQuad q).toQuad = .ok q.normal) ∧
    (∀ q q' : Quad, ofQuad q = ofQuad q' ↔ q.normal = q'.normal) ∧
    (∀ (r : Row) (e : StorageError), r.toQuad = .error e ↔
      (r.kind ≠ "iri" ∧ r.kind ≠ "literal") ∧ e = .unknownKind r.kind r.subject) ∧
    (∀ (r : Row) (q : Quad), r.toQuad = .ok q ↔ q.normal = q ∧ ofQuad q = r.asRead) ∧
    (∀ (p : Pattern) (q : Quad), p.covers (ofQuad q) = true ↔
      (∀ g, p.graph = some g → q.graph = g) ∧ (∀ u, p.subject = some u → q.subject = u) ∧
        (∀ i, p.predicate = some i → q.predicate = i) ∧
          ∀ o, p.object = some o → q.object.normal = o.normal) ∧
    (∀ (p : Pattern) (q : Quad), p.covers (ofQuad q) = true →
      (∀ i, p.object = some (.iri i) → ∀ l, q.object ≠ .literal l) ∧
        ∀ l, p.object = some (.literal l) → ∃ l', q.object = .literal l' ∧
          l'.value = l.value ∧ (l'.IsPlain ↔ l.IsPlain)) := by
  refine ⟨toQuad_ofQuad, fun q q' => ofQuad_eq_iff, fun r e => toQuad_eq_error_iff,
    fun r q => toQuad_eq_ok_iff, ?_, ?_⟩
  · intro p q
    rw [Pattern.covers_ofQuad_iff]
    constructor
    · rintro ⟨hg, hu, hi, ho⟩
      exact ⟨hg, hu, hi, ho⟩
    · rintro ⟨hg, hu, hi, ho⟩
      exact ⟨hg, hu, hi, ho⟩
  · intro p q h
    constructor
    · intro i hi l hl
      have hobject := Pattern.object_of_covers_ofQuad hi h
      rw [hl] at hobject
      cases hobject
    · intro l hl
      have hobject := Pattern.object_of_covers_ofQuad hl h
      cases hq : q.object with
      | iri i =>
          rw [hq] at hobject
          cases hobject
      | literal l' =>
          rw [hq] at hobject
          have hnormal : l'.normal = l.normal := Term.literal.inj hobject
          have hvalue : l'.normal.value = l.normal.value := congrArg Literal.value hnormal
          refine ⟨l', rfl, hvalue, ?_⟩
          rw [Literal.IsPlain, Literal.IsPlain, hnormal]

/-- A row of an IRI in which a language stands, and a pattern with an empty language
for a literal with an empty datatype. -/
theorem Row.encodes_quads_strayLanguage :
    let r : Row := ⟨⟨"g"⟩, ⟨"u"⟩, ⟨"p"⟩, "text", "iri", "en", ""⟩
    let p : Pattern := { object := some (.literal ⟨"text", some "", none⟩) }
    let q : Quad := ⟨⟨"u"⟩, ⟨"p"⟩, .literal ⟨"text", none, some ⟨""⟩⟩, ⟨"g"⟩⟩
    r.toQuad = .ok ⟨⟨"u"⟩, ⟨"p"⟩, .iri ⟨"text"⟩, ⟨"g"⟩⟩ ∧ p.covers (ofQuad q) = true ∧
      ∃ l, q.object = .literal l ∧ l.value = "text" ∧ l.IsPlain := by
  intro r p q
  obtain ⟨-, -, -, hread, hcovers, hobject⟩ := encodes_quads
  have hpq : p.covers (ofQuad q) = true :=
    (hcovers p q).mpr ⟨by decide, by decide, by decide, by rintro o ⟨⟩; decide⟩
  obtain ⟨l, hl, hvalue, hplain⟩ := (hobject p q hpq).2 ⟨"text", some "", none⟩ rfl
  exact ⟨(hread r _).mpr ⟨by decide, by decide⟩, hpq, l, hl, hvalue, hplain.mpr (by decide)⟩

end SkosArchive
