import SkosArchive.Proofs.Removal

namespace SkosArchive

theorem exists_getLast?_filterMap {α β : Type} {f : α → Option β} {l : List α}
    (h : ∃ a ∈ l, ∃ b, f a = some b) :
    ∃ before a after b, l = before ++ a :: after ∧ f a = some b ∧ (∀ x ∈ after, f x = none) ∧
      (l.filterMap f).getLast? = some b := by
  induction l with
  | nil =>
      obtain ⟨a, ha, -⟩ := h
      exact absurd ha List.not_mem_nil
  | cons x l ih =>
      by_cases hrest : ∃ a ∈ l, ∃ b, f a = some b
      · obtain ⟨before, a, after, b, rfl, ha, hafter, hlast⟩ := ih hrest
        refine ⟨x :: before, a, after, b, rfl, ha, hafter, ?_⟩
        rw [List.filterMap_cons]
        cases f x with
        | none => exact hlast
        | some y => rw [List.getLast?_cons, hlast, Option.getD_some]
      · have hnone : ∀ a ∈ l, f a = none := fun a ha =>
          Option.eq_none_iff_forall_ne_some.mpr fun b hb => hrest ⟨a, ha, b, hb⟩
        obtain ⟨a, ha, b, hb⟩ := h
        rcases List.mem_cons.mp ha with rfl | ha
        · refine ⟨[], a, l, b, rfl, hb, hnone, ?_⟩
          rw [List.filterMap_cons_some hb, List.filterMap_eq_nil_iff.mpr hnone]
          rfl
        · exact absurd ⟨a, ha, b, hb⟩ hrest

namespace Row

def Says (r : Row) (P : Term → Prop) : Prop := ∃ q, r.toQuad = .ok q ∧ P q.object

variable {r : Row} {o : Term}

theorem says_cases (h : r.Says (· = o)) :
    r.kind = "iri" ∧ o = .iri ⟨r.object⟩ ∨
      r.kind = "literal" ∧ ∃ l, o = .literal l ∧ l.value = r.object := by
  obtain ⟨q, hq, rfl⟩ := h
  obtain ⟨o, rfl, hiri | ⟨hkind, l, rfl⟩⟩ := toQuad_eq_ok hq
  · exact .inl hiri
  · exact .inr ⟨hkind, l, rfl, value_of_toQuad hq rfl⟩

theorem says_iri {i : Iri} (h : r.Says (· = .iri i)) : r.kind = "iri" ∧ r.object = i.text := by
  rcases says_cases h with ⟨hkind, h⟩ | ⟨-, l, h, -⟩
  · cases h
    exact ⟨hkind, rfl⟩
  · cases h

theorem says_literal {l : Literal} (h : r.Says (· = .literal l)) :
    r.kind = "literal" ∧ r.object = l.value := by
  rcases says_cases h with ⟨-, h⟩ | ⟨hkind, l, h, hvalue⟩
  · cases h
  · cases h
    exact ⟨hkind, hvalue.symm⟩

end Row

namespace Store

/-- The rows about `i` under `predicate`, in the order in which they are found. -/
def statements (s : Store) (arrival : Row → Nat) (i predicate : Iri) : List Row :=
  (s.answer arrival { subject := some i }).filter fun r => r.predicate = predicate

variable {s : Store} {arrival arrival' : Row → Nat} {i predicate : Iri}

theorem mem_statements {r : Row} :
    r ∈ s.statements arrival i predicate ↔
      r ∈ s.rows ∧ r.subject = i ∧ r.predicate = predicate := by
  simp only [statements, List.mem_filter, mem_answer, Pattern.covers_subject, decide_eq_true_eq,
    and_assoc]

theorem pairwise_statements (s : Store) (arrival : Row → Nat) (i predicate : Iri) :
    (s.statements arrival i predicate).Pairwise (Row.Before arrival) := by
  refine List.Pairwise.sublist List.filter_sublist ?_
  exact Row.pairwise_arrange (s.rows.ascending.sublist List.filter_sublist)

theorem objectsOf_answered (s : Store) (arrival : Row → Nat) (i predicate : Iri) :
    Vocabulary.objectsOf (s.answered arrival { subject := some i }) predicate =
      (s.statements arrival i predicate).filterMap fun r => r.toQuad.toOption.map Quad.object := by
  rw [Vocabulary.objectsOf, answered, statements, List.filter_filterMap, List.map_filterMap,
    List.filterMap_filter]
  refine congrArg (fun f => List.filterMap f _) (funext fun r => ?_)
  cases hq : r.toQuad with
  | error e => simp [Except.toOption]
  | ok q =>
      have hp : q.predicate = r.predicate := Row.predicate_of_toQuad hq
      by_cases hr : r.predicate = predicate <;> simp [Except.toOption, Option.filter, hp, hr]

theorem exists_last_statement
    (hread : ∃ r ∈ s.statements arrival i predicate, ∃ q, r.toQuad = .ok q) :
    ∃ r ∈ s.statements arrival i predicate, ∃ q, r.toQuad = .ok q ∧
      (Vocabulary.objectsOf (s.answered arrival { subject := some i }) predicate).getLast? =
        some q.object ∧
      ∀ r' ∈ s.statements arrival i predicate, ∀ q', r'.toQuad = .ok q' →
        r' = r ∨ Row.Before arrival r' r := by
  have hordered := s.pairwise_statements arrival i predicate
  have hvalue : ∃ r ∈ s.statements arrival i predicate, ∃ o,
      r.toQuad.toOption.map Quad.object = some o := by
    obtain ⟨r, hr, q, hq⟩ := hread
    exact ⟨r, hr, q.object, by rw [hq]; rfl⟩
  rw [objectsOf_answered]
  obtain ⟨before, last, after, o, hrows, ho, hafter, hlast⟩ := exists_getLast?_filterMap hvalue
  obtain ⟨q, hq, rfl⟩ := Option.map_eq_some_iff.mp ho
  rw [hrows] at hordered
  obtain ⟨-, -, hbefore⟩ := List.pairwise_append.mp hordered
  refine ⟨last, ?_, q, toOption_eq_some.mp hq, hlast, fun r' hr' q' hq' => ?_⟩
  · rw [hrows]
    exact List.mem_append_right _ List.mem_cons_self
  · rw [hrows] at hr'
    rcases List.mem_append.mp hr' with hr' | hr'
    · exact .inr (hbefore r' hr' last List.mem_cons_self)
    · rcases List.mem_cons.mp hr' with rfl | hr'
      · exact .inl rfl
      · have hnone := hafter r' hr'
        rw [hq'] at hnone
        cases hnone

theorem getLast?_objectsOf_iff {P : Term → Prop}
    (hread : ∃ r ∈ s.statements arrival i predicate, ∃ q, r.toQuad = .ok q) :
    (∃ o, (Vocabulary.objectsOf (s.answered arrival { subject := some i })
        predicate).getLast? = some o ∧ P o) ↔
      ∀ r ∈ s.statements arrival i predicate, r.Says (fun o => ¬ P o) →
        ∃ r' ∈ s.statements arrival i predicate, Row.Before arrival r r' ∧ r'.Says P := by
  obtain ⟨last, hmem, q, hq, hlast, hbefore⟩ := exists_last_statement hread
  simp only [hlast, Option.some.injEq, exists_eq_left']
  constructor
  · rintro hP r hr ⟨q', hq', hnot⟩
    rcases hbefore r hr q' hq' with rfl | hearlier
    · rw [hq] at hq'
      cases hq'
      exact absurd hP hnot
    · exact ⟨last, hmem, hearlier, q, hq, hP⟩
  · refine fun h => Classical.byContradiction fun hnot => ?_
    obtain ⟨r', hr', hlater, q', hq', -⟩ := h last hmem ⟨q, hq, hnot⟩
    rcases hbefore r' hr' q' hq' with rfl | hearlier
    · exact Row.before_irrefl _ _ hlater
    · exact hlater.asymm hearlier

/-- Whenever the rows came, the last statements have the same texts. -/
theorem exists_last_of_last {o : Term}
    (h : (Vocabulary.objectsOf (s.answered arrival { subject := some i })
      predicate).getLast? = some o) :
    ∃ o', (Vocabulary.objectsOf (s.answered arrival' { subject := some i })
        predicate).getLast? = some o' ∧
      ∃ r ∈ s.rows, ∃ r' ∈ s.rows, (r.subject = i ∧ r.predicate = predicate) ∧
        r.texts = r'.texts ∧ r.Says (· = o) ∧ r'.Says (· = o') := by
  have hread : ∀ arrival, ∃ r ∈ s.statements arrival i predicate, ∃ q, r.toQuad = .ok q := by
    have hmem := List.mem_of_getLast? h
    rw [objectsOf_answered, List.mem_filterMap] at hmem
    obtain ⟨r, hr, ho⟩ := hmem
    obtain ⟨q, hq, -⟩ := Option.map_eq_some_iff.mp ho
    exact fun arrival => ⟨r, mem_statements.mpr (mem_statements.mp hr), q, toOption_eq_some.mp hq⟩
  obtain ⟨r, hr, q, hq, hlast, hbefore⟩ := exists_last_statement (hread arrival)
  obtain ⟨r', hr', q', hq', hlast', hbefore'⟩ := exists_last_statement (hread arrival')
  obtain rfl : q.object = o := Option.some.inj (hlast.symm.trans h)
  rw [mem_statements] at hr hr'
  refine ⟨q'.object, hlast', r, hr.1, r', hr'.1, hr.2, ?_, ⟨q, hq, rfl⟩, q', hq', rfl⟩
  rcases hbefore r' (mem_statements.mpr hr') q' hq' with rfl | hearlier | ⟨hsame, -⟩
  · rfl
  · rcases hbefore' r (mem_statements.mpr hr) q hq with rfl | hlater | ⟨hsame, -⟩
    · rfl
    · have hboth : Row.Before arrival r' r' := Row.Before.trans (.inl hearlier) (.inl hlater)
      exact absurd hboth (Row.before_irrefl arrival r')
    · exact hsame
  · exact hsame.symm

/-- No text is stated both as a name and as a literal for what `i` is a version of,
or for when it was made. -/
def Unmixed (s : Store) (i : Iri) : Prop :=
  ∀ r ∈ s.rows, ∀ r' ∈ s.rows, r.subject = i →
    (r.predicate = Names.versionOf ∨ r.predicate = Names.created) →
      r.texts = r'.texts → r.kind = r'.kind

end Store

namespace Snapshot

def Dates (t : Instant) (o : Term) : Prop := ∃ l, o = .literal l ∧ l.instant? = some t

theorem describe?_iff_of_type {iri : Iri} {quads : List Quad} {snapshot : Snapshot}
    (htype : ∃ q ∈ quads, q.predicate = Names.type ∧ q.object = .iri Names.vocabularySnapshot) :
    describe? iri quads = some snapshot ↔ snapshot.iri = iri ∧ snapshot.kind = .vocabulary ∧
      (∃ o, (Vocabulary.objectsOf quads Names.versionOf).getLast? = some o ∧
        o = .iri snapshot.versionOf) ∧
      ∃ o, (Vocabulary.objectsOf quads Names.created).getLast? = some o ∧
        Dates snapshot.created o := by
  have hkind : OfKind quads snapshot.kind ↔ snapshot.kind = .vocabulary := by
    cases snapshot.kind with
    | vocabulary => exact iff_of_true htype rfl
    | term => exact iff_of_false (fun h => h.2 htype) fun h => nomatch h
  rw [describe?_eq_some_iff, hkind]
  simp only [Dates, exists_eq_right]
  refine and_congr_right fun _ => and_congr_right fun _ => and_congr_right fun _ => ?_
  constructor
  · rintro ⟨l, hcreated, hl⟩
    exact ⟨_, hcreated, l, rfl, hl⟩
  · rintro ⟨_, hcreated, l, rfl, hl⟩
    exact ⟨l, hcreated, hl⟩

section Arrivals

variable {s : Store} {arrival arrival' : Row → Nat} {i : Iri} {a b : Snapshot}

/-- When the rows came does not matter to what is described, but to whether
anything is. -/
theorem describe?_unique
    (ha : describe? i (s.answered arrival { subject := some i }) = some a)
    (hb : describe? i (s.answered arrival' { subject := some i }) = some b) : a = b := by
  obtain ⟨hiri, hkind, horigin, l, hcreated, hl⟩ := describe?_eq_some_iff.mp ha
  obtain ⟨hiri', hkind', horigin', l', hcreated', hl'⟩ := describe?_eq_some_iff.mp hb
  have hsame : a.kind = b.kind := ofKind_unique hkind
    ((ofKind_congr fun q => Store.mem_answered.trans Store.mem_answered.symm).mp hkind')
  have hversion : a.versionOf = b.versionOf := by
    obtain ⟨o, ho, r, -, r', -, -, htexts, hsays, hsays'⟩ := Store.exists_last_of_last horigin
    rw [horigin'] at ho
    cases ho
    have htext := (Row.texts_eq_iff.mp htexts).2.2.2
    rw [(Row.says_iri hsays).2, (Row.says_iri hsays').2] at htext
    exact congrArg Iri.mk htext
  have htime : a.created = b.created := by
    obtain ⟨o, ho, r, -, r', -, -, htexts, hsays, hsays'⟩ := Store.exists_last_of_last hcreated
    rw [hcreated'] at ho
    cases ho
    have htext := (Row.texts_eq_iff.mp htexts).2.2.2
    rw [(Row.says_literal hsays).2, (Row.says_literal hsays').2] at htext
    rw [Literal.instant?, htext] at hl
    exact Option.some.inj (hl.symm.trans hl')
  cases a
  cases b
  cases hiri
  cases hiri'
  cases hsame
  cases hversion
  cases htime
  rfl

/-- Where no text is stated both as a name and as a literal, it does not matter at
all. -/
theorem describe?_of_unmixed (hunmixed : s.Unmixed i)
    (ha : describe? i (s.answered arrival { subject := some i }) = some a) :
    describe? i (s.answered arrival' { subject := some i }) = some a := by
  obtain ⟨hiri, hkind, horigin, l, hcreated, hl⟩ := describe?_eq_some_iff.mp ha
  refine describe?_eq_some_iff.mpr ⟨hiri, ?_, ?_, ?_⟩
  · exact (ofKind_congr fun q => Store.mem_answered.trans Store.mem_answered.symm).mp hkind
  · obtain ⟨o, ho, r, hr, r', hr', ⟨hu, hp⟩, htexts, hsays, hsays'⟩ :=
      Store.exists_last_of_last horigin
    obtain ⟨hname, hobject⟩ := Row.says_iri hsays
    rw [(Row.texts_eq_iff.mp htexts).2.2.2] at hobject
    have hname' := (hunmixed r hr r' hr' hu (.inl hp) htexts).symm.trans hname
    rcases Row.says_cases hsays' with ⟨-, rfl⟩ | ⟨hliteral, -⟩
    · rw [ho, hobject]
    · exact absurd (hliteral.symm.trans hname') (by decide)
  · obtain ⟨o, ho, r, hr, r', hr', ⟨hu, hp⟩, htexts, hsays, hsays'⟩ :=
      Store.exists_last_of_last hcreated
    obtain ⟨hliteral, hobject⟩ := Row.says_literal hsays
    rw [(Row.texts_eq_iff.mp htexts).2.2.2] at hobject
    have hliteral' := (hunmixed r hr r' hr' hu (.inr hp) htexts).symm.trans hliteral
    rcases Row.says_cases hsays' with ⟨hname, -⟩ | ⟨-, l', rfl, hvalue⟩
    · exact absurd (hname.symm.trans hliteral') (by decide)
    · refine ⟨l', ho, ?_⟩
      rw [Literal.instant?, hvalue, hobject]
      exact hl

end Arrivals

theorem iri_of_describe? {iri : Iri} {quads : List Quad} {snapshot : Snapshot}
    (h : describe? iri quads = some snapshot) : snapshot.iri = iri :=
  (describe?_eq_some_iff.mp h).1

theorem precedes_iff {a b : Snapshot} : precedes a b = true ↔
    b.created < a.created ∨ a.created = b.created ∧ ¬ b.iri < a.iri := by
  simp only [precedes, Bool.or_eq_true, Bool.and_eq_true, decide_eq_true_eq, Bool.not_eq_true',
    decide_eq_false_iff_not]

theorem precedes_trans (a b c : Snapshot) (h : precedes a b = true) (k : precedes b c = true) :
    precedes a c = true := by
  rw [precedes_iff] at h k ⊢
  rcases h with h | ⟨hsame, h⟩ <;> rcases k with k | ⟨ksame, k⟩
  · exact .inl (TotalOrder.lt_trans k h)
  · exact .inl (ksame ▸ h)
  · exact .inl (hsame ▸ k)
  · refine .inr ⟨hsame.trans ksame, fun hca => ?_⟩
    by_cases hbc : b.iri < c.iri
    · exact h (TotalOrder.lt_trans hbc hca)
    · exact h (TotalOrder.eq_of_not_lt hbc k ▸ hca)

theorem precedes_total (a b : Snapshot) : (precedes a b || precedes b a) = true := by
  rw [Bool.or_eq_true, precedes_iff, precedes_iff]
  by_cases hab : a.created < b.created
  · exact .inr (.inl hab)
  · by_cases hba : b.created < a.created
    · exact .inl (.inl hba)
    · have hsame := TotalOrder.eq_of_not_lt hab hba
      by_cases hiri : b.iri < a.iri
      · exact .inr (.inr ⟨hsame.symm, fun h =>
          TotalOrder.lt_irrefl _ (TotalOrder.lt_trans h hiri)⟩)
      · exact .inl (.inr ⟨hsame, hiri⟩)

end Snapshot

namespace Connection

variable {c : Connection} {asset : Iri} {l : List Snapshot}

theorem findSnapshot_eq_ok {iri : Iri} {o : Option Snapshot} (h : c.findSnapshot iri = .ok o) :
    o = Snapshot.describe? iri (c.answered { subject := some iri }) := by
  obtain ⟨quads, hquads, h⟩ := bind_eq_ok h
  cases h
  rw [quads_eq_answered rfl hquads]

theorem iri_of_findSnapshot {iri : Iri} {snapshot : Snapshot}
    (h : c.findSnapshot iri = .ok (some snapshot)) : snapshot.iri = iri :=
  Snapshot.iri_of_describe? (findSnapshot_eq_ok h).symm

theorem describedAmong_eq_ok {iris : List Iri} (h : c.describedAmong iris = .ok l) :
    (∀ i ∈ iris, ∃ o, c.findSnapshot i = .ok o) ∧
      ∀ x, x ∈ l ↔ x.iri ∈ iris ∧ c.findSnapshot x.iri = .ok (some x) := by
  induction iris generalizing l with
  | nil =>
      cases h
      simp
  | cons i iris ih =>
      obtain ⟨o, ho, h⟩ := bind_eq_ok h
      obtain ⟨rest, hrest, h⟩ := bind_eq_ok h
      cases h
      obtain ⟨hfound, hmem⟩ := ih hrest
      refine ⟨List.forall_mem_cons.mpr ⟨⟨o, ho⟩, hfound⟩, fun x => ?_⟩
      simp only [List.mem_append, Option.mem_toList, hmem, List.mem_cons]
      constructor
      · rintro (rfl | ⟨hx, hfind⟩)
        · have hiri := iri_of_findSnapshot ho
          exact ⟨.inl hiri, hiri ▸ ho⟩
        · exact ⟨.inr hx, hfind⟩
      · rintro ⟨rfl | hx, hfind⟩
        · rw [ho] at hfind
          exact .inl (Except.ok.inj hfind)
        · exact .inr ⟨hx, hfind⟩

theorem snapshotsOf_eq_ok (h : c.snapshotsOf asset = .ok l) :
    (∀ i g, .ofQuad ⟨i, Names.versionOf, .iri asset, g⟩ ∈ c.store.rows →
      ∃ o, c.findSnapshot i = .ok o) ∧
      (∀ x, x ∈ l ↔ (∃ g, .ofQuad ⟨x.iri, Names.versionOf, .iri asset, g⟩ ∈ c.store.rows) ∧
        c.findSnapshot x.iri = .ok (some x)) ∧
      l.Pairwise fun a b => Snapshot.precedes a b = true := by
  obtain ⟨versions, hversions, h⟩ := bind_eq_ok h
  obtain ⟨found, hfound, h⟩ := bind_eq_ok h
  cases h
  obtain ⟨hall, hmem⟩ := describedAmong_eq_ok hfound
  have hnames : ∀ i, i ∈ (versions.map Quad.subject).eraseDups ↔
      ∃ g, .ofQuad ⟨i, Names.versionOf, .iri asset, g⟩ ∈ c.store.rows := by
    intro i
    rw [List.mem_eraseDups, List.mem_map, quads_eq_ok rfl rfl hversions]
    constructor
    · rintro ⟨⟨u, p, o, g⟩, hq, rfl⟩
      obtain ⟨ho, hr, -, -, hp⟩ := Store.mem_quads_iri.mp hq
      simp only [Option.all_some, decide_eq_true_eq] at ho hp
      subst ho hp
      exact ⟨g, hr⟩
    · rintro ⟨g, hr⟩
      exact ⟨_, Store.mem_quads_iri.mpr ⟨rfl, hr, rfl, rfl, by simp⟩, rfl⟩
  refine ⟨fun i g hr => hall i ((hnames i).mpr ⟨g, hr⟩), fun x => ?_, ?_⟩
  · rw [List.mem_mergeSort, hmem, hnames]
  · exact List.pairwise_mergeSort Snapshot.precedes_trans Snapshot.precedes_total _

theorem snapshotValidAt_of_mem (h : c.snapshotsOf asset = .ok l) {t : Instant} {x : Snapshot}
    (hx : x ∈ l) (ht : ¬ t < x.created) :
    ∃ found, c.snapshotValidAt asset t = .ok (some found) ∧ found ∈ l ∧
      ¬ t < found.created ∧ ¬ found.created < x.created := by
  obtain ⟨-, -, hsorted⟩ := snapshotsOf_eq_ok h
  have hvalid : ∃ found, l.find? (fun s => !decide (t < s.created)) = some found := by
    rw [← Option.isSome_iff_exists, List.find?_isSome]
    exact ⟨x, hx, by simpa using ht⟩
  obtain ⟨found, hfound⟩ := hvalid
  obtain ⟨hold, before, after, rfl, hbefore⟩ := List.find?_eq_some_iff_append.mp hfound
  refine ⟨found, ?_, List.mem_append_right _ List.mem_cons_self, by simpa using hold, ?_⟩
  · rw [snapshotValidAt, h, ok_bind, hfound]
    rfl
  · rcases List.mem_append.mp hx with hx | hx
    · exact absurd ht (by simpa using hbefore x hx)
    · rcases List.mem_cons.mp hx with rfl | hx
      · exact TotalOrder.lt_irrefl _
      · have hlater := (List.pairwise_append.mp hsorted).2.1
        have hprecedes := (List.pairwise_cons.mp hlater).1 x hx
        rcases Snapshot.precedes_iff.mp hprecedes with hlt | ⟨hsame, -⟩
        · exact fun h => TotalOrder.lt_irrefl _ (TotalOrder.lt_trans h hlt)
        · rw [hsame]
          exact TotalOrder.lt_irrefl _

theorem snapshotsOf_failsWith_of_quads {E : Error → Prop}
    (h : ∀ p : Pattern, p.limit = none → FailsWith E (c.quads p)) (asset : Iri) :
    FailsWith E (c.snapshotsOf asset) := by
  have hdescribed : ∀ iris, FailsWith E (c.describedAmong iris) := by
    intro iris
    induction iris with
    | nil => exact FailsWith.ok []
    | cons i iris ih =>
        refine FailsWith.bind ?_ fun o _ => ih.bind fun rest _ => FailsWith.ok _
        exact (h _ rfl).bind fun quads _ => FailsWith.ok _
  exact (h _ rfl).bind fun versions _ => (hdescribed _).bind fun l _ => FailsWith.ok _

theorem snapshotsOf_failsWith (c : Connection) (asset : Iri) :
    FailsWith Error.IsStorage (c.snapshotsOf asset) :=
  snapshotsOf_failsWith_of_quads (fun p _ => c.quads_failsWith p) asset

end Connection

end SkosArchive
