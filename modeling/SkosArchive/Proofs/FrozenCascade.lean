import SkosArchive.Proofs.CopiedRelations
import SkosArchive.Proofs.Neighbours

namespace SkosArchive

namespace Catalogue

/-- What a cascade that is to be closed has to meet: the suffix is new; the
related vocabularies are live and have a description; each has one glossary at
most, in its context; nothing is owned twice; no glossary has two owners; and a
resource stands in one scheme at most, which the context of the owner says. -/
structure SelfContained (c : Catalogue) (k : Cascade) (related : IriSet) : Prop where
  avoids : c.connection.store.Avoids k.suffix
  described : ∀ w ∈ related, ∃ context, c.contextOf w = .ok context ∧
    c.connection.store.Describes context w
  live : ∀ w ∈ related, ¬ c.connection.store.IsSnapshot w
  glossaryContext : ∀ w ∈ related, ∀ glossary context,
    c.connection.store.Reads ⟨w, Names.hasGlossary, .iri glossary, context⟩ →
      c.contextOf w = .ok context
  oneGlossary : ∀ w ∈ related, ∀ glossary glossary',
    c.connection.store.Relates w Names.hasGlossary glossary →
      c.connection.store.Relates w Names.hasGlossary glossary' → glossary = glossary'
  ownedOnce : ∀ p ∈ k.plans, ∀ p' ∈ k.plans, ∀ i ∈ p.owned, i ∈ p'.owned → p.iri = p'.iri
  oneOwner : ∀ owner owner' glossary,
    c.connection.store.Relates owner Names.hasGlossary glossary →
      c.connection.store.Relates owner' Names.hasGlossary glossary → owner = owner'
  oneScheme : ∀ resource glossary glossary',
    c.connection.store.Relates resource Names.inScheme glossary →
      c.connection.store.Relates resource Names.inScheme glossary' → glossary = glossary'
  schemeContext : ∀ resource owner glossary context,
    c.connection.store.Reads ⟨resource, Names.inScheme, .iri glossary, context⟩ →
      c.connection.store.Relates owner Names.hasGlossary glossary → c.contextOf owner = .ok context

theorem SelfContained.of_rows {c : Catalogue} {k : Cascade} {related : IriSet}
    (hregular : c.connection.store.Regular) (havoids : c.connection.store.Avoids k.suffix)
    (hdescribed : ∀ w ∈ related, ∃ context, c.contextOf w = .ok context ∧
      c.connection.store.Describes context w)
    (hlive : ∀ r ∈ c.connection.store.rows, r.predicate = Names.type →
      ∀ kind : SnapshotKind, r.object ≠ kind.type.text)
    (hglossary : ∀ r ∈ c.connection.store.rows, r.predicate = Names.hasGlossary →
      c.contextOf r.subject = .ok r.graph ∧ ∀ r' ∈ c.connection.store.rows,
        (r'.predicate = Names.hasGlossary → (r.subject = r'.subject ↔ r.object = r'.object)) ∧
          (r'.predicate = Names.inScheme → r.object = r'.object →
            c.contextOf r.subject = .ok r'.graph))
    (hscheme : ∀ r ∈ c.connection.store.rows, r.predicate = Names.inScheme →
      ∀ r' ∈ c.connection.store.rows, r'.predicate = Names.inScheme →
        r.subject = r'.subject → r.object = r'.object)
    (hplans : ∀ x ∈ k.plans.map fun p => (p.iri, p.owned),
      ∀ x' ∈ k.plans.map fun p => (p.iri, p.owned), ∀ i ∈ x.2, i ∈ x'.2 → x.1 = x'.1) :
    c.SelfContained k related where
  avoids := havoids
  described := hdescribed
  live w _ := by
    rintro ⟨kind, g, hr⟩
    exact hlive _ hr rfl kind rfl
  glossaryContext w _ glossary context hreads :=
    (hglossary _ (hregular.reads_iri.mp hreads) rfl).1
  oneGlossary w _ glossary glossary' := by
    rintro ⟨g, hreads⟩ ⟨g', hreads'⟩
    rw [hregular.reads_iri] at hreads hreads'
    exact congrArg Iri.mk ((((hglossary _ hreads rfl).2 _ hreads').1 rfl).mp rfl)
  ownedOnce p hp p' hp' i hi hi' :=
    hplans _ (List.mem_map_of_mem hp) _ (List.mem_map_of_mem hp') i hi hi'
  oneOwner owner owner' glossary := by
    rintro ⟨g, hreads⟩ ⟨g', hreads'⟩
    rw [hregular.reads_iri] at hreads hreads'
    exact (((hglossary _ hreads rfl).2 _ hreads').1 rfl).mpr rfl
  oneScheme resource glossary glossary' := by
    rintro ⟨g, hreads⟩ ⟨g', hreads'⟩
    rw [hregular.reads_iri] at hreads hreads'
    exact congrArg Iri.mk (hscheme _ hreads rfl _ hreads' rfl rfl)
  schemeContext resource owner glossary context hreads := by
    rintro ⟨g, hreads'⟩
    rw [hregular.reads_iri] at hreads hreads'
    exact ((hglossary _ hreads' rfl).2 _ hreads).2 rfl rfl

section

variable {c : Catalogue} {k : Cascade} {related : IriSet} {v : Iri} {t : Store} {p : CopyPlan}
  {arrival : Row → Nat} {relations : RelationSet}
  (hregular : c.connection.store.Regular) (h : c.SelfContained k related)
  (hplans : c.plans v related.toList = .ok k.plans) (ht : k.Written c.connection.store t)

include hplans in
theorem find_of_plan (hp : p ∈ k.plans) : c.find p.iri = .ok (some p.found) :=
  ((of_plans_eq_ok hplans).2 p hp).2.1

include hplans in
theorem iri_mem_related (hp : p ∈ k.plans) : p.iri ∈ related :=
  (of_plans_eq_ok hplans).1.subset (List.mem_map_of_mem hp)

include hplans in
theorem plan_unique (hp : p ∈ k.plans) : ∀ p' ∈ k.plans, p'.iri = p.iri → p' = p :=
  fun _ hp' => plans_ext hplans hp' hp

include hplans in
theorem mem_owned_of_term (hp : p ∈ k.plans) {glossary term : Iri}
    (hglossary : p.found.vocabulary.glossary = some glossary)
    (hr : .ofQuad ⟨term, Names.inScheme, .iri glossary, p.found.context⟩ ∈
      c.connection.store.rows) : term ∈ p.owned := by
  have hterms := ((of_plans_eq_ok hplans).2 p hp).2.2
  exact List.mem_append_right _ ((mem_terms hterms).mpr ⟨glossary, hglossary, hr⟩)

include h hplans

theorem exists_plan {w : Iri} (hw : w ∈ related) : ∃ p ∈ k.plans, p.iri = w :=
  (exists_plan_iff hplans).mpr ⟨hw, h.live w hw, h.described w hw⟩

theorem mem_owned_of_related {w : Iri} (hw : w ∈ related) : w ∈ k.owned := by
  obtain ⟨p, hp, rfl⟩ := exists_plan h hplans hw
  exact Cascade.mem_owned.mpr ⟨p, hp, p.iri_mem_owned⟩

theorem glossary_iff (hp : p ∈ k.plans) {glossary : Iri} :
    p.found.vocabulary.glossary = some glossary ↔
      c.connection.store.Reads ⟨p.iri, Names.hasGlossary, .iri glossary, p.found.context⟩ := by
  apply glossary_of_find (find_of_plan hplans hp)
  intro g g' hg hg'
  exact h.oneGlossary p.iri (iri_mem_related hplans hp) g g' ⟨_, hg⟩ ⟨_, hg'⟩

include hregular

omit hplans in
theorem owner_unique {owner owner' resource : Iri}
    (howns : c.connection.store.OwnsResource owner resource)
    (howns' : c.connection.store.OwnsResource owner' resource) : owner = owner' := by
  obtain ⟨glossary, hscheme, howns⟩ := howns
  obtain ⟨glossary', hscheme', howns'⟩ := howns'
  obtain rfl := h.oneScheme resource glossary glossary' hscheme hscheme'
  exact h.oneOwner owner owner' glossary (hregular.owns_iff.mp howns) (hregular.owns_iff.mp howns')

theorem owned_of_ownsResource (hp : p ∈ k.plans) {resource glossary : Iri}
    (hscheme : c.connection.store.Relates resource Names.inScheme glossary)
    (howns : c.connection.store.Owns p.iri glossary) :
    c.connection.store.Reads ⟨resource, Names.inScheme, .iri glossary, p.found.context⟩ ∧
      c.connection.store.Reads ⟨p.iri, Names.hasGlossary, .iri glossary, p.found.context⟩ ∧
        resource ∈ p.owned ∧ glossary ∈ p.owned := by
  have hcontext := contextOf_of_find (find_of_plan hplans hp)
  obtain ⟨context, hreads⟩ := hscheme
  rw [hregular.owns_iff] at howns
  have hin := h.schemeContext resource p.iri glossary context hreads howns
  rw [hcontext] at hin
  cases hin
  obtain ⟨context, howns⟩ := howns
  have hin := h.glossaryContext p.iri (iri_mem_related hplans hp) glossary context howns
  rw [hcontext] at hin
  cases hin
  have hglossary := (glossary_iff h hplans hp).mpr howns
  refine ⟨hreads, howns, ?_, by simp [CopyPlan.owned, hglossary]⟩
  exact mem_owned_of_term hplans hp hglossary (hregular.reads_iri.mp hreads)

include ht

theorem ownsResource_copy {resource y : Iri} (hlive : ¬ resource.EndsWith k.suffix)
    (howners : ∀ owner, c.connection.store.OwnsResource owner resource → owner ∈ related) :
    t.OwnsResource y (k.rename resource) ↔
      ∃ owner, c.connection.store.OwnsResource owner resource ∧ y = owner.withSuffix k.suffix := by
  have htregular : t.Regular := ht.regular hregular
  constructor
  · rintro ⟨glossary', hscheme', howns'⟩
    rw [htregular.owns_iff] at howns'
    have hscheme := ht.relates_withoutSuffix (by decide) h.avoids hscheme'
    rw [Cascade.withoutSuffix_rename fun _ => hlive] at hscheme
    have howns := ht.relates_withoutSuffix (by decide) h.avoids howns'
    rw [← hregular.owns_iff] at howns
    have howner : c.connection.store.OwnsResource (y.withoutSuffix k.suffix) resource :=
      ⟨_, hscheme, howns⟩
    obtain ⟨p, hp, hiri⟩ := exists_plan h hplans (howners _ howner)
    rw [← hiri] at howns
    obtain ⟨-, -, hresource, hglossary⟩ := owned_of_ownsResource hregular h hplans hp hscheme howns
    rw [Cascade.rename_of_owned hp hresource] at hscheme'
    obtain ⟨_, glossary, hrelates, -, rfl⟩ := ht.relates_of_endsWith (by decide) h.avoids hscheme'
      (.inl (Iri.endsWith_withSuffix _ _))
    rw [Cascade.withoutSuffix_rename fun _ => (h.avoids.live_of_relates hrelates).2] at hglossary
    rw [Cascade.rename_of_owned hp hglossary] at howns'
    obtain ⟨owner, -, -, rfl, -⟩ := ht.relates_of_endsWith (by decide) h.avoids howns'
      (.inr (Iri.endsWith_withSuffix _ _))
    refine ⟨_, howner, ?_⟩
    rw [Iri.withoutSuffix_withSuffix]
  · rintro ⟨owner, howner, rfl⟩
    obtain ⟨p, hp, rfl⟩ := exists_plan h hplans (howners owner howner)
    obtain ⟨glossary, hscheme, howns⟩ := howner
    obtain ⟨hreads, hglossaryReads, hresource, hglossary⟩ :=
      owned_of_ownsResource hregular h hplans hp hscheme howns
    rw [Cascade.rename_of_owned hp hresource]
    have hext := plan_unique hplans hp
    refine ⟨k.rename glossary, ⟨k.target p, ?_⟩, htregular.owns_iff.mpr ⟨k.target p, ?_⟩⟩
    · rw [ht.reads_copy (by decide) hp hext hresource]
      exact ⟨glossary, hreads, rfl⟩
    · rw [ht.reads_copy (by decide) hp hext p.iri_mem_owned]
      exact ⟨glossary, hglossaryReads, rfl⟩

omit hregular

theorem graph_of_copy (hp : p ∈ k.plans) {r : Row} (hr : r ∈ t.rows)
    (hsubject : r.subject = k.target p) : r.graph = k.target p := by
  have hnew : r ∉ c.connection.store.rows := fun hs =>
    (h.avoids r hs).2.1 (hsubject ▸ Iri.endsWith_withSuffix p.iri k.suffix)
  obtain ⟨p', hp', hg, u, hu, hsuffix⟩ := ht.owner_of_new hr hnew
  rw [hsubject] at hsuffix
  cases Iri.withSuffix_inj hsuffix
  have hiri := h.ownedOnce p' hp' p hp p.iri hu p.iri_mem_owned
  rw [hg, plans_ext hplans hp' hp hiri]

theorem contextOf_copy (hp : p ∈ k.plans) :
    (Connection.reliable t arrival).contextOf (k.target p) = .ok (k.target p) := by
  have hquads : (Connection.reliable t arrival).quads (Store.declaration (k.target p)) =
      .ok (t.answered arrival (Store.declaration (k.target p))) :=
    Connection.reliable_quads rfl fun r _ hcovers =>
      Row.exists_toQuad_of_iri (Pattern.object_of_covers rfl hcovers).1
  refine Connection.contextOf_of_own (congrArg (· >>= _) hquads) ?_
  intro g hg
  obtain ⟨q, hq, rfl⟩ := List.mem_map.mp hg
  obtain ⟨r, hr, hcovers, hrq⟩ := Store.mem_quads.mp (Store.mem_answered.mp hq)
  rw [Row.graph_of_toQuad hrq]
  exact graph_of_copy h hplans ht hp hr (Pattern.subject_of_covers rfl hcovers)

theorem reads_glossary_copy (hp : p ∈ k.plans) {glossary' : Iri} :
    t.Reads ⟨k.target p, Names.hasGlossary, .iri glossary', k.target p⟩ ↔
      ∃ glossary, p.found.vocabulary.glossary = some glossary ∧
        glossary' = k.rename glossary := by
  simp only [glossary_iff h hplans hp]
  exact ht.reads_copy (by decide) hp (plan_unique hplans hp) p.iri_mem_owned

theorem find_copy (hp : p ∈ k.plans) :
    ∃ found, ((Connection.reliable t arrival).catalogue .empty).find (k.target p) =
        .ok (some found) ∧
      found.context = k.target p ∧
        (∀ glossary', found.vocabulary.glossary = some glossary' ↔
          ∃ glossary, p.found.vocabulary.glossary = some glossary ∧
            glossary' = k.rename glossary) ∧
          ∀ i', i' ∈ found.vocabulary.imports ↔
            ∃ i ∈ p.found.vocabulary.imports, i' = k.rename i := by
  let description : Pattern := { graph := some (k.target p), subject := some (k.target p) }
  have hquads : (Connection.reliable t arrival).quads description =
      .ok (t.answered arrival description) :=
    Connection.reliable_quads rfl fun r hr hcovers =>
      ht.readable hp hr (Pattern.graph_of_covers rfl hcovers)
  obtain ⟨found, hfind, hfound⟩ :=
    exists_find (c := (Connection.reliable t arrival).catalogue .empty)
      (contextOf_copy h hplans ht hp) hquads (ht.describes_target hp)
  refine ⟨found, hfind, hfound, ?_, ?_⟩
  · intro glossary'
    rw [glossary_of_find hfind, hfound]
    · exact reads_glossary_copy h hplans ht hp
    · rw [hfound]
      intro g g' hg hg'
      obtain ⟨glossary, hold, rfl⟩ := (reads_glossary_copy h hplans ht hp).mp hg
      obtain ⟨glossary', hold', rfl⟩ := (reads_glossary_copy h hplans ht hp).mp hg'
      rw [hold] at hold'
      cases hold'
      rfl
  · intro i'
    rw [imports_of_find hfind, hfound]
    simp only [imports_of_find (find_of_plan hplans hp)]
    exact ht.reads_copy (by decide) hp (plan_unique hplans hp) p.iri_mem_owned

include hregular

theorem linksOut_copy (hp : p ∈ k.plans) {found : Located} (hcontext : found.context = k.target p)
    (hglossary : ∀ glossary', found.vocabulary.glossary = some glossary' ↔
      ∃ glossary, p.found.vocabulary.glossary = some glossary ∧ glossary' = k.rename glossary)
    {target' : Iri} :
    t.LinksOut relations found target' ↔
      ∃ target, c.connection.store.LinksOut relations p.found target ∧
        target' = k.rename target := by
  have hext := plan_unique hplans hp
  have htregular := ht.regular hregular
  constructor
  · rintro ⟨glossary', term', hfound, hr, predicate, hfollows, hlinks⟩
    obtain ⟨glossary, hold, rfl⟩ := (hglossary glossary').mp hfound
    rw [hcontext] at hr hlinks
    rw [← htregular.reads_iri, ht.reads_target_iri (by decide) hp hext] at hr
    obtain ⟨term, hterm, scheme, hscheme, rfl, hrename⟩ := hr
    have hreads := (glossary_iff h hplans hp).mp hold
    cases Cascade.rename_inj (h.avoids.live_of_relates ⟨_, hreads⟩).2
      (h.avoids.live_of_relates ⟨_, hscheme⟩).2 hrename
    rw [ht.reads_copy (RelationSet.not_tag_of_follows hfollows) hp hext hterm] at hlinks
    obtain ⟨target, hlinks, rfl⟩ := hlinks
    exact ⟨target, ⟨_, term, hold, hregular.reads_iri.mp hscheme, predicate, hfollows, hlinks⟩, rfl⟩
  · rintro ⟨target, ⟨glossary, term, hold, hr, predicate, hfollows, hlinks⟩, rfl⟩
    have hterm := mem_owned_of_term hplans hp hold hr
    refine ⟨k.rename glossary, term.withSuffix k.suffix, ?_, ?_, predicate, hfollows, ?_⟩
    · exact (hglossary _).mpr ⟨glossary, hold, rfl⟩
    · rw [hcontext, ← htregular.reads_iri, ht.reads_copy (by decide) hp hext hterm]
      exact ⟨glossary, hregular.reads_iri.mpr hr, rfl⟩
    · rw [hcontext, ht.reads_copy (RelationSet.not_tag_of_follows hfollows) hp hext hterm]
      exact ⟨target, hlinks, rfl⟩

omit hregular hplans in
theorem exists_vocabularyOfTerm_copy {resource : Iri} {o : Option Iri}
    (hold : c.connection.vocabularyOfTerm resource = .ok o) :
    ∃ o', (Connection.reliable t arrival).vocabularyOfTerm (k.rename resource) = .ok o' := by
  apply Connection.exists_vocabularyOfTerm
  intro r hr hsubject hpredicate
  rcases (ht.rows r).mp hr with hs | ⟨-, -, q, -, rfl⟩
  · have hlive : resource ∉ k.owned := by
      intro howned
      rw [Cascade.rename_of_mem howned] at hsubject
      exact (h.avoids r hs).2.1 (hsubject ▸ Iri.endsWith_withSuffix resource k.suffix)
    rw [Cascade.rename_of_not_mem hlive] at hsubject
    exact Connection.readable_of_vocabularyOfTerm hold hs hsubject hpredicate
  · exact ⟨_, Row.toQuad_ofQuad q⟩

section

variable {neighbours : List Iri} (hp : p ∈ k.plans)
  (hneighbours : c.neighbours relations p.iri = .ok neighbours)

include hp hneighbours

theorem ownsResource_copy_of_linksOut (hclosed : ∀ y ∈ neighbours, y ∈ related) {target y' : Iri}
    (hlinks : c.connection.store.LinksOut relations p.found target) :
    t.OwnsResource y' (k.rename target) ↔ ∃ y,
      c.connection.store.OwnsResource y target ∧ y' = y.withSuffix k.suffix := by
  apply ownsResource_copy hregular h hplans ht
  · obtain ⟨_, _, _, _, _, _, hreads⟩ := hlinks
    exact (h.avoids.live_of_relates ⟨_, hreads⟩).2
  · intro y howns
    rcases eq_or_ne y p.iri with rfl | hne
    · exact iri_mem_related hplans hp
    · apply hclosed y
      rw [mem_neighbours (find_of_plan hplans hp) hneighbours fun _ _ _ _ =>
        owner_unique hregular h]
      exact .inr ⟨hne, target, hlinks, howns⟩

omit hregular in
theorem exists_neighbours_copy {found : Located}
    (hfound : ((Connection.reliable t arrival).catalogue .empty).find (k.target p) =
      .ok (some found))
    (hcontext : found.context = k.target p)
    (hlinksOut : ∀ target', t.LinksOut relations found target' → ∃ target,
      c.connection.store.LinksOut relations p.found target ∧ target' = k.rename target) :
    ∃ neighbours', ((Connection.reliable t arrival).catalogue .empty).neighbours relations
      (k.target p) = .ok neighbours' := by
  apply exists_neighbours hfound fun r hr hg => ht.readable hp hr (hg.trans hcontext)
  intro target' hlinks'
  obtain ⟨target, hlinks, rfl⟩ := hlinksOut target' hlinks'
  obtain ⟨o, ho⟩ := (neighbours_eq_ok (find_of_plan hplans hp) hneighbours).2 target hlinks
  exact exists_vocabularyOfTerm_copy h ht ho

theorem neighbours_copy (hclosed : ∀ y ∈ neighbours, y ∈ related) :
    ∃ neighbours', ((Connection.reliable t arrival).catalogue .empty).neighbours relations
        (k.target p) = .ok neighbours' ∧
      ∀ y', y' ∈ neighbours' ↔ ∃ y ∈ neighbours, y' = y.withSuffix k.suffix := by
  obtain ⟨found, hfound, hcontext, hglossary, himports⟩ := find_copy h hplans ht hp
  have hlinksOut : ∀ target', t.LinksOut relations found target' ↔ ∃ target,
      c.connection.store.LinksOut relations p.found target ∧ target' = k.rename target :=
    fun _ => linksOut_copy hregular h hplans ht hp hcontext hglossary
  have howns : ∀ target, c.connection.store.LinksOut relations p.found target → ∀ y',
      t.OwnsResource y' (k.rename target) ↔ ∃ y,
        c.connection.store.OwnsResource y target ∧ y' = y.withSuffix k.suffix :=
    fun _ hlinks _ =>
      ownsResource_copy_of_linksOut hregular h hplans ht hp hneighbours hclosed hlinks
  obtain ⟨neighbours', hneighbours'⟩ := exists_neighbours_copy h hplans ht hp hneighbours hfound
    hcontext fun target' => (hlinksOut target').mp
  have hone : ∀ target', t.LinksOut relations found target' → ∀ y₁ y₂,
      t.OwnsResource y₁ target' → t.OwnsResource y₂ target' → y₁ = y₂ := by
    intro target' hlinks' y₁ y₂ hy₁ hy₂
    obtain ⟨target, hlinks, rfl⟩ := (hlinksOut target').mp hlinks'
    obtain ⟨owner₁, howns₁, rfl⟩ := (howns target hlinks y₁).mp hy₁
    obtain ⟨owner₂, howns₂, rfl⟩ := (howns target hlinks y₂).mp hy₂
    rw [owner_unique hregular h howns₁ howns₂]
  have hmem := fun y => mem_neighbours (y := y) (find_of_plan hplans hp) hneighbours fun _ _ _ _ =>
    owner_unique hregular h
  refine ⟨neighbours', hneighbours', fun y' => ?_⟩
  rw [mem_neighbours hfound hneighbours' hone]
  -- an import answers to an import, an owner behind a link to one behind its copy
  constructor
  · rintro (himport | ⟨hne, target', hlinks', hy'⟩)
    · obtain ⟨i, hi, rfl⟩ := (himports y').mp himport
      have hi := (hmem i).mpr (.inl hi)
      exact ⟨i, hi, Cascade.rename_of_mem (mem_owned_of_related h hplans (hclosed i hi))⟩
    · obtain ⟨target, hlinks, rfl⟩ := (hlinksOut target').mp hlinks'
      obtain ⟨y, hy, rfl⟩ := (howns target hlinks y').mp hy'
      refine ⟨y, (hmem y).mpr (.inr ⟨?_, target, hlinks, hy⟩), rfl⟩
      rintro rfl
      exact hne rfl
  · rintro ⟨y, hmember, rfl⟩
    rcases (hmem y).mp hmember with himport | ⟨hne, target, hlinks, hy⟩
    · refine .inl ((himports _).mpr ⟨y, himport, ?_⟩)
      exact (Cascade.rename_of_mem (mem_owned_of_related h hplans (hclosed y hmember))).symm
    · refine .inr ⟨fun heq => hne (Iri.withSuffix_inj heq), k.rename target, ?_, ?_⟩
      · exact (hlinksOut _).mpr ⟨target, hlinks, rfl⟩
      · exact (howns target hlinks _).mpr ⟨y, hy, rfl⟩

end

/-- Every step from a related vocabulary is answered by one from its copy. -/
theorem step_copy (hrelated : c.recursiveRelated relations v = .ok related) {w : Iri}
    (hw : w ∈ related) :
    ∃ neighbours neighbours', c.neighbours relations w = .ok neighbours ∧
      ((Connection.reliable t arrival).catalogue .empty).neighbours relations
        (w.withSuffix k.suffix) = .ok neighbours' ∧
      ∀ y', y' ∈ neighbours' ↔ ∃ y ∈ neighbours, y' = y.withSuffix k.suffix := by
  obtain ⟨hmem, hneighbours⟩ := recursiveRelated_eq_ok hrelated
  obtain ⟨neighbours, hstep⟩ := hneighbours w hw
  obtain ⟨p, hp, rfl⟩ := exists_plan h hplans hw
  obtain ⟨neighbours', hcopy⟩ := neighbours_copy hregular h hplans ht hp hstep fun y hy =>
    (hmem y).mpr (.step ((hmem p.iri).mp hw) hstep hy)
  exact ⟨neighbours, neighbours', hstep, hcopy⟩

theorem reachable_copy (hrelated : c.recursiveRelated relations v = .ok related) {y' : Iri} :
    Reachable (((Connection.reliable t arrival).catalogue .empty).neighbours relations)
        (v.withSuffix k.suffix) y' ↔ ∃ w ∈ related, y' = w.withSuffix k.suffix := by
  have hmem := (recursiveRelated_eq_ok hrelated).1
  simp only [hmem]
  apply Reachable.map_iff (f := fun w : Iri => w.withSuffix k.suffix)
  exact fun w hw => step_copy hregular h hplans ht hrelated ((hmem w).mpr hw)

end

end Catalogue

/-- A cascade that contains all it relates to is closed once it is frozen: the
vocabularies related to the snapshot are the snapshots of the vocabularies that
were related to the original, and nothing else. -/
theorem createSnapshot_frozen (arrival : Row → Nat) {c : Catalogue} {config : SnapshotConfig}
    {now : Instant} {v : Iri} {k : Cascade} {related : IriSet} {snapshot : Snapshot} {t : Store}
    (hregular : c.connection.store.Regular)
    (hcreate : c.createSnapshot .recursive config now v = .ok (snapshot, t))
    (hk : c.cascade .recursive config now v = .ok k)
    (hrelated : c.related .recursive config.cascade v = .ok related)
    (h : c.SelfContained k related) :
    ((Connection.reliable t arrival).catalogue .empty).related .recursive config.cascade
        (v.withSuffix k.suffix) =
      .ok (Ascending.ofList (related.toList.map fun w => w.withSuffix k.suffix)) := by
  obtain ⟨-, k', hk', ht, -⟩ := Catalogue.createSnapshot_eq_ok hcreate
  rw [hk] at hk'
  cases hk'
  obtain ⟨related', hrelated', hplans, -⟩ := Catalogue.cascade_eq_ok hk
  rw [hrelated] at hrelated'
  cases hrelated'
  have hreachable : ∀ y', Reachable (((Connection.reliable t arrival).catalogue .empty).neighbours
      config.cascade) (v.withSuffix k.suffix) y' ↔ ∃ w ∈ related, y' = w.withSuffix k.suffix :=
    fun _ => Catalogue.reachable_copy hregular h hplans ht hrelated
  obtain ⟨related', hrelated'⟩ := Catalogue.exists_recursiveRelated fun y' hy' => by
    obtain ⟨w, hw, rfl⟩ := (hreachable y').mp hy'
    obtain ⟨-, neighbours', -, hcopy, -⟩ := Catalogue.step_copy hregular h hplans ht hrelated hw
    exact ⟨neighbours', hcopy⟩
  refine hrelated'.trans (congrArg Except.ok (Ascending.eq_of_mem_iff fun y' => ?_))
  rw [(Catalogue.recursiveRelated_eq_ok hrelated').1, hreachable, Ascending.mem_ofList,
    List.mem_map]
  exact exists_congr fun w => and_congr_right fun _ => eq_comm

theorem createSnapshot_frozen_linkedPair :
    ∃ (snapshot : Snapshot) (t : Store),
      ((Connection.reliable .linkedPair).catalogue .empty).createSnapshot .recursive .standard
        ⟨1700000000, 0, by decide, by decide⟩ ⟨"v"⟩ = .ok (snapshot, t) ∧
      ((Connection.reliable t).catalogue .empty).related .recursive .standard
          ⟨"v/version/2023-11-14T221320Z"⟩ =
        .ok (Ascending.ofList [⟨"v/version/2023-11-14T221320Z"⟩,
          ⟨"w/version/2023-11-14T221320Z"⟩]) := by
  have hok : (((Connection.reliable .linkedPair).catalogue .empty).createSnapshot .recursive
      .standard ⟨1700000000, 0, by decide, by decide⟩ ⟨"v"⟩).isOk = true := by
    decide +kernel
  have hrelated : ((Connection.reliable .linkedPair).catalogue .empty).related .recursive
      .standard ⟨"v"⟩ = .ok (Ascending.ofList [⟨"v"⟩, ⟨"w"⟩]) := by
    decide +kernel
  have hcascade : (((Connection.reliable .linkedPair).catalogue .empty).cascade .recursive .standard
      ⟨1700000000, 0, by decide, by decide⟩ ⟨"v"⟩).map
        (fun k => (k.suffix, k.plans.map fun p => (p.iri, p.owned))) =
      .ok ("/version/2023-11-14T221320Z",
        [(⟨"v"⟩, [⟨"v"⟩, ⟨"v/glossary"⟩, ⟨"v/term"⟩]),
          (⟨"w"⟩, [⟨"w"⟩, ⟨"w/glossary"⟩, ⟨"w/term"⟩])]) := by
    decide +kernel
  obtain ⟨⟨snapshot, t⟩, hcreate⟩ := exists_ok_of_isOk hok
  obtain ⟨-, k, hk, -⟩ := Catalogue.createSnapshot_eq_ok hcreate
  rw [hk] at hcascade
  obtain ⟨hsuffix, hplans⟩ := Prod.mk.inj (Except.ok.inj hcascade)
  have hregular : Store.linkedPair.Regular := Store.regular_ofQuads _
  have hself : ((Connection.reliable .linkedPair).catalogue .empty).SelfContained k
      (Ascending.ofList [⟨"v"⟩, ⟨"w"⟩]) := by
    have hcontext : ∀ w ∈ (Ascending.ofList [⟨"v"⟩, ⟨"w"⟩] : IriSet).toList,
        (Connection.reliable .linkedPair).contextOf w = .ok w ∧
          ∃ r ∈ Store.linkedPair.rows.toList, r.graph = w ∧ r.subject = w := by
      decide +kernel
    have hlive : ∀ r ∈ Store.linkedPair.rows.toList, r.predicate = Names.type →
        r.object = Names.vocabulary.text := by
      decide +kernel
    have hglossary : ∀ r ∈ Store.linkedPair.rows.toList, r.predicate = Names.hasGlossary →
        (Connection.reliable .linkedPair).contextOf r.subject = .ok r.graph ∧
          ∀ r' ∈ Store.linkedPair.rows.toList,
            (r'.predicate = Names.hasGlossary → (r.subject = r'.subject ↔ r.object = r'.object)) ∧
              (r'.predicate = Names.inScheme → r.object = r'.object →
                (Connection.reliable .linkedPair).contextOf r.subject = .ok r'.graph) := by
      decide +kernel
    have hscheme : ∀ r ∈ Store.linkedPair.rows.toList, r.predicate = Names.inScheme →
        ∀ r' ∈ Store.linkedPair.rows.toList, r'.predicate = Names.inScheme →
          r.subject = r'.subject → r.object = r'.object := by
      decide +kernel
    refine .of_rows hregular ?_ (fun w hw => ⟨w, hcontext w hw⟩) ?_ hglossary hscheme ?_
    · rw [hsuffix]
      exact (by decide +kernel : Store.linkedPair.Avoids "/version/2023-11-14T221320Z")
    · intro r hr htype kind
      rw [hlive r hr htype]
      cases kind <;> decide
    · rw [hplans]
      decide
  have hfrozen := createSnapshot_frozen (fun _ => 0) hregular hcreate hk hrelated hself
  rw [hsuffix] at hfrozen
  exact ⟨snapshot, t, hcreate, hfrozen⟩

end SkosArchive
