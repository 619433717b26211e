import Mathlib.Data.List.Nodup
import Mathlib.Data.List.Perm.Basic
import SkosArchive.Json.Value
import SkosArchive.Order.IriMap

namespace SkosArchive

namespace IriMap

variable {β : Type}

theorem place_perm {k : Iri} {b : β} {l : List (Iri × β)} (h : k ∉ l.map Prod.fst) :
    (place k b l).Perm ((k, b) :: l) := by
  induction l with
  | nil => exact .refl _
  | cons e l ih =>
      rw [List.map_cons, List.mem_cons, not_or] at h
      by_cases hke : k < e.1
      · rw [place, if_pos hke]
      · by_cases hek : e.1 < k
        · rw [place, if_neg hke, if_pos hek]
          exact ((ih h.2).cons e).trans (.swap _ _ _)
        · exact absurd (TotalOrder.eq_of_not_lt hke hek) h.1

theorem entries_foldl_insert {l : List (Iri × β)} {m : IriMap β}
    (h : (l.map Prod.fst ++ m.keys).Nodup) :
    (l.foldl (fun m e => m.insert e.1 e.2) m).entries.Perm (l ++ m.entries) := by
  induction l generalizing m with
  | nil => exact .refl _
  | cons e l ih =>
      rw [List.map_cons, List.cons_append, List.nodup_cons] at h
      have hplace : (m.insert e.1 e.2).entries.Perm (e :: m.entries) :=
        place_perm fun he => h.1 (List.mem_append_right _ he)
      have hnodup : (l.map Prod.fst ++ (m.insert e.1 e.2).keys).Nodup := by
        have hkeys : (l.map Prod.fst ++ (m.insert e.1 e.2).keys).Perm
            (e.1 :: (l.map Prod.fst ++ m.keys)) :=
          ((hplace.map Prod.fst).append_left _).trans List.perm_middle
        exact hkeys.nodup_iff.mpr (List.nodup_cons.mpr h)
      exact (ih hnodup).trans ((hplace.append_left _).trans List.perm_middle)

theorem nodup_keys (m : IriMap β) : m.keys.Nodup := by
  refine m.ascending.imp ?_
  rintro k _ hlt rfl
  exact TotalOrder.lt_irrefl k hlt

theorem eq_of_entries {m m' : IriMap β} (h : m.entries = m'.entries) : m = m' := by
  cases m
  cases m'
  cases h
  rfl

theorem eq_of_perm {m m' : IriMap β} (h : m.entries.Perm m'.entries) : m = m' := by
  refine eq_of_entries (h.eq_of_pairwise ?_ (List.pairwise_map.mp m.ascending)
    (List.pairwise_map.mp m'.ascending))
  intro e e' _ _ hlt hgt
  exact absurd (TotalOrder.lt_trans hlt hgt) (TotalOrder.lt_irrefl e.1)

theorem ofList_of_perm {m : IriMap β} {l : List (Iri × β)} (h : l.Perm m.entries) :
    ofList l = m := by
  have hnodup : (l.map Prod.fst ++ (empty : IriMap β).keys).Nodup := by
    rw [show (empty : IriMap β).keys = [] from rfl, List.append_nil]
    exact (h.map Prod.fst).nodup_iff.mpr m.nodup_keys
  have hentries := entries_foldl_insert hnodup
  rw [show (empty : IriMap β).entries = [] from rfl, List.append_nil] at hentries
  exact eq_of_perm (hentries.trans h)

end IriMap

namespace Json

mutual

/-- The same value, where the members of objects may stand in another order. -/
inductive Reorders : Json → Json → Prop where
  | null : Reorders .null .null
  | bool (value : Bool) : Reorders (.bool value) (.bool value)
  | number (mantissa : Int) (scale : Nat) :
    Reorders (.number mantissa scale) (.number mantissa scale)
  | string (text : String) : Reorders (.string text) (.string text)
  | array {items items' : List Json} :
    List.Forall₂ Reorders items items' → Reorders (.array items) (.array items')
  | object {members inOrder members' : List (String × Json)} :
    List.Forall₂ ReordersMember members inOrder → inOrder.Perm members' →
    Reorders (.object members) (.object members')

/-- A member of the same name. -/
inductive ReordersMember : String × Json → String × Json → Prop where
  | mk (name : String) {j j' : Json} : Reorders j j' → ReordersMember (name, j) (name, j')

end

mutual

theorem Reorders.refl : ∀ j : Json, Reorders j j
  | .null => .null
  | .bool value => .bool value
  | .number mantissa scale => .number mantissa scale
  | .string text => .string text
  | .array items => .array (Reorders.refl_items items)
  | .object members => .object (Reorders.refl_members members) (.refl members)

theorem Reorders.refl_items : ∀ items : List Json, List.Forall₂ Reorders items items
  | [] => .nil
  | j :: items => .cons (Reorders.refl j) (Reorders.refl_items items)

theorem Reorders.refl_members : ∀ members : List (String × Json),
    List.Forall₂ ReordersMember members members
  | [] => .nil
  | (name, j) :: members => .cons (.mk name (Reorders.refl j)) (Reorders.refl_members members)

end

theorem names_of_reordersMember {members inOrder : List (String × Json)}
    (h : List.Forall₂ ReordersMember members inOrder) :
    inOrder.map Prod.fst = members.map Prod.fst := by
  induction h with
  | nil => rfl
  | cons hmember _ ih =>
      cases hmember
      rw [List.map_cons, List.map_cons, ih]

theorem values_of_reordersMember {members inOrder : List (String × Json)}
    (h : List.Forall₂ ReordersMember members inOrder) :
    List.Forall₂ Reorders (members.map Prod.snd) (inOrder.map Prod.snd) := by
  induction h with
  | nil => exact .nil
  | cons hmember _ ih =>
      cases hmember with
      | mk _ h => exact .cons h ih

theorem member?_of_mem {members : List (String × Json)} (hnodup : (members.map Prod.fst).Nodup)
    {m : String × Json} (h : m ∈ members) : member? m.1 members = some m.2 := by
  have hfound : ∃ m', members.find? (fun m' => m'.1 = m.1) = some m' := by
    rw [← Option.isSome_iff_exists, List.find?_isSome]
    exact ⟨m, h, decide_eq_true rfl⟩
  obtain ⟨m', hm'⟩ := hfound
  have hname : m'.1 = m.1 := by simpa using List.find?_some hm'
  have hsame : m' = m := List.inj_on_of_nodup_map hnodup (List.mem_of_find?_eq_some hm') h hname
  rw [member?, hm', hsame, Option.map_some]

theorem member?_of_perm {inOrder members : List (String × Json)}
    (hnodup : (inOrder.map Prod.fst).Nodup) (hperm : inOrder.Perm members) :
    (inOrder.map Prod.fst).map (fun name => member? name members) =
      (inOrder.map Prod.snd).map some := by
  have hnodup' : (members.map Prod.fst).Nodup := (hperm.map Prod.fst).nodup_iff.mp hnodup
  rw [List.map_map, List.map_map]
  exact List.map_congr_left fun m hm => member?_of_mem hnodup' (hperm.mem_iff.mp hm)

theorem Reorders.fields? {members : List (String × Json)} {j : Json}
    (h : Reorders (.object members) j) (names : List String)
    (hnames : members.map Prod.fst = names) (hnodup : names.Nodup) :
    ∃ values, List.Forall₂ Reorders (members.map Prod.snd) values ∧
      j.fields? names = some (values.map some) ∧ j.settings? names = some (values.map some) := by
  cases h with
  | object hmembers hperm =>
      rw [← hnames, ← names_of_reordersMember hmembers] at hnodup ⊢
      exact ⟨_, values_of_reordersMember hmembers,
        congrArg some (member?_of_perm hnodup hperm), congrArg some (member?_of_perm hnodup hperm)⟩

/-- The tag is found wherever it stands, and the rest is what was written beside it. -/
theorem Reorders.tagged? {tag name : String} {members : List (String × Json)} {j : Json}
    (h : Reorders (.object ((tag, .string name) :: members)) j) (names : List String)
    (hnames : members.map Prod.fst = names) (hnodup : (tag :: names).Nodup) :
    ∃ content, Reorders (.object members) content ∧ j.tagged? tag = some (name, content) := by
  cases h with
  | @object _ _ members' hmembers hperm =>
      have hall := names_of_reordersMember hmembers
      rw [List.map_cons, hnames] at hall
      rcases hmembers with _ | @⟨_, _, _, inOrder, ⟨_, ⟨⟩⟩, hmembers⟩
      have hnodup' : (members'.map Prod.fst).Nodup := by
        rw [← (hperm.map Prod.fst).nodup_iff, hall]
        exact hnodup
      have hname : member? tag members' = some (.string name) :=
        member?_of_mem hnodup' (hperm.subset List.mem_cons_self)
      have hrest : ∀ m ∈ inOrder, m.1 ≠ tag := by
        intro m hm htag
        rw [← hnames, ← names_of_reordersMember hmembers, List.nodup_cons] at hnodup
        exact hnodup.1 (List.mem_map.mpr ⟨m, hm, htag⟩)
      have hfilter :
          ((tag, Json.string name) :: inOrder).filter (fun m => m.1 ≠ tag) = inOrder := by
        rw [List.filter_cons_of_neg (by simp), List.filter_eq_self]
        exact fun m hm => decide_eq_true (hrest m hm)
      have hcontent := hperm.filter fun m => decide (m.1 ≠ tag)
      rw [hfilter] at hcontent
      refine ⟨_, .object hmembers hcontent, ?_⟩
      rw [Json.tagged?, hname]
      rfl

/-- A value is read from every reordering of what is written for it. -/
def ReadsAs {α : Type} (read : Json → Option α) (j : Json) (a : α) : Prop :=
  ∀ j', Reorders j j' → read j' = some a

section

variable {α : Type} {write : α → Json} {read : Json → Option α}

theorem readsAs_string (s : String) : ReadsAs string? (.string s) s := by
  rintro _ ⟨⟩
  rfl

theorem readsAs_bool (b : Bool) : ReadsAs bool? (.bool b) b := by
  rintro _ ⟨⟩
  rfl

theorem readsAs_iri (i : Iri) : ReadsAs iri? (.iri i) i := by
  rintro _ ⟨⟩
  rfl

theorem readsAs_word (n : UInt64) : ReadsAs word? (.integer n.toNat) n := by
  rintro _ ⟨⟩
  have hsize : (n.toNat : Int) < UInt64.size := Int.ofNat_lt.mpr n.toNat_lt_size
  rw [word?, if_pos ⟨Int.natCast_nonneg _, hsize⟩, Int.toNat_natCast, UInt64.ofNat_toNat]

theorem readsAs_constant {name : α → String} {ofName? : String → Option α}
    (h : ∀ a, ofName? (name a) = some a) (a : α) :
    ReadsAs (fun j => j.constant?.bind ofName?) (.string (name a)) a := by
  rintro _ ⟨⟩
  exact h a

theorem readsAs_option (hnull : read .null = none) (h : ∀ a, ReadsAs read (write a) a)
    (o : Option α) : ReadsAs (option? read) (option write o) o := by
  intro j hj
  cases o with
  | none =>
      cases hj
      rfl
  | some a =>
      have hread : read j = some a := h a j hj
      have hne : j ≠ .null := by
        rintro rfl
        rw [hnull] at hread
        cases hread
      rw [option?, hread, Option.map_some]
      exact hne

theorem mapM_eq_some {β : Type} {f : α → Option β} {l : List α} {k : List β}
    (h : List.Forall₂ (fun a b => f a = some b) l k) : l.mapM f = some k := by
  induction h with
  | nil => rfl
  | cons ha _ ih =>
      rw [List.mapM_cons, ha, ih]
      rfl

theorem readsAs_list (h : ∀ a, ReadsAs read (write a) a) (l : List α) :
    ReadsAs (list? read) (list write l) l := by
  rintro _ (_ | _ | _ | _ | hitems)
  rw [List.forall₂_map_left_iff] at hitems
  exact mapM_eq_some (hitems.imp fun a j hj => h a j hj).flip

theorem readsAs_ascending [TotalOrder α] (h : ∀ a, ReadsAs read (write a) a) (s : Ascending α) :
    ReadsAs (fun j => (j.list? read).map Ascending.ofList) (list write s.toList) s := by
  intro j hj
  have hmembers : Ascending.ofList s.toList = s :=
    Ascending.eq_of_mem_iff fun a => Ascending.mem_ofList
  simp only [readsAs_list h s.toList j hj, Option.map_some, hmembers]

@[simp] theorem required_some (j : Json) : required read (some j) = read j := rfl

@[simp] theorem optional_some (j : Json) : Json.optional read (some j) = option? read j := rfl

@[simp] theorem defaulted_some (a : α) (j : Json) : defaulted a read (some j) = read j := rfl

theorem readsAs_record {members : List (String × Json)} {names : List String} {a : α}
    {fieldsOf : Json → Option (List (Option Json))} {build : List (Option Json) → Option α}
    (hof : fieldsOf = fields? names ∨ fieldsOf = settings? names)
    (hnames : members.map Prod.fst = names) (hnodup : names.Nodup)
    (h : ∀ values, List.Forall₂ Reorders (members.map Prod.snd) values →
      build (values.map some) = some a) :
    ReadsAs (fun j => (fieldsOf j).bind build) (.object members) a := by
  intro j hj
  obtain ⟨values, hvalues, hfields, hsettings⟩ := hj.fields? names hnames hnodup
  have hread : fieldsOf j = some (values.map some) := by
    rcases hof with rfl | rfl
    · exact hfields
    · exact hsettings
  simp only [hread, Option.bind_some, h values hvalues]

end

end Json

end SkosArchive
