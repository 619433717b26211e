import SkosArchive.Proofs.Derivation

namespace SkosArchive.Choice

/-- The chain of parents from `g` on, up to where it ends, comes to a graph that
`stop` covers, or comes back to one of its own. What it comes to or back to is no
part of it. -/
structure IsWalk (parent : Iri → Option Iri) (stop : Iri → Prop) (g : Iri) (path : List Iri) :
    Prop where
  first : path.head? = some g
  linked : path.IsChain fun a b => parent a = some b
  nodup : path.Nodup
  goesOn : ∀ x ∈ path.tail, ¬ stop x
  ends : ∀ x ∈ path.getLast?, ∀ p, parent x = some p → stop p ∨ p ∈ path

section

variable {parent : Iri → Option Iri} {stop : Iri → Prop} {g : Iri} {path : List Iri}

theorem IsWalk.of_none (h : ∀ p, parent g = some p → stop p ∨ p = g) :
    IsWalk parent stop g [g] where
  first := rfl
  linked := .singleton g
  nodup := List.nodup_singleton g
  goesOn _ hx := absurd hx List.not_mem_nil
  ends := by
    rintro x hx p hp
    obtain rfl : g = x := by simpa using hx
    exact (h p hp).imp_right List.mem_singleton.mpr

theorem IsWalk.cons {p : Iri} (hp : parent g = some p) (hstop : ¬ stop p) (hne : p ≠ g)
    (h : IsWalk parent (fun x => stop x ∨ x = g) p path) : IsWalk parent stop g (g :: path) := by
  obtain ⟨hfirst, hlinked, hnodup, hgoesOn, hends⟩ := h
  obtain ⟨path, rfl⟩ : ∃ rest, path = p :: rest := by
    cases path with
    | nil => cases hfirst
    | cons x rest => exact ⟨rest, by cases hfirst; rfl⟩
  refine ⟨rfl, .cons_cons hp hlinked, ?_, ?_, ?_⟩
  · refine List.nodup_cons.mpr ⟨?_, hnodup⟩
    rintro hmem
    rcases List.mem_cons.mp hmem with rfl | hmem
    · exact hne rfl
    · exact hgoesOn g hmem (.inr rfl)
  · rintro x hx
    rcases List.mem_cons.mp hx with rfl | hx
    · exact hstop
    · exact fun h => hgoesOn x hx (.inl h)
  · rintro x hx q hq
    rw [List.getLast?_cons_cons] at hx
    rcases hends x hx q hq with (h | rfl) | h
    · exact .inl h
    · exact .inr List.mem_cons_self
    · exact .inr (List.mem_cons_of_mem g h)

theorem isWalk_iff : IsWalk parent stop g path ↔
    (path = [g] ∧ ∀ p, parent g = some p → stop p ∨ p = g) ∨
      ∃ p rest, path = g :: rest ∧ parent g = some p ∧ ¬ stop p ∧ p ≠ g ∧
        IsWalk parent (fun x => stop x ∨ x = g) p rest := by
  constructor
  · rintro ⟨hfirst, hlinked, hnodup, hgoesOn, hends⟩
    match path with
    | [] => cases hfirst
    | [x] =>
        cases hfirst
        refine .inl ⟨rfl, fun p hp => ?_⟩
        exact (hends g rfl p hp).imp_right List.mem_singleton.mp
    | x :: p :: rest =>
        cases hfirst
        obtain ⟨hp, hlinked⟩ := List.isChain_cons_cons.mp hlinked
        obtain ⟨hg, hnodup⟩ := List.nodup_cons.mp hnodup
        refine .inr ⟨p, p :: rest, rfl, hp, hgoesOn p List.mem_cons_self, ?_, rfl, hlinked, hnodup,
          ?_, ?_⟩
        · rintro rfl
          exact hg List.mem_cons_self
        · rintro x hx (hstop | rfl)
          · exact hgoesOn x (List.mem_cons_of_mem p hx) hstop
          · exact hg (List.mem_cons_of_mem p hx)
        · intro x hx q hq
          rw [← List.getLast?_cons_cons (a := g)] at hx
          rcases hends x hx q hq with h | h
          · exact .inl (.inl h)
          · rcases List.mem_cons.mp h with rfl | h
            · exact .inl (.inr rfl)
            · exact .inr h
  · rintro (⟨rfl, h⟩ | ⟨p, rest, rfl, hp, hstop, hne, h⟩)
    · exact .of_none h
    · exact h.cons hp hstop hne

end

/-- The graphs whose parents the search for a candidate looks up, in turn. -/
def walk (parent : Iri → Option Iri) (candidates : IriSet) :
    (steps : Nat) → (visited : List Iri) → Iri → List Iri
  | 0, _, _ => []
  | steps + 1, visited, g =>
    g :: match parent g with
      | none => []
      | some p =>
        if p ∈ candidates ∨ p ∈ visited then [] else walk parent candidates steps (p :: visited) p

section

variable {candidates : IriSet} {parent : Iri → Option Iri}

theorem length_walk_le (steps : Nat) (visited : List Iri) (g : Iri) :
    (walk parent candidates steps visited g).length ≤ steps := by
  induction steps generalizing visited g with
  | zero => exact Nat.le_refl 0
  | succ steps ih =>
      rw [walk, List.length_cons]
      apply Nat.succ_le_succ
      split
      · exact Nat.zero_le steps
      · split
        · exact Nat.zero_le steps
        · exact ih _ _

/-- What is looked up is the walk up to a candidate, if the steps exceed what is left to
meet of the graphs that have a parent. -/
theorem isWalk_iff_eq_walk {derived : List Iri} (hderived : ∀ g p, parent g = some p → g ∈ derived)
    {steps : Nat} {visited : List Iri} {g : Iri} (hnodup : (g :: visited).Nodup)
    (hvisited : visited ⊆ derived) (hsteps : derived.length < steps + visited.length)
    {stop : Iri → Prop} (hstop : ∀ x, stop x ↔ x ∈ candidates ∨ x ∈ visited) {path : List Iri} :
    IsWalk parent stop g path ↔ path = walk parent candidates steps (g :: visited) g := by
  have hlength : visited.length ≤ derived.length :=
    (List.subperm_of_subset hnodup.of_cons hvisited).length_le
  induction steps generalizing visited g stop path with
  | zero => omega
  | succ steps ih =>
      rw [isWalk_iff, walk]
      cases hp : parent g with
      | none => simp
      | some p =>
          have hmeets : stop p ∨ p = g ↔ p ∈ candidates ∨ p ∈ g :: visited := by
            rw [hstop, List.mem_cons]
            tauto
          by_cases hmet : p ∈ candidates ∨ p ∈ g :: visited
          · have h := hmeets.mpr hmet
            simp only [hmet, if_true, Option.some.injEq]
            constructor
            · rintro (⟨rfl, -⟩ | ⟨p', rest, -, rfl, hstop, hne, -⟩)
              · rfl
              · exact (h.elim hstop hne).elim
            · rintro rfl
              exact .inl ⟨rfl, by rintro p' rfl; exact h⟩
          · have h := hmeets.not.mpr hmet
            obtain ⟨hstop', hne⟩ := not_or.mp h
            have hfresh : p ∉ g :: visited := fun h => hmet (.inr h)
            have hrest : ∀ {rest}, IsWalk parent (fun x => stop x ∨ x = g) p rest ↔
                rest = walk parent candidates steps (p :: g :: visited) p := by
              intro rest
              have hsubset : g :: visited ⊆ derived :=
                List.cons_subset.mpr ⟨hderived g p hp, hvisited⟩
              refine ih (List.nodup_cons.mpr ⟨hfresh, hnodup⟩) hsubset ?_ ?_ ?_
              · rw [List.length_cons]; omega
              · intro x
                rw [hstop, List.mem_cons]
                tauto
              · exact (List.subperm_of_subset hnodup hsubset).length_le
            simp only [hmet, if_false, Option.some.injEq]
            constructor
            · rintro (⟨-, hends⟩ | ⟨p', rest, rfl, rfl, -, -, hwalk⟩)
              · exact absurd (hends p rfl) h
              · rw [hrest.mp hwalk]
            · rintro rfl
              exact .inr ⟨p, _, rfl, rfl, hstop', hne, hrest.mpr rfl⟩

end

section

variable {candidates : IriSet} {parent : Iri → Option Iri} {m : Type → Type} [Monad m]
  [LawfulMonad m] (ask : Iri → m Unit)

theorem isDerived_ask (steps : Nat) (visited : List Iri) (g : Iri) :
    isDerived (fun g => do ask g; pure (parent g)) candidates steps visited g =
      (do forM (walk parent candidates steps visited g) ask
          pure (derives parent candidates steps visited g)) := by
  induction steps generalizing visited g with
  | zero => simp only [walk, List.forM_nil, pure_bind]; rfl
  | succ steps ih =>
      simp only [isDerived, walk, derives_succ, List.forM_cons, bind_assoc, pure_bind]
      congr 1
      funext _
      cases parent g with
      | none => simp only [List.forM_nil, pure_bind]
      | some p =>
          by_cases hcandidate : p ∈ candidates
          · simp only [hcandidate, true_or, if_true, List.forM_nil, pure_bind]
          · by_cases hmet : p ∈ visited
            · simp only [hcandidate, hmet, or_true, if_true, if_false, List.forM_nil, pure_bind]
            · simp only [hcandidate, hmet, or_self, if_false, ih]

theorem underived_ask (steps : Nat) (graphs : List Iri) :
    underived (fun g => do ask g; pure (parent g)) candidates steps graphs =
      (do forM (graphs.flatMap fun g => walk parent candidates steps [g] g) ask
          pure (graphs.filter fun g => !derives parent candidates steps [g] g)) := by
  induction graphs with
  | nil => simp only [List.flatMap_nil, List.forM_nil, pure_bind]; rfl
  | cons g graphs ih =>
      rw [underived, isDerived_ask, ih, List.flatMap_cons, List.forM_append, List.filter_cons]
      simp only [bind_assoc, pure_bind]
      cases derives parent candidates steps [g] g <;> rfl

theorem among_ask {l : List Iri} {a b : Iri} (ha : a ∈ l) (hb : b ∈ l) (hab : a ≠ b)
    (steps : Nat) (vocabulary : Iri) :
    among (fun g => do ask g; pure (parent g)) steps vocabulary l =
      (do forM ((Ascending.ofList l : IriSet).toList.flatMap fun g =>
            walk parent (Ascending.ofList l) steps [g] g) ask
          pure (choose parent steps vocabulary l)) := by
  rw [choose_of_two ha hb hab]
  have ha : a ∈ (Ascending.ofList l : IriSet).toList := Ascending.mem_ofList.mpr ha
  have hb : b ∈ (Ascending.ofList l : IriSet).toList := Ascending.mem_ofList.mpr hb
  simp only [among]
  rcases hset : (Ascending.ofList l : IriSet).toList with _ | ⟨g, _ | ⟨g', graphs⟩⟩
  · simp [hset] at ha
  · simp only [hset, List.mem_singleton] at ha hb
    exact absurd (ha.trans hb.symm) hab
  · simp only [underived_ask, bind_assoc, pure_bind]
    congr 1
    funext _
    split <;> simp only [*]

end

/-- An attempt that notes which graphs it asks for their parents. -/
abbrev Noting (α : Type) : Type := ExceptT Error (StateM (List Iri)) α

namespace Noting

variable {α β : Type} {log log' : List Iri} {e : Error}

def note (call : Iri → Except Error α) (g : Iri) : Noting α := fun log => (call g, log ++ [g])

/-- How the attempt ends, and all that it asked. -/
def outcome (x : Noting α) : Except Error α × List Iri := x []

theorem note_of_ok {call : Iri → Except Error α} {g : Iri} {a : α} (h : call g = .ok a)
    (log : List Iri) : note call g log = (.ok a, log ++ [g]) := by
  rw [note, h]

theorem note_of_error {call : Iri → Except Error α} {g : Iri} (h : call g = .error e)
    (log : List Iri) : note call g log = (.error e, log ++ [g]) := by
  rw [note, h]

theorem bind_of_ok {x : Noting α} {f : α → Noting β} {a : α} (h : x log = (.ok a, log')) :
    (x >>= f) log = f a log' := by
  change StateT.bind x (ExceptT.bindCont f) log = f a log'
  rw [StateT.bind, h]
  rfl

theorem bind_of_error {x : Noting α} {f : α → Noting β} (h : x log = (.error e, log')) :
    (x >>= f) log = (.error e, log') := by
  change StateT.bind x (ExceptT.bindCont f) log = (.error e, log')
  rw [StateT.bind, h]
  rfl

theorem fst_forM_note (call : Iri → Except Error Unit) (graphs : List Iri) (answer : α)
    (log : List Iri) :
    ((do forM graphs (note call); pure answer : Noting α) log).1 =
      (do forM graphs call; pure answer) := by
  induction graphs generalizing log with
  | nil => rfl
  | cons g graphs ih =>
      rw [List.forM_cons, List.forM_cons, bind_assoc, bind_assoc]
      cases hg : call g with
      | error e =>
          rw [bind_of_error (note_of_error hg log)]
          rfl
      | ok u => rw [bind_of_ok (note_of_ok hg log), ih, ok_bind]

end Noting

/-- A call that fails for some graphs. -/
def ask (fails : Iri → Option Error) (g : Iri) : Except Error Unit :=
  match fails g with
  | some e => .error e
  | none => .ok ()

/-- The parent of a graph by a map, where the look-up fails for some graphs. -/
def lookUp (parents : IriMap Iri) (fails : Iri → Option Error) (g : Iri) :
    Except Error (Option Iri) := do
  ask fails g
  pure (parents.get? g)

/-- A run that asks `graphs` in turn. It ends with the error of the first one that
fails, without asking the rest, and with `answer` if none does. -/
structure AsksInTurn {α : Type} (fails : Iri → Option Error) (graphs : List Iri) (answer : α)
    (run : Except Error α × List Iri) : Prop where
  answers : (∀ g ∈ graphs, fails g = none) → run = (.ok answer, graphs)
  stops : ∀ before g after e, graphs = before ++ g :: after → (∀ x ∈ before, fails x = none) →
    fails g = some e → run = (.error e, before ++ [g])
  error_iff : (∃ e, run.1 = .error e) ↔ ∃ g ∈ graphs, fails g ≠ none

section

variable {fails : Iri → Option Error}

theorem ask_eq_ok {g : Iri} (h : fails g = none) : ask fails g = .ok () := by
  simp only [ask, h]

theorem ask_eq_error {g : Iri} {e : Error} (h : fails g = some e) : ask fails g = .error e := by
  simp only [ask, h]

theorem forM_ask_of_none {graphs : List Iri} (h : ∀ g ∈ graphs, fails g = none)
    (log : List Iri) : forM graphs (Noting.note (ask fails)) log = (.ok (), log ++ graphs) := by
  induction graphs generalizing log with
  | nil => rw [List.append_nil]; rfl
  | cons g graphs ih =>
      obtain ⟨hg, hgraphs⟩ := List.forall_mem_cons.mp h
      rw [List.forM_cons, Noting.bind_of_ok (Noting.note_of_ok (ask_eq_ok hg) log), ih hgraphs,
        List.append_assoc]
      rfl

theorem forM_ask_of_some {before after : List Iri} {g : Iri} {e : Error}
    (h : ∀ x ∈ before, fails x = none) (hg : fails g = some e) (log : List Iri) :
    forM (before ++ g :: after) (Noting.note (ask fails)) log =
      (.error e, log ++ (before ++ [g])) := by
  rw [List.forM_append, Noting.bind_of_ok (forM_ask_of_none h log), List.forM_cons,
    Noting.bind_of_error (Noting.note_of_error (ask_eq_error hg) _), List.append_assoc]

theorem none_or_exists_first (fails : Iri → Option Error) (graphs : List Iri) :
    (∀ g ∈ graphs, fails g = none) ∨ ∃ before g after e, graphs = before ++ g :: after ∧
      (∀ x ∈ before, fails x = none) ∧ fails g = some e := by
  induction graphs with
  | nil => exact .inl fun g hg => absurd hg List.not_mem_nil
  | cons g graphs ih =>
      cases hg : fails g with
      | some e => exact .inr ⟨[], g, graphs, e, rfl, by simp, hg⟩
      | none =>
          rcases ih with h | ⟨before, x, after, e, rfl, h, hx⟩
          · exact .inl (List.forall_mem_cons.mpr ⟨hg, h⟩)
          · exact .inr ⟨g :: before, x, after, e, rfl, List.forall_mem_cons.mpr ⟨hg, h⟩, hx⟩

theorem asksInTurn {α : Type} (fails : Iri → Option Error) (graphs : List Iri) (answer : α) :
    AsksInTurn fails graphs answer
      (Noting.outcome (do forM graphs (Noting.note (ask fails)); pure answer)) := by
  generalize hrun : Noting.outcome (do forM graphs (Noting.note (ask fails)); pure answer) = run
  have hanswers : (∀ g ∈ graphs, fails g = none) → run = (.ok answer, graphs) := by
    intro h
    rw [← hrun, Noting.outcome, Noting.bind_of_ok (forM_ask_of_none h [])]
    rfl
  have hstops : ∀ before g after e, graphs = before ++ g :: after →
      (∀ x ∈ before, fails x = none) → fails g = some e → run = (.error e, before ++ [g]) := by
    rintro before g after e rfl h hg
    rw [← hrun, Noting.outcome, Noting.bind_of_error (forM_ask_of_some h hg []), List.nil_append]
  refine ⟨hanswers, hstops, ?_⟩
  rcases none_or_exists_first fails graphs with h | ⟨before, g, after, e, hgraphs, h, hg⟩
  · rw [hanswers h]
    constructor
    · rintro ⟨e, ⟨⟩⟩
    · rintro ⟨g, hg, hne⟩
      exact absurd (h g hg) hne
  · rw [hstops before g after e hgraphs h hg]
    have hmem : g ∈ graphs := hgraphs ▸ List.mem_append_right before List.mem_cons_self
    exact iff_of_true ⟨e, rfl⟩ ⟨g, hmem, by simp [hg]⟩

theorem among_of_subsingleton {m : Type → Type} [Monad m] {parentOf : Iri → m (Option Iri)}
    {steps : Nat} {vocabulary : Iri} {l : List Iri} (h : ∀ a ∈ l, ∀ b ∈ l, a = b) :
    among parentOf steps vocabulary l = pure (.graph (l.head?.getD vocabulary)) := by
  cases l with
  | nil => rfl
  | cons g l => exact among_of_one List.mem_cons_self fun a ha => h a ha g List.mem_cons_self

variable (parents : IriMap Iri)

theorem note_lookUp : Noting.note (lookUp parents fails) =
    fun g => (do Noting.note (ask fails) g; pure (parents.get? g)) := by
  funext g log
  cases hg : fails g with
  | none =>
      rw [Noting.bind_of_ok (Noting.note_of_ok (ask_eq_ok hg) log), Noting.note, lookUp,
        ask_eq_ok hg]
      rfl
  | some e =>
      rw [Noting.bind_of_error (Noting.note_of_error (ask_eq_error hg) log), Noting.note, lookUp,
        ask_eq_error hg]
      rfl

theorem fst_outcome_among (fails : Iri → Option Error) (steps : Nat) (vocabulary : Iri)
    (l : List Iri) :
    (Noting.outcome (among (Noting.note (lookUp parents fails)) steps vocabulary l)).1 =
      among (lookUp parents fails) steps vocabulary l := by
  by_cases hone : ∀ a ∈ l, ∀ b ∈ l, a = b
  · rw [among_of_subsingleton hone, among_of_subsingleton hone]
    rfl
  · obtain ⟨a, ha, b, hb, hab⟩ : ∃ a ∈ l, ∃ b ∈ l, a ≠ b := by simpa using hone
    rw [note_lookUp]
    exact (congrArg (fun x => (Noting.outcome x).1) (among_ask _ ha hb hab steps vocabulary)).trans
      ((Noting.fst_forM_note _ _ _ []).trans (among_ask _ ha hb hab steps vocabulary).symm)

/-- The choice among several graphs asks, in ascending order of the candidates, for the
parents of each candidate and of the graphs on its chain, up to where the chain ends or
comes to a candidate or back to itself, whatever cycles the parents have. So no graph
is asked twice for one candidate. It fails if one of these graphs does, with the error
of the first, and then asks no more. Any number of steps that exceeds that of the graphs
with a parent is enough. A single candidate is chosen without a question. -/
theorem among_asks (parents : IriMap Iri) (fails : Iri → Option Error) (vocabulary : Iri)
    (l : List Iri) :
    ∃ asked : Iri → List Iri,
      (∀ g path, IsWalk parents.get? (· ∈ l) g path ↔ path = asked g) ∧
      (∀ g, (asked g).length ≤ parents.size + 1) ∧
      ∀ steps, parents.size < steps →
        let run := Noting.outcome (among (Noting.note (lookUp parents fails)) steps vocabulary l)
        run.1 = among (lookUp parents fails) steps vocabulary l ∧
        ((∀ a ∈ l, ∀ b ∈ l, a = b) → run = (.ok (.graph (l.head?.getD vocabulary)), [])) ∧
        ∀ a ∈ l, ∀ b ∈ l, a ≠ b →
          AsksInTurn fails ((Ascending.ofList l : IriSet).toList.flatMap asked)
            (choose parents.get? (parents.size + 1) vocabulary l) run := by
  have hderived : ∀ g p, parents.get? g = some p → g ∈ parents.keys :=
    fun _ _ => IriMap.mem_keys_of_get?
  have hwalk : ∀ steps, parents.size < steps → ∀ g path,
      IsWalk parents.get? (· ∈ l) g path ↔
        path = walk parents.get? (Ascending.ofList l) steps [g] g := by
    intro steps hsteps g path
    exact isWalk_iff_eq_walk hderived (List.nodup_singleton g) (List.nil_subset _)
      (by simpa using hsteps) (by simp)
  let asked := fun g => walk parents.get? (Ascending.ofList l) (parents.size + 1) [g] g
  refine ⟨asked, hwalk _ (Nat.lt_succ_self _), fun g => length_walk_le _ _ g, ?_⟩
  intro steps hsteps run
  refine ⟨fst_outcome_among parents fails steps vocabulary l, ?_, ?_⟩
  · intro hone
    simp only [run, among_of_subsingleton hone]
    rfl
  · intro a ha b hb hab
    have hasked : asked = fun g => walk parents.get? (Ascending.ofList l) steps [g] g := by
      funext g
      exact (hwalk steps hsteps g _).mp ((hwalk _ (Nat.lt_succ_self _) g _).mpr rfl)
    have hchoose : choose parents.get? (parents.size + 1) vocabulary l =
        choose parents.get? steps vocabulary l :=
      choose_eq_of_steps hderived (by simpa using hsteps) (by simp) vocabulary l
    simp only [run, note_lookUp, hasked, hchoose]
    rw [among_ask _ ha hb hab]
    exact asksInTurn fails _ _

end

theorem among_asks_cycle :
    let parents : IriMap Iri :=
      IriMap.ofList [(⟨"a"⟩, ⟨"x"⟩), (⟨"x"⟩, ⟨"y"⟩), (⟨"y"⟩, ⟨"x"⟩), (⟨"b"⟩, ⟨"z"⟩)]
    let fails : Iri → Option Error := fun g =>
      if g = ⟨"z"⟩ then some (.notFound .parent g) else none
    let l : List Iri := [⟨"b"⟩, ⟨"a"⟩]
    parents.size < 5 ∧ ⟨"a"⟩ ∈ l ∧ ⟨"b"⟩ ∈ l ∧
      Noting.outcome (among (Noting.note (lookUp parents fails)) 5 ⟨"v"⟩ l) =
        (.error (.notFound .parent ⟨"z"⟩), [⟨"a"⟩, ⟨"x"⟩, ⟨"y"⟩, ⟨"b"⟩, ⟨"z"⟩]) := by
  intro parents fails l
  have hsize : parents.size < 5 := by decide
  have ha : ⟨"a"⟩ ∈ l := by decide
  have hb : ⟨"b"⟩ ∈ l := by decide
  obtain ⟨asked, hwalk, -, hrun⟩ := among_asks parents fails ⟨"v"⟩ l
  have hwalkA : [⟨"a"⟩, ⟨"x"⟩, ⟨"y"⟩] = asked ⟨"a"⟩ :=
    (hwalk _ _).mp ⟨rfl, by decide, by decide, by decide, by decide⟩
  have hwalkB : [⟨"b"⟩, ⟨"z"⟩] = asked ⟨"b"⟩ :=
    (hwalk _ _).mp ⟨rfl, by decide, by decide, by decide, by decide⟩
  have hgraphs : (Ascending.ofList l : IriSet).toList.flatMap asked =
      [⟨"a"⟩, ⟨"x"⟩, ⟨"y"⟩, ⟨"b"⟩, ⟨"z"⟩] := by
    rw [show (Ascending.ofList l : IriSet).toList = [⟨"a"⟩, ⟨"b"⟩] by decide, List.flatMap_cons,
      List.flatMap_cons, ← hwalkA, ← hwalkB]
    rfl
  refine ⟨hsize, ha, hb, ?_⟩
  exact ((hrun 5 hsize).2.2 _ ha _ hb (by decide)).stops [⟨"a"⟩, ⟨"x"⟩, ⟨"y"⟩, ⟨"b"⟩] ⟨"z"⟩ [] _
    hgraphs (by decide) rfl

end SkosArchive.Choice
