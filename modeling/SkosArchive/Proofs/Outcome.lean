import Mathlib.Control.Monad.Basic
import SkosArchive.Error

namespace SkosArchive

variable {ε α β : Type}

theorem ok_bind (a : α) (f : α → Except ε β) : (Except.ok a >>= f) = f a := rfl

theorem mapError_ok {δ : Type} (a : α) (f : ε → δ) :
    (Except.ok a : Except ε α).mapError f = .ok a := rfl

theorem bind_eq_ok {x : Except ε α} {f : α → Except ε β} {b : β} (h : (x >>= f) = .ok b) :
    ∃ a, x = .ok a ∧ f a = .ok b := by
  cases x with
  | error e => cases h
  | ok a => exact ⟨a, rfl, h⟩

theorem map_eq_ok {x : Except ε α} {f : α → β} {b : β} (h : x.map f = .ok b) :
    ∃ a, x = .ok a ∧ f a = b := by
  cases x with
  | error e => cases h
  | ok a => exact ⟨a, rfl, Except.ok.inj h⟩

theorem bind_eq_error {x : Except ε α} {f : α → Except ε β} {e : ε}
    (h : (x >>= f) = .error e) : x = .error e ∨ ∃ a, x = .ok a ∧ f a = .error e := by
  cases x with
  | error e' => exact .inl (by cases h; rfl)
  | ok a => exact .inr ⟨a, rfl, h⟩

theorem mapError_eq_ok {δ : Type} {x : Except ε α} {f : ε → δ} {a : α}
    (h : x.mapError f = .ok a) : x = .ok a := by
  cases x with
  | error e => cases h
  | ok b => cases h; rfl

/-- What a list of attempts gives if all succeed. -/
theorem mapM_eq_ok {f : α → Except ε β} {l : List α} {k : List β} (h : l.mapM f = .ok k) :
    k = l.filterMap (fun a => (f a).toOption) ∧ ∀ a ∈ l, ∃ b, f a = .ok b := by
  induction l generalizing k with
  | nil =>
      cases h
      exact ⟨rfl, by simp⟩
  | cons a l ih =>
      rw [List.mapM_cons] at h
      obtain ⟨b, hb, h⟩ := bind_eq_ok h
      obtain ⟨k, hk, h⟩ := bind_eq_ok h
      cases h
      obtain ⟨rfl, hall⟩ := ih hk
      refine ⟨?_, List.forall_mem_cons.mpr ⟨⟨b, hb⟩, hall⟩⟩
      rw [List.filterMap_cons, hb]
      rfl

theorem mapM_of_forall {f : α → Except ε β} {l : List α} (h : ∀ a ∈ l, ∃ b, f a = .ok b) :
    l.mapM f = .ok (l.filterMap fun a => (f a).toOption) := by
  induction l with
  | nil => rfl
  | cons a l ih =>
      obtain ⟨⟨b, hb⟩, hl⟩ := List.forall_mem_cons.mp h
      rw [List.mapM_cons, hb, ok_bind, ih hl, List.filterMap_cons, hb]
      rfl

theorem exists_ok_of_isOk {x : Except ε α} (h : x.isOk = true) : ∃ a, x = .ok a := by
  cases x with
  | error e => exact absurd h Bool.false_ne_true
  | ok a => exact ⟨a, rfl⟩

theorem toOption_eq_some {x : Except ε α} {a : α} : x.toOption = some a ↔ x = .ok a := by
  cases x <;> simp [Except.toOption]

/-- Every error that `x` ends with is one of `E`. -/
def FailsWith (E : Error → Prop) (x : Except Error α) : Prop := ∀ e, x = .error e → E e

namespace FailsWith

variable {E F : Error → Prop} {x : Except Error α} {f : α → Except Error β}

theorem ok (a : α) : FailsWith E (.ok a) := fun _ h => nomatch h

theorem error {e : Error} (h : E e) : FailsWith E (.error e : Except Error α) := by
  rintro _ ⟨⟩
  exact h

theorem exists_ok (h : FailsWith (fun _ => False) x) : ∃ a, x = .ok a := by
  cases x with
  | error e => exact (h e rfl).elim
  | ok a => exact ⟨a, rfl⟩

theorem mono (h : FailsWith E x) (hEF : ∀ e, E e → F e) : FailsWith F x :=
  fun e he => hEF e (h e he)

theorem bind (hx : FailsWith E x) (hf : ∀ a, x = .ok a → FailsWith E (f a)) :
    FailsWith E (x >>= f) := by
  intro e he
  rcases bind_eq_error he with he | ⟨a, ha, he⟩
  · exact hx e he
  · exact hf a ha e he

theorem first (h : FailsWith E (x >>= f)) : FailsWith E x := by
  rintro e rfl
  exact h e rfl

theorem second {a : α} (h : FailsWith E (x >>= f)) (hx : x = .ok a) : FailsWith E (f a) := by
  subst hx
  exact h

end FailsWith

/-- What `x` gives, if it gives something, has the property `P`. -/
def Yields (P : α → Prop) (x : Except Error α) : Prop := ∀ a, x = .ok a → P a

namespace Yields

variable {P : α → Prop} {Q : β → Prop} {x : Except Error α} {f : α → Except Error β}

theorem ok {a : α} (h : P a) : Yields P (.ok a) := by
  rintro _ ⟨⟩
  exact h

theorem bind (hx : Yields P x) (hf : ∀ a, P a → Yields Q (f a)) : Yields Q (x >>= f) := by
  intro b hb
  obtain ⟨a, ha, hb⟩ := bind_eq_ok hb
  exact hf a (hx a ha) b hb

end Yields

/-- The error that ends an operation in which a call to the storage failed. -/
def Error.IsStorage (e : Error) : Prop := ∃ cause, e = .persistence cause

theorem persistence_failsWith (x : Except StorageError α) :
    FailsWith Error.IsStorage (x.mapError Error.persistence) := by
  cases x with
  | error cause => exact FailsWith.error ⟨cause, rfl⟩
  | ok a => exact FailsWith.ok a

/-- No call to the storage failed on the way to `x`: a failing call ends an
operation with an error of the storage. -/
def Uninterrupted (x : Except Error α) : Prop := FailsWith (fun e => ¬ e.IsStorage) x

namespace Uninterrupted

variable {x : Except Error α} {f : α → Except Error β}

theorem first (h : Uninterrupted (x >>= f)) : Uninterrupted x := FailsWith.first h

theorem second {a : α} (h : Uninterrupted (x >>= f)) (hx : x = .ok a) :
    Uninterrupted (f a) := FailsWith.second h hx

theorem exists_ok (h : Uninterrupted x) (hx : FailsWith Error.IsStorage x) :
    ∃ a, x = .ok a := by
  cases x with
  | error e => exact absurd (hx e rfl) (h e rfl)
  | ok a => exact ⟨a, rfl⟩

end Uninterrupted

/-- The two outcomes are the same unless one of them is an error of `E`. -/
def AgreesUnless (E : Error → Prop) (x y : Except Error α) : Prop :=
  FailsWith (fun e => ¬ E e) x → FailsWith (fun e => ¬ E e) y → x = y

/-- The two outcomes are the same unless a call to the storage failed on the
way to one of them. -/
abbrev Agrees (x y : Except Error α) : Prop := AgreesUnless Error.IsStorage x y

namespace AgreesUnless

variable {E : Error → Prop} {x y : Except Error α}

theorem refl (x : Except Error α) : AgreesUnless E x x := fun _ _ => rfl

theorem of_eq (h : x = y) : AgreesUnless E x y := fun _ _ => h

theorem bind {f g : α → Except Error β} (h : AgreesUnless E x y)
    (hfg : ∀ a, y = .ok a → AgreesUnless E (f a) (g a)) : AgreesUnless E (x >>= f) (y >>= g) := by
  intro hx hy
  have hxy : x = y := h hx.first hy.first
  subst hxy
  cases x with
  | error e => rfl
  | ok a => exact hfg a rfl (hx.second rfl) (hy.second rfl)

theorem eq_ok {a : α} (h : AgreesUnless E x y) (hx : FailsWith (fun e => ¬ E e) x)
    (hy : y = .ok a) : x = .ok a := by
  subst hy
  exact h hx (FailsWith.ok a)

theorem eq (h : AgreesUnless (fun _ => False) x y) : x = y :=
  h (fun _ _ => not_false) fun _ _ => not_false

end AgreesUnless

end SkosArchive
