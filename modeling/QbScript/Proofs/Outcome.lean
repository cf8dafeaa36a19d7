import Mathlib

/-!
# Outcomes

When a computation that may fail succeeds, in terms of its parts, and when two of them give the same.
-/

set_option autoImplicit false

namespace QbScript

universe u v

section
variable {ε : Type u} {α β : Type v}

@[simp] theorem ok_bind (a : α) (f : α → Except ε β) : (Except.ok a >>= f) = f a := rfl

@[simp] theorem error_bind (e : ε) (f : α → Except ε β) :
    ((Except.error e : Except ε α) >>= f) = .error e := rfl

@[simp] theorem bind_ok (x : Except ε α) : (x >>= fun a => Except.ok a) = x := by
  cases x <;> rfl

@[simp] theorem pure_eq_ok (a : α) : (pure a : Except ε α) = .ok a := rfl

@[simp] theorem map_ok (f : α → β) (a : α) : Except.map f (Except.ok a : Except ε α) = .ok (f a) :=
  rfl

instance decidableEqOutcome [DecidableEq ε] [DecidableEq α] : DecidableEq (Except ε α)
  | .ok a, .ok b => decidable_of_iff (a = b) (by simp)
  | .error d, .error e => decidable_of_iff (d = e) (by simp)
  | .ok _, .error _ | .error _, .ok _ => isFalse nofun

theorem bind_eq_ok_iff {x : Except ε α} {f : α → Except ε β} {b : β} :
    (x >>= f) = .ok b ↔ ∃ a, x = .ok a ∧ f a = .ok b := by
  cases x with
  | error e => simp
  | ok a => simp

theorem map_eq_ok_iff {x : Except ε α} {f : α → β} {b : β} :
    x.map f = .ok b ↔ ∃ a, x = .ok a ∧ f a = b := by
  cases x with
  | error e => simp [Except.map]
  | ok a => simp [Except.map]

theorem mapM_eq_ok_of_forall₂ {f : α → Except ε β} {as : List α} {bs : List β}
    (h : List.Forall₂ (fun a b => f a = .ok b) as bs) : as.mapM f = .ok bs := by
  induction h with
  | nil => rfl
  | cons hab _ ih => simp [List.mapM_cons, hab, ih]

theorem forall₂_of_mapM_eq_ok {f : α → Except ε β} {as : List α} {bs : List β}
    (h : as.mapM f = .ok bs) : List.Forall₂ (fun a b => f a = .ok b) as bs := by
  induction as generalizing bs with
  | nil =>
    obtain rfl : [] = bs := by simpa using h
    exact .nil
  | cons a as ih =>
    rw [List.mapM_cons] at h
    obtain ⟨b, hb, h⟩ := bind_eq_ok_iff.mp h
    obtain ⟨bs', hbs, h⟩ := bind_eq_ok_iff.mp h
    obtain rfl := Except.ok.inj h
    exact .cons hb (ih hbs)

theorem mapError_bind {δ : Type u} (f : ε → δ) (x : Except ε α) (g : α → Except ε β) :
    (x >>= g).mapError f = x.mapError f >>= fun a => (g a).mapError f := by
  cases x <;> rfl

theorem mapError_mapM {δ : Type u} (f : ε → δ) (g : α → Except ε β) (as : List α) :
    (as.mapM g).mapError f = as.mapM fun a => (g a).mapError f := by
  induction as with
  | nil => rfl
  | cons a as ih => simp only [List.mapM_cons, mapError_bind, ih]; rfl

theorem mapM_congr {f g : α → Except ε β} {as : List α} (h : ∀ a ∈ as, f a = g a) :
    as.mapM f = as.mapM g := by
  induction as with
  | nil => rfl
  | cons a as ih =>
    rw [List.mapM_cons, List.mapM_cons, h a List.mem_cons_self,
      ih fun c hc => h c (List.mem_cons_of_mem a hc)]

theorem bind_congr_ok {x : Except ε α} {f g : α → Except ε β} (h : ∀ a, x = .ok a → f a = g a) :
    (x >>= f) = (x >>= g) := by
  cases x with
  | error e => rfl
  | ok a => exact h a rfl

theorem exists_error_iff {x : Except ε α} : (∃ e, x = .error e) ↔ ¬ ∃ a, x = .ok a := by
  cases x with
  | error e => simp
  | ok a => simp

def error? : Except ε α → Option ε
  | .ok _ => none
  | .error e => some e

/-- Of several computations the first error stands. -/
theorem error?_mapM (f : α → Except ε β) (as : List α) :
    error? (as.mapM f) = as.findSome? fun a => error? (f a) := by
  induction as with
  | nil => rfl
  | cons a as ih =>
    rw [List.mapM_cons, List.findSome?_cons, ← ih]
    cases f a with
    | error e => rfl
    | ok b => cases as.mapM f <;> rfl

/-- The result of `x`, if there is one, is that of `y`. -/
def Keeps (x y : Except ε α) : Prop := ∀ a, x = .ok a → y = .ok a

namespace Keeps
variable {x y : Except ε α}

theorem refl (x : Except ε α) : Keeps x x := fun _ h => h

theorem bind {f g : α → Except ε β} (hx : Keeps x y) (hf : ∀ a, Keeps (f a) (g a)) :
    Keeps (x >>= f) (y >>= g) := by
  intro b h
  obtain ⟨a, ha, hb⟩ := bind_eq_ok_iff.mp h
  exact bind_eq_ok_iff.mpr ⟨a, hx a ha, hf a b hb⟩

theorem map {f : α → β} (hx : Keeps x y) : Keeps (x.map f) (y.map f) := by
  intro b h
  obtain ⟨a, ha, hb⟩ := map_eq_ok_iff.mp h
  exact map_eq_ok_iff.mpr ⟨a, hx a ha, hb⟩

theorem mapM {f g : α → Except ε β} (h : ∀ a, Keeps (f a) (g a)) (as : List α) :
    Keeps (as.mapM f) (as.mapM g) := by
  intro bs hbs
  apply mapM_eq_ok_of_forall₂
  exact (forall₂_of_mapM_eq_ok hbs).imp fun a b hab => h a b hab

end Keeps

def FailsWith (E : ε → Prop) (x : Except ε α) : Prop := ∀ e, x = .error e → E e

namespace FailsWith

variable {E E' : ε → Prop} {x : Except ε α}

theorem ok (a : α) : FailsWith E (.ok a) := nofun

theorem error {e : ε} (h : E e) : FailsWith E (.error e : Except ε α) := by
  intro e' he
  obtain rfl := Except.error.inj he
  exact h

theorem bind {f : α → Except ε β} (hx : FailsWith E x) (hf : ∀ a, FailsWith E (f a)) :
    FailsWith E (x >>= f) := by
  cases x with
  | ok a => exact hf a
  | error e => exact error (hx e rfl)

theorem imp (h : FailsWith E x) (hE : ∀ e, E e → E' e) : FailsWith E' x := fun e he => hE e (h e he)

theorem foldlM {f : β → α → Except ε β} (hf : ∀ b a, FailsWith E (f b a)) (as : List α) (b : β) :
    FailsWith E (as.foldlM f b) := by
  induction as generalizing b with
  | nil => exact ok b
  | cons a as ih =>
    rw [List.foldlM_cons]
    exact (hf b a).bind ih

end FailsWith

end

end QbScript
