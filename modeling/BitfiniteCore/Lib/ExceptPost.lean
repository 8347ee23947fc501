import Mathlib.Logic.Basic

/-! # Postconditions of computations that can fail -/

def ExceptPost {ε α : Type} (E : ε → Prop) (P : α → Prop) (x : Except ε α) : Prop :=
  match x with
  | .ok a => P a
  | .error e => E e

namespace ExceptPost

variable {ε α β : Type} {E : ε → Prop} {P : α → Prop} {Q : β → Prop} {x : Except ε α}

theorem ok {a : α} (h : P a) : @ExceptPost ε α E P (.ok a) := h

theorem bind (h : ExceptPost E P x) {f : α → Except ε β} (hf : ∀ a, P a → ExceptPost E Q (f a)) :
    ExceptPost E Q (x.bind f) := by
  cases x with
  | error e => exact h
  | ok a => exact hf a h

theorem map (h : ExceptPost E P x) {f : α → β} (hf : ∀ a, P a → Q (f a)) : ExceptPost E Q (x.map f) := by
  cases x with
  | error e => exact h
  | ok a => exact hf a h

theorem ite {c : Prop} [Decidable c] {y : Except ε α} (hx : c → ExceptPost E P x) (hy : ¬c → ExceptPost E P y) :
    ExceptPost E P (if c then x else y) := by
  split
  · rename_i hc
    exact hx hc
  · rename_i hc
    exact hy hc

theorem mono {P' : α → Prop} (h : ExceptPost E P x) (hP : ∀ a, P a → P' a) : ExceptPost E P' x := by
  cases x with
  | error e => exact h
  | ok a => exact hP a h

theorem result (h : ExceptPost E P x) {a : α} (hx : x = .ok a) : P a := by
  rw [hx] at h
  exact h

theorem failure (h : ExceptPost E P x) {e : ε} (hx : x = .error e) : E e := by
  rw [hx] at h
  exact h

theorem any (x : Except ε α) : ExceptPost (fun _ => True) (fun _ => True) x := by
  cases x <;> trivial

theorem self (x : Except ε α) : ExceptPost (fun _ => True) (fun a => x = .ok a) x := by
  cases x with
  | error e => trivial
  | ok a => exact rfl
end ExceptPost
