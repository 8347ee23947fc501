import Mathlib.Logic.Basic

/-! # Computations that accept more -/

def Weakens {ε α : Type} (x y : Except ε α) : Prop := ∀ a, x = .ok a → y = .ok a

namespace Weakens

variable {ε α β : Type} {x y : Except ε α}

theorem refl (x : Except ε α) : Weakens x x := fun _ h => h

theorem of_eq (h : x = y) : Weakens x y := h ▸ refl x

theorem error (e : ε) : Weakens (.error e) y := fun _ h => nomatch h

theorem bind (h : Weakens x y) {f g : α → Except ε β} (hf : ∀ a, Weakens (f a) (g a)) :
    Weakens (x.bind f) (y.bind g) := by
  intro b hb
  cases x with
  | error e => cases hb
  | ok a =>
    rw [h a rfl]
    exact hf a b hb

theorem same {f g : α → Except ε β} (hf : ∀ a, Weakens (f a) (g a)) : Weakens (x.bind f) (x.bind g) := bind (refl x) hf

theorem map (h : Weakens x y) (f : α → β) : Weakens (x.map f) (y.map f) := by
  intro b hb
  cases x with
  | error e => cases hb
  | ok a =>
    rw [h a rfl]
    exact hb

theorem bind_ok {b : β} {f : α → Except ε β} (hf : ∀ a, Weakens (f a) (.ok b)) : Weakens (x.bind f) (.ok b) := by
  intro c hc
  cases x with
  | error e => cases hc
  | ok a => exact hf a c hc

theorem map_ok (x : Except ε α) (b : β) : Weakens (x.map fun _ => b) (.ok b) := by
  intro c hc
  cases x with
  | error e => cases hc
  | ok a => exact hc

theorem ite {c : Prop} [Decidable c] {x' y' : Except ε α} (h : Weakens x y) (h' : Weakens x' y') :
    Weakens (if c then x else x') (if c then y else y') := by
  split
  · exact h
  · exact h'

theorem guard {c d : Prop} [Decidable c] [Decidable d] {e : ε} {e' : ε} (hcd : d → c) (h : Weakens x y) :
    Weakens (if c then .error e else x) (if d then .error e' else y) := by
  by_cases hc : c
  · rw [if_pos hc]
    exact error e
  · rw [if_neg hc,if_neg fun hd => hc (hcd hd)]
    exact h
end Weakens
