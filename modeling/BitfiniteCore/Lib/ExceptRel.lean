import Mathlib.Logic.Basic

/-! # Simulation of fallible computations -/

def ExceptRel {ε α β : Type} (R : α → β → Prop) : Except ε α → Except ε β → Prop
  | .ok a, .ok b => R a b
  | .error e, .error e' => e = e'
  | _, _ => False

namespace ExceptRel

variable {ε α β γ δ : Type} {R : α → β → Prop} {S : γ → δ → Prop} {x : Except ε α} {y : Except ε β}

@[simp] theorem ok_ok (a : α) (b : β) : @ExceptRel ε _ _ R (.ok a) (.ok b) ↔ R a b := Iff.rfl

theorem bind (h : ExceptRel R x y) {f : α → Except ε γ} {g : β → Except ε δ}
    (hfg : ∀ a b, R a b → ExceptRel S (f a) (g b)) : ExceptRel S (x.bind f) (y.bind g) := by
  cases x with
  | error e =>
    cases y with
    | error e' => exact h
    | ok b => exact h.elim
  | ok a =>
    cases y with
    | error e' => exact h.elim
    | ok b => exact hfg a b h

theorem map (h : ExceptRel R x y) {f : α → γ} {g : β → δ} (hfg : ∀ a b, R a b → S (f a) (g b)) :
    ExceptRel S (x.map f) (y.map g) := by
  cases x with
  | error e =>
    cases y with
    | error e' => exact h
    | ok b => exact h.elim
  | ok a =>
    cases y with
    | error e' => exact h.elim
    | ok b => exact hfg a b h

theorem ok_left (h : ExceptRel R x y) {a : α} (hx : x = .ok a) : ∃ b, y = .ok b ∧ R a b := by
  subst hx
  cases y with
  | error e => exact h.elim
  | ok b => exact ⟨b,rfl,h⟩

theorem ok_right (h : ExceptRel R x y) {b : β} (hy : y = .ok b) : ∃ a, x = .ok a ∧ R a b := by
  subst hy
  cases x with
  | error e => exact h.elim
  | ok a => exact ⟨a,rfl,h⟩

theorem error_iff (h : ExceptRel R x y) (e : ε) : x = .error e ↔ y = .error e := by
  cases x with
  | error e' =>
    cases y with
    | error e'' =>
      cases h
      simp
    | ok b => exact h.elim
  | ok a =>
    cases y with
    | error e'' => exact h.elim
    | ok b => simp
end ExceptRel
