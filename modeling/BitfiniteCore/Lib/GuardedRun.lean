import Mathlib.Logic.Basic

/-! # Runs of a machine -/

namespace GuardedRun

variable {σ ε : Type*}

inductive Reaches (step : σ → ε → σ → Prop) (guard : σ → ε → Prop) (start : σ) : σ → Prop
  | refl : Reaches step guard start start
  | tail {s s' : σ} {e : ε} (run : Reaches step guard start s) (hguard : guard s e) (hstep : step s e s') :
      Reaches step guard start s'

variable {step : σ → ε → σ → Prop} {guard guard' : σ → ε → Prop} {start s s' : σ}

theorem Reaches.invariant {P : σ → Prop} (run : Reaches step guard start s) (h0 : P start)
    (hstep : ∀ {s e s'}, P s → guard s e → step s e s' → P s') : P s := by
  induction run with
  | refl => exact h0
  | tail _ hguard hs ih => exact hstep ih hguard hs

theorem Reaches.mono (run : Reaches step guard start s) (h : ∀ {s e}, guard s e → guard' s e) :
    Reaches step guard' start s := by
  induction run with
  | refl => exact .refl
  | tail _ hguard hs ih => exact ih.tail (h hguard) hs

theorem Reaches.trans (run : Reaches step guard start s) (run' : Reaches step guard s s') :
    Reaches step guard start s' := by
  induction run' with
  | refl => exact run
  | tail _ hguard hs ih => exact ih.tail hguard hs
end GuardedRun
