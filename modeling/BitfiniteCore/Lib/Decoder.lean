import Mathlib.Data.List.Basic

/-! # Decoders -/

namespace BitfiniteCore

inductive Decoder (α β : Type) where
  | done (value : β)
  | fail (what : String)
  | read (n : Nat) (next : List α → Decoder α β)

namespace Decoder

variable {α β : Type}

/-- Runs on a list.  A read of more than `most` symbols fails. -/
def run (most : Nat) : Decoder α β → List α → Option (β × List α)
  | .done value, s => some (value,s)
  | .fail _, _ => none
  | .read n next, s => if n ≤ most ∧ n ≤ s.length then (next (s.take n)).run most (s.drop n) else none

theorem run_append {most most' : Nat} {d : Decoder α β} {s rest : List α} {value : β}
    (h : d.run most s = some (value,rest)) (hmost : s.length ≤ most') (more : List α) :
    d.run most' (s++more) = some (value,rest++more) := by
  induction d generalizing s with
  | done v =>
    cases h
    rfl
  | fail what => cases h
  | read n next ih =>
    rw [run] at h ⊢
    split at h
    · rename_i hn
      rw [if_pos ⟨by omega,by rw [List.length_append]; omega⟩,List.take_append_of_le_length hn.2,
        List.drop_append_of_le_length hn.2]
      exact ih _ h (by rw [List.length_drop]; omega)
    · cases h
end Decoder
end BitfiniteCore
