import Mathlib.Logic.Function.Basic
import Mathlib.Order.CompletePartialOrder
import Mathlib.Order.Interval.Set.Disjoint

/-! # Extents in numbered files -/

open Function

structure Extent where
  nFile : Nat
  first : Nat
  next : Nat

namespace Extent

def range (x : Extent) : Set Nat := Set.Ico x.first x.next

def Clear (x y : Extent) : Prop := x.nFile = y.nFile → Disjoint x.range y.range

theorem Clear.symm {x y : Extent} (h : x.Clear y) : y.Clear x := fun hfile => (h hfile.symm).symm

theorem clear_of_le {x y : Extent} (h : x.nFile = y.nFile → y.next ≤ x.first) : x.Clear y := by
  intro hfile
  rw [range,range,Set.Ico_disjoint_Ico]
  exact le_trans (min_le_right _ _) (le_trans (h hfile) (le_max_left _ _))

variable {κ : Type*} {place place' : κ → Option Extent} {size size' : Nat → Nat} {k : κ} {x : Extent}

structure Packed (place : κ → Option Extent) (size : Nat → Nat) : Prop where
  within : ∀ {k x}, place k = some x → x.next ≤ size x.nFile
  clear : ∀ {k k' x y}, k ≠ k' → place k = some x → place k' = some y → x.Clear y

theorem Packed.empty (h : ∀ k, place k = none) : Packed place size := by
  constructor
  · intro k x hx
    rw [h k] at hx
    cases hx
  · intro k _ x _ _ hx
    rw [h k] at hx
    cases hx

theorem Packed.mono (h : Packed place size) (hplace : ∀ {k x}, place' k = some x → place k = some x)
    (hsize : ∀ {k x}, place' k = some x → size x.nFile ≤ size' x.nFile) : Packed place' size' where
  within hx := le_trans (h.within (hplace hx)) (hsize hx)
  clear hne hx hy := h.clear hne (hplace hx) (hplace hy)

theorem Packed.clear_end (h : Packed place size) (hfirst : size x.nFile ≤ x.first) {y : Extent}
    (hy : place k = some y) : x.Clear y := by
  apply clear_of_le
  intro hfile
  apply le_trans (h.within hy)
  rw [← hfile]
  exact hfirst

theorem Packed.insert [DecidableEq κ] (h : Packed place size) (hsize : ∀ n, size n ≤ size' n)
    (hnext : x.next ≤ size' x.nFile) (hclear : ∀ {k y}, place k = some y → x.Clear y) :
    Packed (update place k (some x)) size' := by
  have hcases : ∀ {k' y}, update place k (some x) k' = some y → (k' = k ∧ y = x) ∨ place k' = some y := by
    intro k' y hy
    by_cases hk : k' = k
    · subst hk
      rw [update_self] at hy
      exact .inl ⟨rfl,(Option.some.inj hy).symm⟩
    · rw [update_of_ne hk] at hy
      exact .inr hy
  constructor
  · intro k' y hy
    rcases hcases hy with ⟨_,rfl⟩ | hold
    · exact hnext
    · exact le_trans (h.within hold) (hsize _)
  · intro k₁ k₂ y z hne hy hz
    rcases hcases hy with ⟨rfl,rfl⟩ | hyold
    · rcases hcases hz with ⟨rfl,_⟩ | hzold
      · exact absurd rfl hne
      · exact hclear hzold
    · rcases hcases hz with ⟨rfl,rfl⟩ | hzold
      · exact (hclear hyold).symm
      · exact h.clear hne hyold hzold
end Extent
