import Mathlib.Algebra.BigOperators.Finprod

/-! # The total weight of a finite map -/

namespace WeightedMap
open Function

variable {α β M : Type*} [AddCommGroup M] {m : α → Option β}

def held (m : α → Option β) : Set α := {x | (m x).isSome = true}

noncomputable def weight (w : β → M) (m : α → Option β) : M := ∑ᶠ x, (m x).elim 0 w

theorem held_empty : held (fun _ : α => (none : Option β)) = ∅ := by
  simp [held]

theorem weight_empty (w : β → M) : weight w (fun _ : α => none) = 0 := by
  simp [weight]

theorem weight_support (w : β → M) (m : α → Option β) : support (fun x => (m x).elim 0 w) ⊆ held m := by
  intro x hx
  cases hm : m x with
  | none => simp [hm] at hx
  | some b => simp [held,hm]

variable [DecidableEq α]

theorem held_update (hfin : (held m).Finite) (x : α) (o : Option β) : (held (update m x o)).Finite := by
  apply (hfin.insert x).subset
  intro y hy
  by_cases hyx : y = x
  · exact .inl hyx
  · right
    simpa [held,hyx] using hy

theorem weight_update (w : β → M) (hfin : (held m).Finite) (x : α) (o : Option β) :
    weight w (update m x o) = weight w m-(m x).elim 0 w+o.elim 0 w := by
  have hsub : ∀ m' : α → Option β, (∀ y, y ≠ x → m' y = m y) →
      weight w m' = ∑ y ∈ hfin.toFinset.erase x, (m y).elim 0 w+(m' x).elim 0 w := by
    intro m' hm'
    have hs : support (fun y => (m' y).elim 0 w) ⊆ ↑(insert x (hfin.toFinset.erase x)) := by
      intro y hy
      by_cases hyx : y = x
      · simp [hyx]
      · have hmem := weight_support w m' hy
        simpa [held,hyx,hm' y hyx] using hmem
    rw [weight,finsum_eq_sum_of_support_subset _ hs,Finset.sum_insert (Finset.notMem_erase x _),add_comm]
    congr 1
    exact Finset.sum_congr rfl fun y hy => by rw [hm' y (Finset.ne_of_mem_erase hy)]
  rw [hsub _ fun y hy => update_of_ne hy _ _,hsub m fun _ _ => rfl,update_self,add_sub_cancel_right]
end WeightedMap
