import Mathlib.Data.List.Sort
import Mathlib.Data.List.Count
import Mathlib.Data.List.GetD

/-! # Medians of lists -/

namespace Median
open List

def median (l : List Nat) : Nat := (l.insertionSort (· ≤ ·)).getD (l.length/2) 0

private theorem countP_of_sorted {l : List Nat} (hl : l.Pairwise (· ≤ ·)) {k m : Nat} (hk : k < l.length) :
    m ≤ l.getD k 0 ↔ l.length-k ≤ l.countP (m ≤ ·) := by
  rw [getD_eq_getElem l 0 hk]
  constructor
  · intro hm
    have hall : (l.drop k).countP (m ≤ ·) = (l.drop k).length := by
      rw [countP_eq_length]
      intro x hx
      obtain ⟨i,hi,rfl⟩ := getElem_of_mem hx
      rw [getElem_drop,decide_eq_true_eq]
      rcases Nat.eq_zero_or_pos i with rfl | hpos
      · exact hm
      · exact le_trans hm (pairwise_iff_getElem.mp hl k (k+i) hk _ (by omega))
    have hle : (l.drop k).countP (m ≤ ·) ≤ l.countP (m ≤ ·) := (drop_sublist k l).countP_le
    rw [hall,length_drop] at hle
    exact hle
  · intro hcount
    by_contra hlt
    have hnone : (l.take (k+1)).countP (m ≤ ·) = 0 := by
      rw [countP_eq_zero]
      intro x hx
      obtain ⟨i,hi,rfl⟩ := getElem_of_mem hx
      rw [length_take] at hi
      rw [getElem_take,decide_eq_true_eq]
      rcases Nat.lt_or_ge i k with hik | hik
      · have := pairwise_iff_getElem.mp hl i k (by omega) hk hik
        omega
      · have hik' : i = k := by omega
        subst hik'
        exact hlt
    have hsplit : l.countP (m ≤ ·) = (l.take (k+1)).countP (m ≤ ·)+(l.drop (k+1)).countP (m ≤ ·) := by
      rw [← countP_append,take_append_drop]
    have hle : (l.drop (k+1)).countP (m ≤ ·) ≤ (l.drop (k+1)).length := countP_le_length
    rw [length_drop] at hle
    omega

theorem le_median_iff {l : List Nat} (hl : l ≠ []) {m : Nat} :
    m ≤ median l ↔ l.length-l.length/2 ≤ l.countP (m ≤ ·) := by
  have hpos := length_pos_iff.mpr hl
  have hlen : l.length/2 < (l.insertionSort (· ≤ ·)).length := by
    rw [length_insertionSort]
    omega
  rw [median,countP_of_sorted (pairwise_insertionSort (· ≤ ·) l) hlen,length_insertionSort,
    (perm_insertionSort (· ≤ ·) l).countP_eq]

/-- A window of at most `2*n+1` elements that takes in one above its median does not fall. -/
theorem median_le_window {l : List Nat} {y n : Nat} (hl : l ≠ []) (hlen : l.length ≤ 2*n+1) (hy : median l < y) :
    median l ≤ median (y::l.take (2*n)) := by
  have hm := (le_median_iff hl).mp (le_refl (median l))
  rw [le_median_iff (cons_ne_nil _ _),countP_cons_of_pos (by simpa using hy.le)]
  have hsplit : l.countP (median l ≤ ·) =
      (l.take (2*n)).countP (median l ≤ ·)+(l.drop (2*n)).countP (median l ≤ ·) := by
    rw [← countP_append,take_append_drop]
  have hdrop : (l.drop (2*n)).countP (median l ≤ ·) ≤ (l.drop (2*n)).length := countP_le_length
  rw [length_drop] at hdrop
  rw [length_cons,length_take]
  omega
end Median
