import Mathlib.Data.List.Basic
import Mathlib.Data.Nat.ModEq

/-! # A window on a sequence -/

namespace BitfiniteCore
open List

namespace RingWindow

variable {α : Type} {ring data : List α} {n : Nat}

/-- The ring holds the elements of `data` below `n`, as many of them as it has cells. -/
structure Holds (ring data : List α) (n : Nat) : Prop where
  le : n ≤ data.length
  cell : ∀ i < n, n ≤ i+ring.length → ring[i%ring.length]? = data[i]?

def write (ring : List α) (pos : Nat) (chunk : List α) : List α := ring.take pos++chunk++ring.drop (pos+chunk.length)

theorem write_length {pos : Nat} {chunk : List α} (h : pos+chunk.length ≤ ring.length) :
    (write ring pos chunk).length = ring.length := by
  simp only [write,length_append,length_take,length_drop]
  omega

private theorem write_inside {pos j : Nat} {chunk : List α} (h : pos+chunk.length ≤ ring.length) (hj : j < chunk.length) :
    (write ring pos chunk)[pos+j]? = chunk[j]? := by
  have hpos : (ring.take pos).length = pos := by
    rw [length_take]
    omega
  rw [write,append_assoc,getElem?_append_right (by omega),hpos,Nat.add_sub_cancel_left,
    getElem?_append_left hj]

private theorem write_outside {pos i : Nat} {chunk : List α} (h : pos+chunk.length ≤ ring.length)
    (hi : i < pos ∨ pos+chunk.length ≤ i) : (write ring pos chunk)[i]? = ring[i]? := by
  have hpos : (ring.take pos).length = pos := by
    rw [length_take]
    omega
  rcases hi with hi | hi
  · rw [write,append_assoc,getElem?_append_left (by omega),getElem?_take_of_lt hi]
  · rw [write,getElem?_append_right (by rw [length_append]; omega),length_append,hpos,getElem?_drop,
      Nat.add_sub_cancel' hi]

theorem Holds.write (h : Holds ring data n) {k : Nat} (hfit : n%ring.length+k ≤ ring.length) (hk : n+k ≤ data.length) :
    Holds (RingWindow.write ring (n%ring.length) ((data.drop n).take k)) data (n+k) := by
  have hchunk : ((data.drop n).take k).length = k := by
    rw [length_take,length_drop]
    omega
  have hfit' : n%ring.length+((data.drop n).take k).length ≤ ring.length := by omega
  refine ⟨hk,fun i hi hwindow => ?_⟩
  rw [write_length hfit'] at hwindow ⊢
  by_cases hnew : n ≤ i
  · have hmod : i%ring.length = n%ring.length+(i-n) := by
      rw [← Nat.mod_eq_of_lt (show n%ring.length+(i-n) < ring.length by omega),Nat.mod_add_mod]
      congr 1
      omega
    rw [hmod,write_inside hfit' (by omega),getElem?_take_of_lt (by omega),getElem?_drop]
    congr 1
    omega
  · rw [write_outside hfit',h.cell i (by omega) (by omega)]
    by_contra hin
    rw [not_or,not_lt,not_le,hchunk] at hin
    -- an older element in one of the cells would be a whole turn or more behind
    have hmod : n+(i%ring.length-n%ring.length) ≡ i [MOD ring.length] := by
      have h1 : n+(i%ring.length-n%ring.length) ≡ n%ring.length+(i%ring.length-n%ring.length) [MOD ring.length] :=
        Nat.ModEq.add_right _ (Nat.mod_modEq n ring.length).symm
      rw [Nat.add_sub_cancel' hin.1] at h1
      exact h1.trans (Nat.mod_modEq i ring.length)
    have hdvd := (Nat.modEq_iff_dvd' (show i ≤ n+(i%ring.length-n%ring.length) by omega)).mp hmod.symm
    have hle := Nat.le_of_dvd (by omega) hdvd
    omega

theorem Holds.slice (h : Holds ring data n) {start k : Nat} (hk : start+k ≤ n) (hwindow : n ≤ start+ring.length)
    (hfit : start%ring.length+k ≤ ring.length) :
    (ring.drop (start%ring.length)).take k = (data.drop start).take k := by
  apply ext_getElem?
  intro j
  by_cases hj : j < k
  · rw [getElem?_take_of_lt hj,getElem?_take_of_lt hj,getElem?_drop,getElem?_drop,
      ← h.cell (start+j) (by omega) (by omega)]
    congr 1
    rw [← Nat.mod_eq_of_lt (show start%ring.length+j < ring.length by omega),Nat.mod_add_mod]
  · simp [hj]
end RingWindow
end BitfiniteCore
