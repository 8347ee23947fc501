import Mathlib.Data.Nat.Bitwise
import Mathlib.Data.List.GetD
import Mathlib.Tactic.Ring

/-! # Linear shift registers -/

namespace BitfiniteCore
open List Nat

structure ShiftRegister (n w cells : Nat) where
  step : BitVec n → BitVec n → BitVec n
  fits : w*cells ≤ n
  xor : ∀ c c' d d', step (c^^^c') (d^^^d') = step c d^^^step c' d'
  /-- While the highest cell is empty nothing is folded back. -/
  move : ∀ c d, c.toNat < 2^(w*(cells-1)) → step c d = c <<< w^^^d
  lt : ∀ c d, c.toNat < 2^(w*cells) → d.toNat < 2^w → (step c d).toNat < 2^(w*cells)
  clear : ∀ c, c.toNat < 2^(w*cells) → step c 0 = 0 → c = 0

namespace ShiftRegister

variable {n w cells : Nat} (r : ShiftRegister n w cells)

def run (c : BitVec n) (v : List (BitVec n)) : BitVec n := v.foldl r.step c

@[simp] theorem run_nil (c : BitVec n) : r.run c [] = c := rfl
@[simp] theorem run_cons (c d : BitVec n) (v : List (BitVec n)) : r.run c (d::v) = r.run (r.step c d) v := rfl

theorem run_append (c : BitVec n) (v v' : List (BitVec n)) : r.run c (v++v') = r.run (r.run c v) v' := by
  simp [run]

theorem run_xor (v v' : List (BitVec n)) (hlen : v.length = v'.length) (c c' : BitVec n) :
    r.run (c^^^c') (zipWith (·^^^·) v v') = r.run c v^^^r.run c' v' := by
  induction v generalizing v' c c' with
  | nil =>
    cases v' with
    | nil => rfl
    | cons d' v' => simp at hlen
  | cons d v ih =>
    cases v' with
    | nil => simp at hlen
    | cons d' v' =>
      simp only [zipWith_cons_cons,run_cons,r.xor]
      exact ih v' (by simpa using hlen) _ _

theorem run_lt (v : List (BitVec n)) (hv : ∀ d ∈ v, d.toNat < 2^w) (c : BitVec n) (hc : c.toNat < 2^(w*cells)) :
    (r.run c v).toNat < 2^(w*cells) := by
  induction v generalizing c with
  | nil => exact hc
  | cons d v ih => exact ih (fun e he => hv e (by simp [he])) _ (r.lt c d hc (hv d (by simp)))

theorem run_zeros_ne_zero (v : List (BitVec n)) (hv : ∀ d ∈ v, d = 0) (c : BitVec n)
    (hc : c.toNat < 2^(w*cells)) (hne : c ≠ 0) : r.run c v ≠ 0 := by
  induction v generalizing c with
  | nil => exact hne
  | cons d v ih =>
    have hd : d = 0 := hv d (by simp)
    subst hd
    apply ih (fun e he => hv e (by simp [he]))
    · exact r.lt c 0 hc (by simp)
    · intro hzero
      exact hne (r.clear c hc hzero)

private theorem move_toNat (c d : BitVec n) (hc : c.toNat*2^w+d.toNat < 2^n) (hd : d.toNat < 2^w) :
    (c <<< w^^^d).toNat = c.toNat*2^w+d.toNat := by
  have hshift : (c.toNat <<< w)%2^n = c.toNat*2^w := by
    rw [shiftLeft_eq,mod_eq_of_lt (by omega)]
  rw [BitVec.toNat_xor,BitVec.toNat_shiftLeft,hshift]
  apply eq_of_testBit_eq
  intro i
  rw [testBit_xor,Nat.mul_comm,testBit_two_pow_mul_add c.toNat hd,testBit_two_pow_mul]
  by_cases hi : i < w
  · simp [hi,show ¬w ≤ i by omega]
  · have hhigh : d.toNat.testBit i = false :=
      testBit_lt_two_pow (hd.trans_le (Nat.pow_le_pow_right (by omega) (by omega)))
    simp [hi,hhigh]
    omega

private theorem step_toNat {j : Nat} (c d : BitVec n) (hj : j+1 ≤ cells) (hc : c.toNat < 2^(w*j)) (hd : d.toNat < 2^w) :
    (r.step c d).toNat = c.toNat*2^w+d.toNat ∧ (r.step c d).toNat < 2^(w*(j+1)) := by
  have hlt : c.toNat*2^w+d.toNat < 2^(w*(j+1)) := by
    calc c.toNat*2^w+d.toNat < c.toNat*2^w+2^w := by omega
      _ = (c.toNat+1)*2^w := by ring
      _ ≤ 2^(w*j)*2^w := Nat.mul_le_mul_right _ hc
      _ = 2^(w*(j+1)) := by rw [← Nat.pow_add]; ring_nf
  have hn : 2^(w*(j+1)) ≤ 2^n := Nat.pow_le_pow_right (by omega) ((Nat.mul_le_mul_left w hj).trans r.fits)
  have hcells : 2^(w*j) ≤ 2^(w*(cells-1)) :=
    Nat.pow_le_pow_right (by omega) (Nat.mul_le_mul_left w (by omega))
  rw [r.move c d (by omega),move_toNat c d (by omega) hd]
  exact ⟨rfl,hlt⟩

theorem run_eq_zero {j : Nat} (v : List (BitVec n)) (hv : ∀ d ∈ v, d.toNat < 2^w) (hj : j+v.length ≤ cells)
    (c : BitVec n) (hc : c.toNat < 2^(w*j)) :
    (r.run c v).toNat < 2^(w*(j+v.length)) ∧ (r.run c v = 0 → c = 0 ∧ ∀ d ∈ v, d = 0) := by
  induction v generalizing j c with
  | nil => simpa using hc
  | cons d v ih =>
    rw [length_cons] at hj
    have hstep := r.step_toNat c d (by omega) hc (hv d (by simp))
    have hrest := ih (j := j+1) (fun e he => hv e (by simp [he])) (by omega) _ hstep.2
    rw [length_cons,show j+(v.length+1) = j+1+v.length by omega]
    refine ⟨hrest.1,fun hzero => ?_⟩
    have hall := hrest.2 hzero
    have hsum : c.toNat*2^w+d.toNat = 0 := by
      rw [← hstep.1,hall.1]
      rfl
    have hd : d.toNat = 0 := by omega
    have hc0 : c.toNat = 0 := by
      have := Nat.two_pow_pos w
      rcases Nat.mul_eq_zero.mp (show c.toNat*2^w = 0 by omega) with h | h <;> omega
    refine ⟨BitVec.eq_of_toNat_eq hc0,fun e he => ?_⟩
    rcases mem_cons.mp he with rfl | he
    · exact BitVec.eq_of_toNat_eq hd
    · exact hall.2 e he

private theorem zip_self (v : List (BitVec n)) : ∀ d ∈ zipWith (·^^^·) v v, d = 0 := by
  induction v with
  | nil => simp
  | cons e v ih =>
    intro d hd
    rcases mem_cons.mp hd with rfl | hd
    · simp
    · exact ih d hd

private theorem zip_zero (v v' : List (BitVec n)) (hlen : v.length = v'.length)
    (h : ∀ d ∈ zipWith (·^^^·) v v', d = 0) : v = v' := by
  induction v generalizing v' with
  | nil =>
    cases v' with
    | nil => rfl
    | cons d' v' => simp at hlen
  | cons d v ih =>
    cases v' with
    | nil => simp at hlen
    | cons d' v' =>
      have hd : d^^^d' = 0 := h _ (by simp)
      have hv := ih v' (by simpa using hlen) (fun e he => h e (by simp [he]))
      rw [BitVec.xor_eq_zero_iff.mp hd,hv]

private theorem zip_lt (v v' : List (BitVec n)) (hv : ∀ d ∈ v, d.toNat < 2^w) (hv' : ∀ d ∈ v', d.toNat < 2^w) :
    ∀ d ∈ zipWith (·^^^·) v v', d.toNat < 2^w := by
  intro d hd
  rw [← map_uncurry_zip_eq_zipWith,mem_map] at hd
  obtain ⟨⟨a,b⟩,hab,rfl⟩ := hd
  obtain ⟨ha,hb⟩ := of_mem_zip hab
  dsimp only [Function.uncurry]
  rw [BitVec.toNat_xor]
  exact xor_lt_two_pow (hv a ha) (hv' b hb)

theorem run_ne_of_window (u v v' t : List (BitVec n)) (hv : ∀ d ∈ v, d.toNat < 2^w) (hv' : ∀ d ∈ v', d.toNat < 2^w)
    (hlen : v.length = v'.length) (hcells : v.length ≤ cells) (hne : v ≠ v') (c : BitVec n) :
    r.run c (u++v++t) ≠ r.run c (u++v'++t) := by
  rw [run_append,run_append,run_append,run_append]
  generalize r.run c u = s
  have hdiff := r.run_xor v v' hlen s s
  rw [BitVec.xor_self] at hdiff
  have hzip := r.run_eq_zero (j := 0) (zipWith (·^^^·) v v') (zip_lt v v' hv hv')
    (by simp only [length_zipWith]; omega) 0 (by simp)
  have hfull : (r.run 0 (zipWith (·^^^·) v v')).toNat < 2^(w*cells) := by
    apply hzip.1.trans_le
    apply Nat.pow_le_pow_right (by omega)
    apply Nat.mul_le_mul_left
    simp only [length_zipWith]
    omega
  have hnonzero : r.run s v^^^r.run s v' ≠ 0 := by
    intro hzero
    rw [← hdiff] at hzero
    exact hne (zip_zero v v' hlen (hzip.2 hzero).2)
  intro heq
  have htail := r.run_xor t t rfl (r.run s v) (r.run s v')
  rw [heq,BitVec.xor_self] at htail
  exact r.run_zeros_ne_zero _ (zip_self t) _ (by rw [← hdiff]; exact hfull) hnonzero htail

def symbols (w : Nat) : Nat → BitVec n → List (BitVec n)
  | 0, _ => []
  | k+1, x => BitVec.ofNat n (x.toNat/2^(w*k)%2^w)::symbols w k x

theorem symbols_length (k : Nat) (x : BitVec n) : (symbols w k x).length = k := by
  induction k with
  | zero => rfl
  | succ k ih => simp [symbols,ih]

theorem symbols_lt (k : Nat) (x : BitVec n) : ∀ d ∈ symbols w k x, d.toNat < 2^w := by
  induction k with
  | zero => simp [symbols]
  | succ k ih =>
    intro d hd
    rcases mem_cons.mp hd with rfl | hd
    · rw [BitVec.toNat_ofNat]
      exact (mod_le ..).trans_lt (mod_lt _ (Nat.two_pow_pos w))
    · exact ih d hd

private theorem run_symbols {j : Nat} (k : Nat) (hj : j+k ≤ cells) (x c : BitVec n) (hc : c.toNat < 2^(w*j)) :
    (r.run c (symbols w k x)).toNat = c.toNat*2^(w*k)+x.toNat%2^(w*k) := by
  induction k generalizing j c with
  | zero => simp [symbols,mod_one]
  | succ k ih =>
    have hw : w ≤ n := by
      have h1 : w*1 ≤ w*cells := Nat.mul_le_mul_left w (by omega)
      have := r.fits
      omega
    have hsym : (BitVec.ofNat n (x.toNat/2^(w*k)%2^w)).toNat = x.toNat/2^(w*k)%2^w := by
      have h2 : 2^w ≤ 2^n := Nat.pow_le_pow_right (by omega) hw
      rw [BitVec.toNat_ofNat,mod_eq_of_lt (by omega)]
    have hstep := r.step_toNat c (BitVec.ofNat n (x.toNat/2^(w*k)%2^w)) (by omega) hc
      (by rw [hsym]; exact mod_lt _ (Nat.two_pow_pos w))
    rw [symbols,run_cons,ih (j := j+1) (by omega) _ hstep.2,hstep.1,hsym,mul_succ,Nat.pow_add,mod_mul (x := x.toNat)]
    ring

theorem run_zero_symbols (k : Nat) (hk : k ≤ cells) (x : BitVec n) (hx : x.toNat < 2^(w*k)) :
    r.run 0 (symbols w k x) = x := by
  apply BitVec.eq_of_toNat_eq
  rw [r.run_symbols (j := 0) k (by omega) x 0 (by simp)]
  simp [mod_eq_of_lt hx]
end ShiftRegister
end BitfiniteCore
