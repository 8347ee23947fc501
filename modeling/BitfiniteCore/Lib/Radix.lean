import Mathlib.Data.Nat.Digits.Lemmas
import Mathlib.Tactic.Ring

/-! # Changing the radix in place -/

namespace BitfiniteCore
open List Nat

namespace Radix

/-- One pass over the buffer; it returns the buffer, the carry and the number of digits it went over. -/
def mulAdd (mul base : Nat) : List Nat → Nat → Nat → List Nat × Nat × Nat
  | [], carry, _ => ([],carry,0)
  | d::ds, carry, len =>
    if carry ≠ 0 ∨ 0 < len then
      let r := mulAdd mul base ds ((carry+mul*d)/base) (len-1)
      ((carry+mul*d)%base::r.1,r.2.1,r.2.2+1)
    else (d::ds,carry,0)

def len (base n : Nat) : Nat := (Nat.digits base n).length

theorem digits_pos {base n : Nat} (hb : 1 < base) (hn : n ≠ 0) :
    Nat.digits base n = n%base::Nat.digits base (n/base) :=
  digits_def' hb (by omega)

theorem len_pos {base n : Nat} (hb : 1 < base) (hn : n ≠ 0) : len base n = len base (n/base)+1 := by
  rw [len,digits_pos hb hn,length_cons,len]

@[simp] theorem len_zero (base : Nat) : len base 0 = 0 := by simp [len]

theorem len_mono {n m : Nat} (base : Nat) (h : n ≤ m) : len base n ≤ len base m := le_length_digits_le base n m h

theorem digitsAppend_succ {base n k : Nat} (hb : 1 < base) :
    Nat.digitsAppend base (k+1) n = n%base::Nat.digitsAppend base k (n/base) := by
  by_cases hn : n = 0
  · simp [Nat.digitsAppend,hn,replicate_succ]
  · simp only [Nat.digitsAppend,digits_pos hb hn,length_cons,cons_append,Nat.add_sub_add_right]

theorem digitsAppend_eq {base n k : Nat} : Nat.digitsAppend base k n = Nat.digits base n++replicate (k-len base n) 0 := rfl

theorem mulAdd_digits {mul base : Nat} (hb : 1 < base) (hm : 0 < mul) (size n carry : Nat)
    (hfit : mul*n+carry < base^size) :
    mulAdd mul base (Nat.digitsAppend base size n) carry (len base n) =
      (Nat.digitsAppend base size (mul*n+carry),0,len base (mul*n+carry)) := by
  induction size generalizing n carry with
  | zero =>
    have hn : n = 0 := by
      by_contra h
      have := Nat.mul_le_mul hm (one_le_iff_ne_zero.mpr h)
      simp only [Nat.pow_zero] at hfit
      omega
    have hc : carry = 0 := by
      simp only [Nat.pow_zero] at hfit
      omega
    subst hn hc
    simp [Nat.digitsAppend,mulAdd]
  | succ size ih =>
    rw [digitsAppend_succ hb,digitsAppend_succ hb,mulAdd]
    by_cases hstop : carry = 0 ∧ n = 0
    · obtain ⟨rfl,rfl⟩ := hstop
      simp
    · have hgo : carry ≠ 0 ∨ 0 < len base n := by
        by_cases hc : carry = 0
        · have hn : n ≠ 0 := fun h => hstop ⟨hc,h⟩
          rw [len_pos hb hn]
          exact .inr (by omega)
        · exact .inl hc
      have hne : mul*n+carry ≠ 0 := by
        intro h
        have hn : mul*n = 0 := by omega
        rcases Nat.mul_eq_zero.mp hn with h' | h'
        · omega
        · exact hstop ⟨by omega,h'⟩
      have hsplit : mul*n+carry = base*(mul*(n/base))+(carry+mul*(n%base)) := by
        conv_lhs => rw [← div_add_mod n base]
        ring
      have hdiv : (mul*n+carry)/base = mul*(n/base)+(carry+mul*(n%base))/base := by
        rw [hsplit,mul_add_div (by omega)]
      have hmod : (mul*n+carry)%base = (carry+mul*(n%base))%base := by
        rw [hsplit,mul_add_mod]
      have hlen : len base n-1 = len base (n/base) := by
        by_cases hn : n = 0
        · simp [hn]
        · rw [len_pos hb hn,Nat.add_sub_cancel]
      have hfit' : mul*(n/base)+(carry+mul*(n%base))/base < base^size := by
        rw [← hdiv]
        apply Nat.div_lt_of_lt_mul
        rwa [Nat.pow_succ'] at hfit
      rw [if_pos hgo,hlen,ih _ _ hfit',← hdiv,hmod]
      dsimp only
      rw [← len_pos hb hne]

def value (base : Nat) (ds : List Nat) (n : Nat) : Nat := ds.foldl (fun n d => base*n+d) n

@[simp] theorem value_nil (base n : Nat) : value base [] n = n := rfl
@[simp] theorem value_cons (base d n : Nat) (ds : List Nat) : value base (d::ds) n = value base ds (base*n+d) := rfl

theorem value_eq (base : Nat) (ds : List Nat) : value base ds 0 = Nat.ofDigits base ds.reverse := by
  rw [value,ofDigits_eq_foldr,foldr_reverse]
  congr 1
  funext n d
  simp [Nat.add_comm]

theorem value_mono {base : Nat} (hb : 0 < base) (ds : List Nat) (n : Nat) : n ≤ value base ds n := by
  induction ds generalizing n with
  | nil => exact le_rfl
  | cons d ds ih =>
    have h := ih (base*n+d)
    have hmul : n ≤ base*n := Nat.le_mul_of_pos_left n hb
    rw [value_cons]
    omega

theorem value_lt {base : Nat} (ds : List Nat) (hds : ∀ d ∈ ds, d < base) (n : Nat) :
    value base ds n < (n+1)*base^ds.length := by
  induction ds generalizing n with
  | nil => simp
  | cons d ds ih =>
    have hd := hds d (by simp)
    have hle : (base*n+d+1)*base^ds.length ≤ (n+1)*base*base^ds.length := by
      apply Nat.mul_le_mul_right
      calc base*n+d+1 ≤ base*n+base := by omega
        _ = (n+1)*base := by ring
    calc value base (d::ds) n < (base*n+d+1)*base^ds.length := ih (fun e he => hds e (by simp [he])) _
      _ ≤ (n+1)*base*base^ds.length := hle
      _ = (n+1)*base^(d::ds).length := by rw [length_cons,Nat.pow_succ]; ring

theorem value_digits {base : Nat} (n : Nat) : value base (Nat.digits base n).reverse 0 = n := by
  rw [value_eq,reverse_reverse,ofDigits_digits]

theorem digits_value {base : Nat} (hb : 1 < base) (ds : List Nat) (hds : ∀ d ∈ ds, d < base) (hhead : ds.head? ≠ some 0) :
    (Nat.digits base (value base ds 0)).reverse = ds := by
  rw [value_eq,digits_ofDigits base hb ds.reverse (by simpa using hds),reverse_reverse]
  intro hne hzero
  apply hhead
  rw [getLast_reverse] at hzero
  rw [head?_eq_some_head (by simpa using hne),hzero]

theorem digits_head (base n : Nat) : (Nat.digits base n).reverse.head? ≠ some 0 := by
  rw [head?_reverse]
  intro h
  by_cases hn : n = 0
  · simp [hn] at h
  · have hne : Nat.digits base n ≠ [] := digits_ne_nil_iff_ne_zero.mpr hn
    rw [getLast?_eq_some_getLast hne,Option.some.injEq] at h
    exact getLast_digit_ne_zero base hn h

/-- A buffer for `n` digits of one radix holds, rounded up, `p` digits of the other for every `q` of them. -/
theorem pow_fits {a b p q : Nat} (hb : 0 < b) (hq : 0 < q) (h : a^q ≤ b^p) (n : Nat) : a^n ≤ b^(n*p/q+1) := by
  have hdiv : n*p ≤ q*(n*p/q+1) := by
    have := div_add_mod (n*p) q
    have := mod_lt (n*p) hq
    rw [mul_succ]
    omega
  have hpow : (a^n)^q ≤ (b^(n*p/q+1))^q := by
    calc (a^n)^q = (a^q)^n := by rw [← Nat.pow_mul,← Nat.pow_mul,Nat.mul_comm]
      _ ≤ (b^p)^n := Nat.pow_le_pow_left h n
      _ = b^(n*p) := by rw [← Nat.pow_mul,Nat.mul_comm]
      _ ≤ b^(q*(n*p/q+1)) := Nat.pow_le_pow_right hb hdiv
      _ = (b^(n*p/q+1))^q := by rw [← Nat.pow_mul,Nat.mul_comm]
  exact (Nat.pow_le_pow_iff_left (by omega)).mp hpow
end Radix
end BitfiniteCore
