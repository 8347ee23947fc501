import Mathlib.Data.Nat.Bitwise
import Mathlib.Data.Nat.ModEq
import Mathlib.Data.List.Basic

/-! # Bits in groups -/

namespace BitfiniteCore
open List Nat

theorem forall_byte {P : UInt8 → Prop} (h : ∀ i : Fin 256, P (UInt8.ofNat i)) (c : UInt8) : P c := by
  have hc := h ⟨c.toNat,c.toNat_lt⟩
  rwa [UInt8.ofNat_toNat] at hc

namespace BitGroups

def toBits : Nat → Nat → List Bool
  | 0, _ => []
  | w+1, x => x.testBit w::toBits w x

@[simp] theorem toBits_length (w x : Nat) : (toBits w x).length = w := by
  induction w with
  | zero => rfl
  | succ w ih => simp [toBits,ih]

theorem toBits_congr {w x y : Nat} (h : ∀ i < w, x.testBit i = y.testBit i) : toBits w x = toBits w y := by
  induction w with
  | zero => rfl
  | succ w ih =>
    rw [toBits,toBits,h w (by omega),ih (fun i hi => h i (by omega))]

theorem toBits_mod {w m : Nat} (h : w ≤ m) (x : Nat) : toBits w (x%2^m) = toBits w x := by
  apply toBits_congr
  intro i hi
  simp [testBit_mod_two_pow,show i < m by omega]

theorem toBits_add (a b x : Nat) : toBits (a+b) x = toBits a (x/2^b)++toBits b x := by
  induction a with
  | zero => simp [toBits]
  | succ a ih =>
    rw [show a+1+b = a+b+1 by omega,toBits,toBits,ih,testBit_div_two_pow]
    simp [Nat.add_comm]

theorem toBits_mul_add {f v : Nat} (hv : v < 2^f) (b x : Nat) : toBits (b+f) (x*2^f+v) = toBits b x++toBits f v := by
  have hdiv : (x*2^f+v)/2^f = x := by
    rw [Nat.add_comm,add_mul_div_right _ _ (Nat.two_pow_pos f),div_eq_of_lt hv,Nat.zero_add]
  rw [toBits_add,hdiv,← toBits_mod le_rfl (x*2^f+v),mul_add_mod_self_right,mod_eq_of_lt hv]

theorem toBits_injective {w x y : Nat} (hx : x < 2^w) (hy : y < 2^w) (h : toBits w x = toBits w y) : x = y := by
  have hbits : ∀ i < w, x.testBit i = y.testBit i := by
    clear hx hy
    induction w with
    | zero => intro i hi; omega
    | succ w ih =>
      rw [toBits,toBits,List.cons.injEq] at h
      intro i hi
      by_cases hw : i = w
      · rw [hw]
        exact h.1
      · exact ih h.2 i (by omega)
  apply eq_of_testBit_eq
  intro i
  by_cases hi : i < w
  · exact hbits i hi
  · have hpow : 2^w ≤ 2^i := Nat.pow_le_pow_right (by omega) (by omega)
    rw [testBit_lt_two_pow (by omega),testBit_lt_two_pow (by omega)]

theorem toBits_zero (w : Nat) : toBits w 0 = List.replicate w false := by
  induction w with
  | zero => rfl
  | succ w ih => simp [toBits,ih,replicate_succ]

theorem toBits_eq_zero {w x : Nat} : (∀ b ∈ toBits w x, b = false) ↔ x%2^w = 0 := by
  constructor
  · intro h
    have hrep : toBits w (x%2^w) = toBits w 0 := by
      rw [toBits_mod le_rfl,toBits_zero,eq_replicate_iff]
      exact ⟨toBits_length w x,h⟩
    exact toBits_injective (mod_lt _ (Nat.two_pow_pos w)) (Nat.two_pow_pos w) hrep
  · intro h
    rw [← toBits_mod le_rfl x,h,toBits_zero]
    intro b hb
    exact eq_of_mem_replicate hb

def groups (w : Nat) (l : List Nat) : List Bool := l.flatMap (toBits w)

@[simp] theorem groups_nil (w : Nat) : groups w [] = [] := rfl
@[simp] theorem groups_cons (w x : Nat) (l : List Nat) : groups w (x::l) = toBits w x++groups w l := rfl
@[simp] theorem groups_append (w : Nat) (l l' : List Nat) : groups w (l++l') = groups w l++groups w l' := by
  simp [groups]

@[simp] theorem groups_length (w : Nat) (l : List Nat) : (groups w l).length = w*l.length := by
  induction l with
  | nil => rfl
  | cons x l ih =>
    rw [groups_cons,length_append,toBits_length,ih,length_cons,mul_succ,Nat.add_comm]

theorem groups_injective {w : Nat} {l l' : List Nat} (hl : ∀ x ∈ l, x < 2^w) (hl' : ∀ x ∈ l', x < 2^w)
    (hlen : l.length = l'.length) (h : groups w l = groups w l') : l = l' := by
  induction l generalizing l' with
  | nil =>
    cases l' with
    | nil => rfl
    | cons y l' => simp at hlen
  | cons x l ih =>
    cases l' with
    | nil => simp at hlen
    | cons y l' =>
      obtain ⟨hxy,hrest⟩ := append_inj h (by simp)
      rw [toBits_injective (hl x (by simp)) (hl' y (by simp)) hxy,
        ih (fun z hz => hl z (by simp [hz])) (fun z hz => hl' z (by simp [hz])) (by simpa using hlen) hrest]

theorem groups_rest {w : Nat} {l l' : List Nat} {z z' : List Bool} (hl : ∀ x ∈ l, x < 2^w) (hl' : ∀ x ∈ l', x < 2^w)
    (hz : z.length < w) (hz' : z'.length < w) (h : groups w l++z = groups w l'++z') : l = l' ∧ z = z' := by
  have hlen := congrArg List.length h
  simp only [length_append,groups_length] at hlen
  have hcount : l.length = l'.length := by
    have h1 : (w*l.length+z.length)/w = l.length := by
      rw [mul_add_div (by omega),div_eq_of_lt hz,Nat.add_zero]
    have h2 : (w*l'.length+z'.length)/w = l'.length := by
      rw [mul_add_div (by omega),div_eq_of_lt hz',Nat.add_zero]
    rw [← h1,← h2,hlen]
  obtain ⟨hgroups,hrest⟩ := append_inj h (by simp [hcount])
  exact ⟨groups_injective hl hl' hcount hgroups,hrest⟩

theorem padding_unique {w n : Nat} {z z' : List Bool} (h0 : ∀ b ∈ z, b = false) (h0' : ∀ b ∈ z', b = false)
    (hz : z.length < w) (hz' : z'.length < w) (h : w ∣ n+z.length) (h' : w ∣ n+z'.length) : z = z' := by
  have hlen : z.length = z'.length := by
    have hmod : n+z.length ≡ n+z'.length [MOD w] :=
      ((modEq_zero_iff_dvd).mpr h).trans ((modEq_zero_iff_dvd).mpr h').symm
    have := Nat.ModEq.add_left_cancel' n hmod
    exact Nat.ModEq.eq_of_lt_of_lt this hz hz'
  rw [eq_replicate_iff.mpr ⟨rfl,h0⟩,eq_replicate_iff.mpr ⟨rfl,h0'⟩,hlen]
end BitGroups
end BitfiniteCore
