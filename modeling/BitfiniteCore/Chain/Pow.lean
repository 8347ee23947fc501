import BitfiniteCore.Chain.BlockIndex
import Mathlib.Algebra.Order.Floor.Semiring
import Mathlib.Data.Nat.Log
import Mathlib.Data.Rat.Floor
import Mathlib.Tactic.Linarith
import Mathlib.Tactic.Ring

/-!
# Proof of work

Networks with a fixed ASERT anchor; the search for an anchor block is left out.
-/

namespace BitfiniteCore
open Nat

structure ASERTAnchor where
  nHeight : Int
  nBits : Nat
  nPrevBlockTime : Int

structure PowParams where
  powLimit : Nat
  nPowTargetSpacing : Int
  fPowAllowMinDifficultyBlocks : Bool
  fPowNoRetargeting : Bool
  nASERTHalfLife : Int
  asertAnchorParams : ASERTAnchor

def mainPowParams : PowParams :=
  ⟨0x00000000ffffffffffffffffffffffffffffffffffffffffffffffffffffffff,5*60,false,false,6*60*60,
    ⟨0,0x1b00efab,1782691200⟩⟩

def testNetPowParams : PowParams :=
  ⟨0x00000000ffffffffffffffffffffffffffffffffffffffffffffffffffffffff,10*60,true,false,60*60,
    ⟨0,0x1d00ffff,1787400000⟩⟩

inductive IndexChain where
  | genesis (nTime nBits : Nat)
  | child (pprev : IndexChain) (nTime nBits : Nat)

namespace IndexChain

def nHeight : IndexChain → Nat
  | genesis _ _ => 0
  | child pprev _ _ => pprev.nHeight+1

def nTime : IndexChain → Nat
  | genesis nTime _ => nTime
  | child _ nTime _ => nTime

def nBits : IndexChain → Nat
  | genesis _ nBits => nBits
  | child _ _ nBits => nBits
end IndexChain

def int64 (x : Int) : Except Stop Int := if -2^63 ≤ x ∧ x < 2^63 then .ok x else .error .overflow

/-- `base_uint::bits`. -/
def bitLength (a : Nat) : Nat := if a = 0 then 0 else a.log2+1

/-- `arith_uint256::GetCompact`.  The size is put above the mantissa, which has no bits there. -/
def getCompact (a : Nat) : Except Stop Nat :=
  let nSize := (bitLength a+7)/8
  let nCompact := if nSize ≤ 3 then a%2^64*2^(8*(3-nSize))%2^32 else a/2^(8*(nSize-3))%2^32
  let r := if nCompact/2^23%2 = 1 then (nCompact/2^8,nSize+1) else (nCompact,nSize)
  if 2^23 ≤ r.1 then .error (.assertion "(nCompact & ~0x007fffff) == 0")
  else if 256 ≤ r.2 then .error (.assertion "nSize < 256")
  else .ok (r.1+r.2*2^24)

/-- `65536*2^(frac/65536)` by a cubic polynomial, in 64 bits. -/
def asertFactor (frac : Nat) : Nat :=
  (65536+(195766423245049*frac+971821376*frac*frac+5127*frac*frac*frac+2^47)%2^64/2^48)%2^32

def shiftTarget (refTarget factor powLimit : Nat) (shifts : Int) : Nat :=
  let nextTarget := refTarget*factor%2^256
  if shifts ≤ 0 then nextTarget/2^((-shifts).toNat%2^32)
  else
    let nextTargetShifted := nextTarget*2^(shifts.toNat%2^32)%2^256
    if nextTargetShifted/2^(shifts.toNat%2^32) ≠ nextTarget then powLimit else nextTargetShifted

def calculateASERT (refTarget : Nat) (nPowTargetSpacing nTimeDiff nHeightDiff : Int) (powLimit : Nat)
    (nHalfLife : Int) : Except Stop Nat :=
  if ¬(0 < refTarget ∧ refTarget ≤ powLimit) then .error (.assertion "refTarget > 0 && refTarget <= powLimit")
  else if powLimit/2^224 ≠ 0 then .error (.assertion "(powLimit >> 224) == 0")
  else if nHeightDiff < 0 then .error (.assertion "nHeightDiff >= 0")
  else
    (int64 (nPowTargetSpacing*nHeightDiff)).bind fun ideal =>
    (int64 (nTimeDiff-ideal)).bind fun diff =>
    if 2^47 ≤ |diff| then
      .error (.assertion "llabs(nTimeDiff - nPowTargetSpacing * nHeightDiff) < (1ll << (63 - 16))")
    else
    (int64 (nHeightDiff+1)).bind fun blocks =>
    (int64 (nPowTargetSpacing*blocks)).bind fun schedule =>
    (int64 (nTimeDiff-schedule)).bind fun ahead =>
    (int64 (ahead*65536)).bind fun scaled =>
    (int64 (scaled.tdiv nHalfLife)).bind fun exponent =>
    let shifts := exponent/65536
    let frac := (exponent%65536).toNat
    if exponent ≠ shifts*65536+frac then .error (.assertion "exponent == (shifts * 65536) + frac")
    else
    (int64 (shifts-16)).bind fun shifts =>
    let nextTarget := shiftTarget refTarget (asertFactor frac) powLimit shifts
    .ok (if nextTarget = 0 then 1 else if powLimit < nextTarget then powLimit else nextTarget)

def getNextASERTWorkRequired (pindexPrev : IndexChain) (blockTime : Nat) (params : PowParams) : Except Stop Nat :=
  match pindexPrev with
  | .genesis _ _ => getCompact params.powLimit
  | .child _ _ _ =>
    if (pindexPrev.nHeight : Int) < params.asertAnchorParams.nHeight then
      .error (.assertion "pindexPrev->nHeight >= anchorParams.nHeight")
    else
      (int64 (pindexPrev.nTime+2*params.nPowTargetSpacing)).bind fun minDifficultyTime =>
      if params.fPowAllowMinDifficultyBlocks = true ∧ minDifficultyTime < blockTime then getCompact params.powLimit
      else
        (int64 (pindexPrev.nTime-params.asertAnchorParams.nPrevBlockTime)).bind fun nTimeDiff =>
        (calculateASERT (setCompact params.asertAnchorParams.nBits).1 params.nPowTargetSpacing nTimeDiff
          (pindexPrev.nHeight-params.asertAnchorParams.nHeight) params.powLimit params.nASERTHalfLife).bind getCompact

def getNextWorkRequired (pindexPrev : IndexChain) (blockTime : Nat) (params : PowParams) : Except Stop Nat :=
  if params.fPowNoRetargeting then .ok pindexPrev.nBits
  else if params.asertAnchorParams.nHeight ≤ pindexPrev.nHeight then
    getNextASERTWorkRequired pindexPrev blockTime params
  else .error (.assertion "unreachable: ASERT applies from genesis on every network")

section Compact

/-- A number with only its first three bytes, or two if the sign bit of the compact form would be set. -/
def compactTruncation (a : Nat) : Nat :=
  let nSize := (bitLength a+7)/8
  let low := if 2^(8*nSize-1) ≤ a then nSize-2 else nSize-3
  a/256^low*256^low

theorem bitLength_le {a k : Nat} (h : a < 2^k) : bitLength a ≤ k := by
  unfold bitLength
  split
  · exact Nat.zero_le k
  · rename_i h0
    exact (log2_lt h0).mpr h

theorem lt_two_pow_bitLength (a : Nat) : a < 2^bitLength a := by
  unfold bitLength
  split
  · rename_i h0
    simp [h0]
  · exact lt_log2_self

theorem two_pow_bitLength_le {a : Nat} (h : 0 < a) : 2^(bitLength a-1) ≤ a := by
  unfold bitLength
  rw [if_neg (by omega),Nat.add_sub_cancel]
  exact log2_self_le (by omega)

theorem compactTruncation_le (a : Nat) : compactTruncation a ≤ a := div_mul_le_self ..

def topBytes (a j : Nat) : Nat := a/256^(j-3)*256^(3-j)

private theorem pow_bytes (j : Nat) : 256^j = 2^(8*j) := by
  rw [pow_mul]
  norm_num

theorem topBytes_succ (a j : Nat) : topBytes a (j+1) = topBytes a j/256 := by
  unfold topBytes
  rcases Nat.lt_or_ge j 3 with hj | hj
  · obtain ⟨i,rfl⟩ : ∃ i, j = 2-i := ⟨2-j,by omega⟩
    rw [show 3-(2-i) = 3-(2-i+1)+1 by omega,show 2-i+1-3 = 2-i-3 by omega,pow_succ,← Nat.mul_assoc,
      Nat.mul_div_cancel _ (by decide)]
  · rw [show j+1-3 = j-3+1 by omega,show 3-(j+1) = 0 by omega,show 3-j = 0 by omega,pow_succ,
      ← Nat.div_div_eq_div_mul]
    simp

theorem topBytes_lt {a j d : Nat} (hj : 0 < j) (hd : d ≤ 8) : topBytes a j < 2^(24-d) ↔ a < 2^(8*j-d) := by
  unfold topBytes
  rw [pow_bytes,pow_bytes]
  rcases Nat.le_total j 3 with h3 | h3
  · rw [show j-3 = 0 by omega,show 24-d = 8*j-d+8*(3-j) by omega,pow_add]
    simp
  · rw [show 3-j = 0 by omega,show 8*j-d = 24-d+8*(j-3) by omega,pow_add,← Nat.div_lt_iff_lt_mul (by positivity)]
    simp

variable {a : Nat}

private theorem compactTruncation_eq (hpos : 0 < a) :
    compactTruncation a = a/256^(bitLength a/8-2)*256^(bitLength a/8-2) := by
  have hlow : (if 2^(8*((bitLength a+7)/8)-1) ≤ a then (bitLength a+7)/8-2 else (bitLength a+7)/8-3) =
      bitLength a/8-2 := by
    by_cases h8 : bitLength a%8 = 0
    · rw [if_pos]
      · omega
      · rw [show 8*((bitLength a+7)/8)-1 = bitLength a-1 by omega]
        exact two_pow_bitLength_le hpos
    · rw [if_neg]
      · omega
      · exact not_le.mpr ((lt_two_pow_bitLength a).trans_le (Nat.pow_le_pow_right (by decide) (by omega)))
  simp only [compactTruncation,hlow]

private theorem getCompact_eq (hpos : 0 < a) (hlt : a < 2^256) :
    getCompact a = .ok (topBytes a (bitLength a/8+1)+(bitLength a/8+1)*2^24) := by
  have hlen := bitLength_le hlt
  have hbits := lt_two_pow_bitLength a
  have hlow := two_pow_bitLength_le hpos
  have hL : 0 < bitLength a := by
    unfold bitLength
    rw [if_neg (by omega)]
    exact succ_pos _
  generalize hsize : (bitLength a+7)/8 = nSize
  have hword : topBytes a nSize < 2^24 :=
    (topBytes_lt (by omega) (Nat.zero_le 8)).mpr (hbits.trans_le (Nat.pow_le_pow_right (by decide) (by omega)))
  have hcompact : (if nSize ≤ 3 then a%2^64*2^(8*(3-nSize))%2^32 else a/2^(8*(nSize-3))%2^32) = topBytes a nSize := by
    rw [← mod_eq_of_lt (hword.trans (by decide : 2^24 < 2^32)),topBytes,pow_bytes,pow_bytes]
    split
    · rename_i h3
      have hsmall : a < 2^64 := hbits.trans (Nat.pow_lt_pow_right (by decide) (by omega))
      rw [mod_eq_of_lt hsmall,show nSize-3 = 0 by omega]
      simp
    · rw [show 3-nSize = 0 by omega]
      simp
  simp only [getCompact,hsize,hcompact]
  by_cases h8 : bitLength a%8 = 0
  · have htop : ¬topBytes a nSize < 2^(24-1) := by
      rw [topBytes_lt (by omega) (by decide),show 8*nSize-1 = bitLength a-1 by omega]
      omega
    have hbit : topBytes a nSize/2^23%2 = 1 := by omega
    have hdiv : topBytes a nSize/2^8 = topBytes a (nSize+1) := (topBytes_succ a nSize).symm
    rw [if_pos hbit,hdiv,show bitLength a/8 = nSize by omega]
    rw [if_neg (by omega),if_neg (by omega)]
  · have htop : topBytes a nSize < 2^(24-1) :=
      (topBytes_lt (by omega) (by decide)).mpr (hbits.trans_le (Nat.pow_le_pow_right (by decide) (by omega)))
    have hbit : ¬topBytes a nSize/2^23%2 = 1 := by omega
    rw [if_neg hbit,show bitLength a/8+1 = nSize by omega]
    rw [if_neg (by omega),if_neg (by omega)]

theorem getCompact_spec (hlt : a < 2^256) :
    ∃ n, getCompact a = .ok n ∧ setCompact n = (compactTruncation a,false,false) := by
  rcases Nat.eq_zero_or_pos a with rfl | hpos
  · exact ⟨0,rfl,rfl⟩
  refine ⟨_,getCompact_eq hpos hlt,?_⟩
  have hlen := bitLength_le hlt
  have hword : topBytes a (bitLength a/8+1) < 2^(24-1) := (topBytes_lt (by omega) (by decide)).mpr
    ((lt_two_pow_bitLength a).trans_le (Nat.pow_le_pow_right (by decide) (by omega)))
  have h33 : bitLength a/8+1 = 33 → topBytes a (bitLength a/8+1) < 2^(24-8) := by
    intro h
    rw [topBytes_lt (by omega) le_rfl,h]
    exact hlt
  rw [compactTruncation_eq hpos]
  have hle := div_mul_le_self a (256^(bitLength a/8-2))
  generalize hk : bitLength a/8 = k at *
  generalize hn : topBytes a (k+1) = nWord at *
  have hs : (nWord+(k+1)*2^24)/2^24 = k+1 := by omega
  have hw : (nWord+(k+1)*2^24)%2^23 = nWord := by omega
  have hb : (nWord+(k+1)*2^24)/2^23%2 = 0 := by omega
  have hvalue : (if k+1 ≤ 3 then nWord/2^(8*(3-(k+1))) else nWord*2^(8*(k+1-3))%2^256) = a/256^(k-2)*256^(k-2) := by
    rw [← hn,topBytes,← pow_bytes,← pow_bytes,show k+1-3 = k-2 by omega]
    split
    · rw [show k-2 = 0 by omega,Nat.mul_div_cancel _ (by positivity)]
      simp
    · rw [show 3-(k+1) = 0 by omega,pow_zero,Nat.mul_one]
      exact mod_eq_of_lt (hle.trans_lt hlt)
  have h34 : ¬34 < k+1 := by omega
  have h33' : ¬33 < k+1 := by omega
  have h32 : ¬(0xffff < nWord ∧ 32 < k+1) := by omega
  unfold setCompact
  simp only [hs,hw,hb]
  by_cases h3 : k+1 ≤ 3
  · have h32' : ¬32 < k+1 := by omega
    simp only [if_pos h3] at hvalue ⊢
    rw [hvalue]
    simp [h34,h33',h32']
  · simp only [if_neg h3] at hvalue ⊢
    rw [hvalue]
    simp [h34,h33']
    omega

theorem two_pow_le_compactTruncation (hpos : 0 < a) : 2^(bitLength a-1) ≤ compactTruncation a := by
  rw [compactTruncation_eq hpos,pow_bytes]
  have hsplit : 2^(bitLength a-1) = 2^(bitLength a-1-8*(bitLength a/8-2))*2^(8*(bitLength a/8-2)) := by
    rw [← pow_add,Nat.sub_add_cancel]
    omega
  rw [hsplit]
  apply Nat.mul_le_mul_right
  rw [Nat.le_div_iff_mul_le (by positivity),← hsplit]
  exact two_pow_bitLength_le hpos

theorem compactTruncation_pos (hpos : 0 < a) : 0 < compactTruncation a :=
  (by positivity : 0 < 2^(bitLength a-1)).trans_le (two_pow_le_compactTruncation hpos)

theorem bitLength_eq {a L : Nat} (hlow : 2^(L-1) ≤ a) (hlt : a < 2^L) : bitLength a = L := by
  have h1 := bitLength_le hlt
  have h2 := (Nat.pow_lt_pow_iff_right (by decide)).mp (hlow.trans_lt (lt_two_pow_bitLength a))
  omega

theorem bitLength_compactTruncation (a : Nat) : bitLength (compactTruncation a) = bitLength a := by
  rcases Nat.eq_zero_or_pos a with rfl | hpos
  · rfl
  · exact bitLength_eq (two_pow_le_compactTruncation hpos) ((compactTruncation_le a).trans_lt (lt_two_pow_bitLength a))

theorem getCompact_compactTruncation (hlt : a < 2^256) : getCompact (compactTruncation a) = getCompact a := by
  rcases Nat.eq_zero_or_pos a with rfl | hpos
  · rfl
  have hT := (compactTruncation_le a).trans_lt hlt
  rw [getCompact_eq (compactTruncation_pos hpos) hT,getCompact_eq hpos hlt,bitLength_compactTruncation]
  rw [topBytes,topBytes,compactTruncation_eq hpos,show bitLength a/8+1-3 = bitLength a/8-2 by omega,
    Nat.mul_div_cancel _ (by positivity)]

theorem compactTruncation_error (a : Nat) : (a-compactTruncation a)*2^15 ≤ a := by
  rcases Nat.eq_zero_or_pos a with rfl | hpos
  · rfl
  rw [compactTruncation_eq hpos,← Nat.mod_eq_sub_div_mul]
  rcases Nat.le_total (bitLength a/8) 2 with h2 | h2
  · rw [show bitLength a/8-2 = 0 by omega]
    simp [Nat.mod_one]
  · calc a%256^(bitLength a/8-2)*2^15 ≤ 256^(bitLength a/8-2)*2^15 :=
          Nat.mul_le_mul_right _ (mod_lt _ (by positivity)).le
      _ = 2^(8*(bitLength a/8-2)+15) := by rw [pow_bytes,pow_add]
      _ ≤ 2^(bitLength a-1) := Nat.pow_le_pow_right (by decide) (by omega)
      _ ≤ a := two_pow_bitLength_le hpos

theorem compactTruncation_mono {b : Nat} (hab : a ≤ b) : compactTruncation a ≤ compactTruncation b := by
  rcases Nat.eq_zero_or_pos a with rfl | hpos
  · exact Nat.zero_le _
  rcases Nat.lt_or_ge (bitLength a) (bitLength b) with hlt | hge
  · calc compactTruncation a ≤ a := compactTruncation_le a
      _ ≤ 2^bitLength a := (lt_two_pow_bitLength a).le
      _ ≤ 2^(bitLength b-1) := Nat.pow_le_pow_right (by decide) (by omega)
      _ ≤ compactTruncation b := two_pow_le_compactTruncation (hpos.trans_le hab)
  · have heq : bitLength a = bitLength b :=
      (bitLength_le (hab.trans_lt (lt_two_pow_bitLength b))).antisymm hge
    rw [compactTruncation_eq hpos,compactTruncation_eq (hpos.trans_le hab),heq]
    exact Nat.mul_le_mul_right _ (Nat.div_le_div_right hab)

/-- The number that a compact form stands for: `mantissa*256^(exponent-3)`. -/
def compactValue (nCompact : Nat) : ℚ := (nCompact%2^23 : Nat)*256^((nCompact/2^24 : Nat)-3 : ℤ)

private theorem compactValue_small {nCompact : Nat} (h : nCompact/2^24 ≤ 3) :
    compactValue nCompact = ((nCompact%2^23 : Nat) : ℚ)/((2^(8*(3-nCompact/2^24)) : Nat) : ℚ) := by
  rw [compactValue,show ((nCompact/2^24 : Nat)-3 : ℤ) = -((3-nCompact/2^24 : Nat) : ℤ) by omega,zpow_neg,
    zpow_natCast,← div_eq_mul_inv,← pow_bytes]
  push_cast
  rfl

private theorem compactValue_large {nCompact : Nat} (h : 3 ≤ nCompact/2^24) :
    compactValue nCompact = ((nCompact%2^23*2^(8*(nCompact/2^24-3)) : Nat) : ℚ) := by
  rw [compactValue,show ((nCompact/2^24 : Nat)-3 : ℤ) = ((nCompact/2^24-3 : Nat) : ℤ) by omega,zpow_natCast,
    ← pow_bytes]
  push_cast
  rfl

private theorem mantissa_overflows {m e : Nat} (hm : m < 2^23) :
    m ≠ 0 ∧ (34 < e ∨ 0xff < m ∧ 33 < e ∨ 0xffff < m ∧ 32 < e) ↔ 2^256 ≤ m*2^(8*(e-3)) := by
  obtain h | rfl | rfl | h : e ≤ 32 ∨ e = 33 ∨ e = 34 ∨ 34 < e := by omega
  · have hlt : m*2^(8*(e-3)) < 2^23*2^232 :=
      Nat.mul_lt_mul_of_lt_of_le hm (Nat.pow_le_pow_right (by decide) (by omega)) (by positivity)
    omega
  · omega
  · omega
  · rcases Nat.eq_zero_or_pos m with rfl | hpos
    · simp
    · have hle : 2^256 ≤ 2^(8*(e-3)) := Nat.pow_le_pow_right (by decide) (by omega)
      exact ⟨fun _ => hle.trans (Nat.le_mul_of_pos_left _ hpos),fun _ => ⟨by omega,.inl h⟩⟩

theorem setCompact_exact (nCompact : Nat) : ((setCompact nCompact).2.2 = true ↔ 2^256 ≤ compactValue nCompact) ∧
      ((setCompact nCompact).2.2 = false → ((setCompact nCompact).1 : ℤ) = ⌊compactValue nCompact⌋) := by
  have hm : nCompact%2^23 < 2^23 := mod_lt _ (by decide)
  by_cases he : nCompact/2^24 ≤ 3
  · have h34 : ¬34 < nCompact/2^24 := by omega
    have h33 : ¬33 < nCompact/2^24 := by omega
    have h32 : ¬32 < nCompact/2^24 := by omega
    have hvalue : (setCompact nCompact).1 = nCompact%2^23/2^(8*(3-nCompact/2^24)) := by simp only [setCompact,if_pos he]
    have hover : (setCompact nCompact).2.2 = false := by
      simp only [setCompact,h34,h33,h32,decide_false,Bool.and_false,Bool.or_false]
    have hlt : compactValue nCompact < 2^256 := by
      rw [compactValue_small he]
      calc ((nCompact%2^23 : Nat) : ℚ)/((2^(8*(3-nCompact/2^24)) : Nat) : ℚ) ≤ (nCompact%2^23 : Nat) :=
            div_le_self (by positivity) (by exact_mod_cast Nat.one_le_two_pow)
        _ < 2^256 := by exact_mod_cast hm.trans (by norm_num)
    rw [hvalue,hover]
    refine ⟨by simpa using hlt,fun _ => ?_⟩
    rw [compactValue_small he]
    norm_cast
  · have hvalue : (setCompact nCompact).1 = nCompact%2^23*2^(8*(nCompact/2^24-3))%2^256 := by simp only [setCompact,if_neg he]
    have hover : (setCompact nCompact).2.2 = true ↔ 2^256 ≤ nCompact%2^23*2^(8*(nCompact/2^24-3)) := by
      rw [← mantissa_overflows hm]
      simp only [setCompact,if_neg he]
      simp [or_assoc]
    rw [compactValue_large (by omega),hvalue]
    refine ⟨hover.trans (by exact_mod_cast Iff.rfl),fun h => ?_⟩
    rw [← Bool.not_eq_true,hover,not_le] at h
    rw [mod_eq_of_lt h,Int.floor_natCast]

/-- Compact targets are a canonical, monotone truncation, and decoding finds every overflow. -/
theorem compact_targets_canonical :
    (∀ x < 2^256, ∃ n, getCompact x = .ok n ∧ (setCompact n).2 = (false,false) ∧ (setCompact n).1 ≤ x ∧
      (x-(setCompact n).1)*2^15 ≤ x ∧ getCompact (setCompact n).1 = .ok n) ∧
    (∀ x x' n n', x ≤ x' → x' < 2^256 → getCompact x = .ok n → getCompact x' = .ok n' →
      (setCompact n).1 ≤ (setCompact n').1) ∧
    ∀ nCompact < 2^32, ((setCompact nCompact).2.2 = true ↔ 2^256 ≤ compactValue nCompact) ∧
      ((setCompact nCompact).2.2 = false → ((setCompact nCompact).1 : ℤ) = ⌊compactValue nCompact⌋) := by
  refine ⟨?_,?_,fun nCompact _ => setCompact_exact nCompact⟩
  · intro x hx
    obtain ⟨n,hn,hset⟩ := getCompact_spec hx
    refine ⟨n,hn,?_⟩
    rw [hset]
    exact ⟨rfl,compactTruncation_le x,compactTruncation_error x,(getCompact_compactTruncation hx).trans hn⟩
  · intro x x' n n' hle hx' hn hn'
    obtain ⟨m,hm,hset⟩ := getCompact_spec (hle.trans_lt hx')
    obtain ⟨m',hm',hset'⟩ := getCompact_spec hx'
    cases hm.symm.trans hn
    cases hm'.symm.trans hn'
    rw [hset,hset']
    exact compactTruncation_mono hle
end Compact

section Ideal

def idealFactor (frac : Nat) : Nat := 65536+(195766423245049*frac+971821376*frac^2+5127*frac^3+2^47)/2^48

def asertExponent (params : PowParams) (nTimeDiff nHeightDiff : Int) : Int :=
  (65536*(nTimeDiff-params.nPowTargetSpacing*(nHeightDiff+1))).tdiv params.nASERTHalfLife

def idealTarget (params : PowParams) (nTimeDiff nHeightDiff : Int) : Int :=
  let e := asertExponent params nTimeDiff nHeightDiff
  let refTarget := (setCompact params.asertAnchorParams.nBits).1
  max 1 (min params.powLimit ⌊(refTarget*idealFactor (e%65536).toNat : ℚ)*2^(e/65536-16)⌋)

theorem idealTarget_bounds {params : PowParams} (hlimit : 0 < params.powLimit) (nTimeDiff nHeightDiff : Int) :
    1 ≤ idealTarget params nTimeDiff nHeightDiff ∧ idealTarget params nTimeDiff nHeightDiff ≤ params.powLimit :=
  ⟨le_max_left ..,max_le (by omega) (min_le_left ..)⟩

theorem asertFactor_eq {frac : Nat} (h : frac < 65536) :
    asertFactor frac = idealFactor frac ∧ 65536 ≤ idealFactor frac ∧ idealFactor frac < 2^17 := by
  have h2 : frac*frac ≤ 65535*65535 := Nat.mul_le_mul (by omega) (by omega)
  have h3 : frac*frac*frac ≤ 65535*65535*65535 := Nat.mul_le_mul h2 (by omega)
  have hsum : 195766423245049*frac+971821376*(frac*frac)+5127*(frac*frac*frac)+2^47 < 2^64 := by omega
  have hpoly : 195766423245049*frac+971821376*frac*frac+5127*frac*frac*frac+2^47 =
      195766423245049*frac+971821376*(frac*frac)+5127*(frac*frac*frac)+2^47 := by ring
  have hpow : 195766423245049*frac+971821376*frac^2+5127*frac^3+2^47 =
      195766423245049*frac+971821376*(frac*frac)+5127*(frac*frac*frac)+2^47 := by ring
  unfold asertFactor idealFactor
  rw [hpoly,hpow,mod_eq_of_lt hsum]
  generalize 195766423245049*frac+971821376*(frac*frac)+5127*(frac*frac*frac)+2^47 = S at hsum
  omega

/-- Shifting back finds every overflow, so that clamping gives what unbounded integers would. -/
theorem shiftTarget_clamped {refTarget factor powLimit : Nat} {shifts : Int} (href : 0 < refTarget)
    (hle : refTarget ≤ powLimit) (hlimit : powLimit < 2^224) (hf17 : factor < 2^17)
    (hlo : -2^32 < shifts) (hhi : shifts < 2^32) :
    let t := shiftTarget refTarget factor powLimit shifts
    ((if t = 0 then 1 else if powLimit < t then powLimit else t : Nat) : Int) =
      max 1 (min (powLimit : Int) ⌊(refTarget*factor : ℚ)*2^shifts⌋) := by
  have hlt : refTarget*factor < 2^241 := by
    calc refTarget*factor < 2^224*2^17 := Nat.mul_lt_mul'' (by omega) hf17
      _ = 2^241 := by norm_num
  have hmod : refTarget*factor%2^256 = refTarget*factor := mod_eq_of_lt (by omega)
  have hcast : (refTarget*factor : ℚ) = ((refTarget*factor : Nat) : ℚ) := by push_cast; rfl
  have hclamp : ∀ t : Nat, shiftTarget refTarget factor powLimit shifts = t ∨
      powLimit ≤ t ∧ shiftTarget refTarget factor powLimit shifts = powLimit →
      ((if shiftTarget refTarget factor powLimit shifts = 0 then 1
        else if powLimit < shiftTarget refTarget factor powLimit shifts then powLimit
        else shiftTarget refTarget factor powLimit shifts : Nat) : Int) = max 1 (min (powLimit : Int) t) := by
    intro t ht
    generalize shiftTarget refTarget factor powLimit shifts = u at ht
    split_ifs <;> omega
  rw [hcast]
  rcases le_or_gt shifts 0 with hs | hs
  · obtain ⟨k,rfl⟩ : ∃ k : Nat, shifts = -(k : Int) := ⟨(-shifts).toNat,by omega⟩
    have hk : (- -(k : Int)).toNat%2^32 = k := by omega
    have hfloor : ⌊((refTarget*factor : Nat) : ℚ)*2^(-(k : Int))⌋ = ((refTarget*factor/2^k : Nat) : Int) := by
      rw [zpow_neg,zpow_natCast,← div_eq_mul_inv]
      have := Rat.floor_intCast_div_natCast ((refTarget*factor : Nat) : Int) (2^k)
      push_cast at this ⊢
      exact this
    rw [hfloor]
    apply hclamp
    left
    rw [shiftTarget,hmod,if_pos hs,hk]
  · obtain ⟨k,rfl⟩ : ∃ k : Nat, shifts = (k : Int) := ⟨shifts.toNat,by omega⟩
    have hk : (k : Int).toNat%2^32 = k := by
      rw [Int.toNat_natCast]
      omega
    have hfloor : ⌊((refTarget*factor : Nat) : ℚ)*2^(k : Int)⌋ = ((refTarget*factor*2^k : Nat) : Int) := by
      rw [zpow_natCast]
      have : ((refTarget*factor : Nat) : ℚ)*2^k = ((refTarget*factor*2^k : Nat) : ℚ) := by push_cast; rfl
      rw [this,Int.floor_natCast]
    rw [hfloor]
    apply hclamp
    rw [shiftTarget,hmod,if_neg (by omega),hk]
    dsimp only
    generalize refTarget*factor = N at *
    rcases Nat.lt_or_ge (N*2^k) (2^256) with hfit | hover
    · left
      rw [mod_eq_of_lt hfit,Nat.mul_div_cancel _ (by positivity),if_neg (by simp)]
    · right
      have hne : N*2^k%2^256/2^k ≠ N := by
        intro he
        have h1 : N*2^k ≤ N*2^k%2^256 := by
          calc N*2^k = N*2^k%2^256/2^k*2^k := by rw [he]
            _ ≤ N*2^k%2^256 := div_mul_le_self ..
        omega
      exact ⟨by omega,if_pos hne⟩

theorem int64_ok {x : Int} (hlo : -2^63 ≤ x) (hhi : x < 2^63) : int64 x = .ok x := if_pos ⟨hlo,hhi⟩

theorem calculateASERT_ok (params : PowParams) (nTimeDiff nHeightDiff : Int)
    (href : 0 < (setCompact params.asertAnchorParams.nBits).1)
    (hle : (setCompact params.asertAnchorParams.nBits).1 ≤ params.powLimit) (hlimit : params.powLimit < 2^224)
    (hspacing : 0 ≤ params.nPowTargetSpacing) (hspacing' : params.nPowTargetSpacing ≤ 600)
    (hhalf : 3600 ≤ params.nASERTHalfLife) (htlo : -2^32 < nTimeDiff) (hthi : nTimeDiff < 2^32)
    (hh : 0 ≤ nHeightDiff) (hh' : nHeightDiff < 2^31) :
    ∃ t : Nat, calculateASERT (setCompact params.asertAnchorParams.nBits).1 params.nPowTargetSpacing nTimeDiff
      nHeightDiff params.powLimit params.nASERTHalfLife = .ok t ∧
        (t : Int) = idealTarget params nTimeDiff nHeightDiff := by
  have h1 : 0 ≤ params.nPowTargetSpacing*nHeightDiff := mul_nonneg hspacing hh
  have h2 : params.nPowTargetSpacing*nHeightDiff ≤ 600*2^31 :=
    mul_le_mul hspacing' (by omega) hh (by norm_num)
  have h3 : params.nPowTargetSpacing*(nHeightDiff+1) =
      params.nPowTargetSpacing*nHeightDiff+params.nPowTargetSpacing := by ring
  have hexp : ((nTimeDiff-params.nPowTargetSpacing*(nHeightDiff+1))*65536).tdiv params.nASERTHalfLife =
      asertExponent params nTimeDiff nHeightDiff := by
    rw [asertExponent,mul_comm]
  have habs : (asertExponent params nTimeDiff nHeightDiff).natAbs < 2^47 := by
    have hhalf' : 3600 ≤ params.nASERTHalfLife.natAbs := by omega
    rw [← hexp,Int.natAbs_tdiv]
    apply lt_of_le_of_lt (div_le_div_left hhalf' (by norm_num))
    apply Nat.div_lt_of_lt_mul
    omega
  unfold calculateASERT
  rw [if_neg (not_not.mpr ⟨href,hle⟩),if_neg (by omega),if_neg (by omega),int64_ok (by omega) (by omega)]
  simp only [Except.bind]
  rw [int64_ok (by omega) (by omega)]
  simp only
  rw [if_neg (by rw [not_le,abs_lt]; omega),int64_ok (by omega) (by omega)]
  simp only
  rw [int64_ok (by omega) (by omega)]
  simp only
  rw [int64_ok (by omega) (by omega)]
  simp only
  rw [int64_ok (by omega) (by omega)]
  simp only
  rw [hexp,int64_ok (by omega) (by omega)]
  simp only
  generalize hE : asertExponent params nTimeDiff nHeightDiff = e at *
  rw [if_neg (by omega),int64_ok (by omega) (by omega)]
  simp only
  have hfrac : (e%65536).toNat < 65536 := by omega
  obtain ⟨hfactor,-,hf2⟩ := asertFactor_eq hfrac
  refine ⟨_,rfl,?_⟩
  rw [hfactor,shiftTarget_clamped href hle hlimit hf2 (by omega) (by omega),idealTarget,hE]
end Ideal

theorem getNextWorkRequired_spec {params : PowParams} (hparams : params = mainPowParams ∨ params = testNetPowParams)
    {pindexPrev : IndexChain} (htime : pindexPrev.nTime < 2^32) (hheight : pindexPrev.nHeight < 2^31)
    (blockTime : Nat) :
    ∃ nBits target, getNextWorkRequired pindexPrev blockTime params = .ok nBits ∧
      setCompact nBits = (target,false,false) ∧ 0 < target ∧ target ≤ params.powLimit ∧
      (1 ≤ pindexPrev.nHeight → ¬(params.fPowAllowMinDifficultyBlocks = true ∧
          (pindexPrev.nTime : Int)+2*params.nPowTargetSpacing < blockTime) →
        ∃ ideal : Nat, (ideal : Int) = idealTarget params
            (pindexPrev.nTime-params.asertAnchorParams.nPrevBlockTime)
            (pindexPrev.nHeight-params.asertAnchorParams.nHeight) ∧
          target = compactTruncation ideal) := by
  have hlimit : 0 < params.powLimit ∧ params.powLimit < 2^224 := by
    rcases hparams with rfl | rfl <;> decide
  have href : 0 < (setCompact params.asertAnchorParams.nBits).1 ∧
      (setCompact params.asertAnchorParams.nBits).1 ≤ params.powLimit := by
    rcases hparams with rfl | rfl <;> decide
  have hconst : 0 ≤ params.nPowTargetSpacing ∧ params.nPowTargetSpacing ≤ 600 ∧ 3600 ≤ params.nASERTHalfLife ∧
      params.asertAnchorParams.nHeight = 0 ∧ 0 < params.asertAnchorParams.nPrevBlockTime ∧
      params.asertAnchorParams.nPrevBlockTime < 2^32 ∧ params.fPowNoRetargeting = false := by
    rcases hparams with rfl | rfl <;> decide
  obtain ⟨hs0,hs600,hhalf,hanchor,hprev0,hprev,hretarget⟩ := hconst
  -- every answer is the compact form of a target between one and the limit
  have hcompact : ∀ a : Nat, 0 < a → a ≤ params.powLimit → ∃ nBits, getCompact a = .ok nBits ∧
      setCompact nBits = (compactTruncation a,false,false) ∧ 0 < compactTruncation a ∧
      compactTruncation a ≤ params.powLimit := by
    intro a ha hle
    obtain ⟨n,hn,hset⟩ := getCompact_spec (hle.trans_lt (by omega))
    exact ⟨n,hn,hset,compactTruncation_pos ha,le_trans (compactTruncation_le a) hle⟩
  unfold getNextWorkRequired
  rw [hretarget,if_neg (by simp),if_pos (by omega)]
  unfold getNextASERTWorkRequired
  cases pindexPrev with
  | genesis nTime nBits =>
    obtain ⟨n,hn,hset,hpos,hle⟩ := hcompact _ hlimit.1 le_rfl
    refine ⟨n,_,hn,hset,hpos,hle,fun h => ?_⟩
    simp [IndexChain.nHeight] at h
  | child pprev nTime nBits =>
    rw [if_neg (by omega),int64_ok (by omega) (by omega)]
    simp only [Except.bind]
    split
    · rename_i hmin
      obtain ⟨n,hn,hset,hpos,hle⟩ := hcompact _ hlimit.1 le_rfl
      exact ⟨n,_,hn,hset,hpos,hle,fun _ h => absurd hmin h⟩
    · rw [int64_ok (by omega) (by omega)]
      simp only
      obtain ⟨t,ht,hideal⟩ := calculateASERT_ok params
        ((IndexChain.child pprev nTime nBits).nTime-params.asertAnchorParams.nPrevBlockTime)
        ((IndexChain.child pprev nTime nBits).nHeight-params.asertAnchorParams.nHeight)
        href.1 href.2 hlimit.2 hs0 hs600 hhalf (by omega) (by omega) (by omega) (by omega)
      rw [ht]
      simp only
      have htpos : 0 < t ∧ t ≤ params.powLimit := by
        have hb := idealTarget_bounds hlimit.1
          ((IndexChain.child pprev nTime nBits).nTime-params.asertAnchorParams.nPrevBlockTime)
          ((IndexChain.child pprev nTime nBits).nHeight-params.asertAnchorParams.nHeight)
        rw [← hideal] at hb
        omega
      obtain ⟨n,hn,hset,hpos,hle⟩ := hcompact t htpos.1 htpos.2
      exact ⟨n,_,hn,hset,hpos,hle,fun _ _ => ⟨t,hideal,rfl⟩⟩

theorem getNextWorkRequired_sample : ∃ nBits target ideal : Nat,
    getNextWorkRequired (.child (.genesis 1782691200 0x1d00ffff) 1782691500 0x1d00ffff) 1782691800 mainPowParams =
      .ok nBits ∧
    setCompact nBits = (target,false,false) ∧ 0 < target ∧ target ≤ mainPowParams.powLimit ∧
    (ideal : Int) = idealTarget mainPowParams (1782691500-mainPowParams.asertAnchorParams.nPrevBlockTime)
      (1-mainPowParams.asertAnchorParams.nHeight) ∧ target = compactTruncation ideal := by
  obtain ⟨nBits,target,h,hset,hpos,hle,hideal⟩ := getNextWorkRequired_spec (.inl rfl)
    (show (IndexChain.child (.genesis 1782691200 0x1d00ffff) 1782691500 0x1d00ffff).nTime < 2^32 by
      norm_num [IndexChain.nTime])
    (by norm_num [IndexChain.nHeight]) 1782691800
  obtain ⟨ideal,hvalue,htarget⟩ := hideal (by norm_num [IndexChain.nHeight]) (by decide)
  exact ⟨nBits,target,ideal,h,hset,hpos,hle,hvalue,htarget⟩
end BitfiniteCore
