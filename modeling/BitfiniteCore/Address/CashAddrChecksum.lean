import BitfiniteCore.Primitives.Token
import BitfiniteCore.Lib.ShiftRegister
import Mathlib.Data.List.Basic
import Mathlib.Tactic.IntervalCases

/-! # The checksum of cash addresses -/

namespace BitfiniteCore
open List Nat

def polyModStep (c : BitVec 64) (d : UInt8) : BitVec 64 :=
  let c0 : BitVec 8 := (c >>> 35).setWidth 8
  let c := ((c &&& 0x07ffffffff#64) <<< 5)^^^d.toBitVec.setWidth 64
  let c := if c0 &&& 0x01#8 ≠ 0 then c^^^0x98f2bc8e61#64 else c
  let c := if c0 &&& 0x02#8 ≠ 0 then c^^^0x79b76d99e2#64 else c
  let c := if c0 &&& 0x04#8 ≠ 0 then c^^^0xf33e5fb3c4#64 else c
  let c := if c0 &&& 0x08#8 ≠ 0 then c^^^0xae2eabe2a8#64 else c
  let c := if c0 &&& 0x10#8 ≠ 0 then c^^^0x1e4f43e470#64 else c
  c

def polyMod (v : Bytes) : BitVec 64 := v.foldl polyModStep 1^^^1

def expandPrefix (pfx : Bytes) : Bytes := pfx.map (fun c => c &&& 0x1f)++[0]

def verifyChecksum (pfx payload : Bytes) : Bool := polyMod (expandPrefix pfx++payload) == 0

def createChecksum (pfx payload : Bytes) : Bytes :=
  let enc := expandPrefix pfx++payload++replicate 8 0
  let mod := polyMod enc
  (List.range 8).map fun i => UInt8.ofNat ((mod >>> (5*(7-i)) &&& 0x1f#64).toNat)

def FiveBits (v : Bytes) : Prop := ∀ d ∈ v, d.toNat < 32

section Register

private def polyModFold (c : BitVec 64) : BitVec 64 :=
  (if c.getLsbD 35 then 0x98f2bc8e61#64 else 0)^^^(if c.getLsbD 36 then 0x79b76d99e2#64 else 0)^^^
    (if c.getLsbD 37 then 0xf33e5fb3c4#64 else 0)^^^(if c.getLsbD 38 then 0xae2eabe2a8#64 else 0)^^^
    (if c.getLsbD 39 then 0x1e4f43e470#64 else 0)

private def polyModCells (c d : BitVec 64) : BitVec 64 := ((c &&& 0x07ffffffff#64) <<< 5)^^^d^^^polyModFold c

private theorem conditional_xor (p : Prop) [Decidable p] (b : Bool) (hp : p ↔ b = true) (c k : BitVec 64) :
    (if p then c^^^k else c) = c^^^(if b then k else 0) := by
  by_cases h : p
  · simp [h,hp.mp h]
  · have hb : b = false := by
      rw [← Bool.not_eq_true]
      exact fun e => h (hp.mpr e)
    simp [h,hb]

private theorem bit_set (x : BitVec 8) :
    (x &&& 0x01#8 ≠ 0 ↔ x.getLsbD 0 = true) ∧ (x &&& 0x02#8 ≠ 0 ↔ x.getLsbD 1 = true) ∧
    (x &&& 0x04#8 ≠ 0 ↔ x.getLsbD 2 = true) ∧ (x &&& 0x08#8 ≠ 0 ↔ x.getLsbD 3 = true) ∧
    (x &&& 0x10#8 ≠ 0 ↔ x.getLsbD 4 = true) := by
  revert x
  decide +kernel

private theorem polyModStep_eq (c : BitVec 64) (d : UInt8) :
    polyModStep c d = polyModCells c (d.toBitVec.setWidth 64) := by
  have hbit : ∀ i < 5, ((c >>> 35).setWidth 8).getLsbD i = c.getLsbD (35+i) := by
    intro i hi
    simp [show i < 8 by omega]
  have h := bit_set ((c >>> 35).setWidth 8)
  rw [hbit 0 (by omega),hbit 1 (by omega),hbit 2 (by omega),hbit 3 (by omega),hbit 4 (by omega)] at h
  simp only [polyModStep]
  rw [conditional_xor _ _ h.1,conditional_xor _ _ h.2.1,conditional_xor _ _ h.2.2.1,conditional_xor _ _ h.2.2.2.1,
    conditional_xor _ _ h.2.2.2.2]
  simp only [polyModCells,polyModFold,BitVec.xor_assoc]

private theorem conditional_constant (b b' : Bool) (k : BitVec 64) :
    (if b ^^ b' then k else 0) = (if b then k else 0)^^^(if b' then k else 0) := by
  cases b <;> cases b' <;> simp

private theorem polyModFold_xor (c c' : BitVec 64) : polyModFold (c^^^c') = polyModFold c^^^polyModFold c' := by
  simp only [polyModFold,BitVec.getLsbD_xor,conditional_constant]
  ac_rfl

private theorem polyModCells_xor (c c' d d' : BitVec 64) :
    polyModCells (c^^^c') (d^^^d') = polyModCells c d^^^polyModCells c' d' := by
  have hmask : (c^^^c') &&& 0x07ffffffff#64 = (c &&& 0x07ffffffff#64)^^^(c' &&& 0x07ffffffff#64) := by
    apply BitVec.eq_of_getLsbD_eq
    intro i hi
    simp only [BitVec.getLsbD_and,BitVec.getLsbD_xor]
    cases (0x07ffffffff#64).getLsbD i <;> simp
  simp only [polyModCells,polyModFold_xor,hmask,BitVec.shiftLeft_xor_distrib]
  ac_rfl

private theorem mask_bit (i : Nat) (hi : i < 64) : (0x07ffffffff#64).getLsbD i = decide (i < 35) := by
  rw [BitVec.getLsbD_ofNat,show (0x07ffffffff : Nat) = 2^35-1 from rfl,testBit_two_pow_sub_one]
  simp [hi]

private theorem polyModFold_zero (c : BitVec 64) (h : ∀ i < 5, c.getLsbD (35+i) = false) : polyModFold c = 0 := by
  have h0 : c.getLsbD 35 = false := h 0 (by omega)
  have h1 : c.getLsbD 36 = false := h 1 (by omega)
  have h2 : c.getLsbD 37 = false := h 2 (by omega)
  have h3 : c.getLsbD 38 = false := h 3 (by omega)
  have h4 : c.getLsbD 39 = false := h 4 (by omega)
  simp only [polyModFold,h0,h1,h2,h3,h4]
  rfl

private theorem polyModFold_low (c : BitVec 64) (i : Nat) (hi : i < 5) : (polyModFold c).getLsbD i = c.getLsbD (35+i) := by
  have hk : ∀ (b : Bool) (k : BitVec 64), (if b then k else 0).getLsbD i = (b && k.getLsbD i) := by
    intro b k
    cases b <;> simp
  simp only [polyModFold,BitVec.getLsbD_xor,hk]
  interval_cases i <;> simp

private theorem getLsbD_of_lt (c : BitVec 64) (k i : Nat) (hc : c.toNat < 2^k) (hi : k ≤ i) : c.getLsbD i = false :=
  testBit_lt_two_pow (hc.trans_le (Nat.pow_le_pow_right (by omega) hi))

private theorem polyModFold_lt (c : BitVec 64) : (polyModFold c).toNat < 2^40 := by
  have hk : ∀ (b : Bool) (k : BitVec 64), k.toNat < 2^40 → (if b then k else 0).toNat < 2^40 := by
    intro b k hlt
    cases b
    · simp
    · exact hlt
  simp only [polyModFold,BitVec.toNat_xor]
  apply xor_lt_two_pow _ (hk _ _ (by decide))
  apply xor_lt_two_pow _ (hk _ _ (by decide))
  apply xor_lt_two_pow _ (hk _ _ (by decide))
  exact xor_lt_two_pow (hk _ _ (by decide)) (hk _ _ (by decide))

private theorem masked_lt (c : BitVec 64) : ((c &&& 0x07ffffffff#64) <<< 5).toNat < 2^40 := by
  have hand : (c &&& 0x07ffffffff#64).toNat < 2^35 := by
    rw [BitVec.toNat_and]
    exact and_lt_two_pow _ (by decide)
  rw [BitVec.toNat_shiftLeft,shiftLeft_eq]
  omega

private theorem polyModCells_clear (c : BitVec 64) (hc : c.toNat < 2^40) (h : polyModCells c 0 = 0) : c = 0 := by
  have hbits : ∀ i, (polyModCells c 0).getLsbD i = false := by
    intro i
    rw [h]
    simp
  have hhigh : ∀ i < 5, c.getLsbD (35+i) = false := by
    intro i hi
    have hb := hbits i
    simp only [polyModCells,BitVec.getLsbD_xor,BitVec.getLsbD_shiftLeft,polyModFold_low c i hi] at hb
    simpa [hi] using hb
  rw [polyModCells,polyModFold_zero c hhigh] at hbits
  apply BitVec.eq_of_getLsbD_eq
  intro i hi
  rw [show (0 : BitVec 64).getLsbD i = false by simp]
  by_cases h35 : i < 35
  · have hb := hbits (i+5)
    simp only [BitVec.getLsbD_xor,BitVec.getLsbD_shiftLeft,BitVec.getLsbD_and,Nat.add_sub_cancel,mask_bit i hi] at hb
    simpa [h35,show i+5 < 64 by omega] using hb
  · by_cases h40 : i < 40
    · have hb := hhigh (i-35) (by omega)
      rwa [show 35+(i-35) = i by omega] at hb
    · exact getLsbD_of_lt c 40 i hc (by omega)

def polyModRegister : ShiftRegister 64 5 8 where
  step := polyModCells
  fits := by decide
  xor := polyModCells_xor
  move c d hc := by
    have hmask : c &&& 0x07ffffffff#64 = c := by
      apply BitVec.eq_of_getLsbD_eq
      intro i hi
      rw [BitVec.getLsbD_and,mask_bit i hi]
      by_cases h35 : i < 35
      · simp [h35]
      · simp [getLsbD_of_lt c 35 i hc (by omega)]
    rw [polyModCells,hmask,polyModFold_zero c (fun i _ => getLsbD_of_lt c 35 (35+i) hc (by omega))]
    simp
  lt c d hc hd := by
    rw [polyModCells,BitVec.toNat_xor,BitVec.toNat_xor]
    apply Nat.xor_lt_two_pow _ (polyModFold_lt c)
    exact Nat.xor_lt_two_pow (masked_lt c) (by omega)
  clear := polyModCells_clear

def symbol (d : UInt8) : BitVec 64 := d.toBitVec.setWidth 64

@[simp] theorem symbol_toNat (d : UInt8) : (symbol d).toNat = d.toNat := by
  simp [symbol]

theorem foldl_polyModStep (v : Bytes) (c : BitVec 64) :
    v.foldl polyModStep c = polyModRegister.run c (v.map symbol) := by
  rw [ShiftRegister.run,foldl_map]
  congr 1
  funext c d
  exact polyModStep_eq c d

theorem polyMod_eq (v : Bytes) : polyMod v = polyModRegister.run 1 (v.map symbol)^^^1 := by
  rw [polyMod,foldl_polyModStep]

theorem symbol_injective : Function.Injective symbol := by
  intro a b h
  apply UInt8.toNat_inj.mp
  rw [← symbol_toNat a,h,symbol_toNat]

theorem symbols_lt {v : Bytes} (hv : FiveBits v) : ∀ d ∈ v.map symbol, d.toNat < 2^5 := by
  intro d hd
  obtain ⟨b,hb,rfl⟩ := mem_map.mp hd
  rw [symbol_toNat]
  exact hv b hb
end Register

section Checksum

theorem verifyChecksum_iff (pfx payload : Bytes) : verifyChecksum pfx payload = true ↔
    polyModRegister.run 1 ((expandPrefix pfx++payload).map symbol) = 1 := by
  rw [verifyChecksum,beq_iff_eq,polyMod_eq]
  exact BitVec.xor_eq_zero_iff

theorem verifyChecksum_window {pfx u v v' t : Bytes} (hv : FiveBits v) (hv' : FiveBits v') (hlen : v.length = v'.length)
    (h8 : v.length ≤ 8) (h : verifyChecksum pfx (u++v++t) = true) (h' : verifyChecksum pfx (u++v'++t) = true) :
    v = v' := by
  by_contra hne
  rw [verifyChecksum_iff] at h h'
  have hdiff := polyModRegister.run_ne_of_window ((expandPrefix pfx++u).map symbol) (v.map symbol) (v'.map symbol)
    (t.map symbol) (symbols_lt hv) (symbols_lt hv') (by simpa using hlen) (by simpa using h8)
    (fun e => hne (symbol_injective.list_map e)) 1
  apply hdiff
  simp only [map_append,append_assoc] at h h' ⊢
  rw [h,h']

theorem createChecksum_length (pfx payload : Bytes) : (createChecksum pfx payload).length = 8 := by
  simp [createChecksum]

theorem createChecksum_fiveBits (pfx payload : Bytes) : FiveBits (createChecksum pfx payload) := by
  intro d hd
  simp only [createChecksum,mem_map] at hd
  obtain ⟨i,-,rfl⟩ := hd
  have hlt : (polyMod (expandPrefix pfx++payload++replicate 8 0) >>> (5*(7-i)) &&& 0x1f#64).toNat < 2^5 := by
    rw [BitVec.toNat_and]
    exact and_lt_two_pow _ (by decide)
  rw [UInt8.toNat_ofNat']
  omega

theorem expandPrefix_fiveBits (pfx : Bytes) : FiveBits (expandPrefix pfx) := by
  intro d hd
  rcases mem_append.mp hd with hd | hd
  · obtain ⟨c,-,rfl⟩ := mem_map.mp hd
    have hlt : (c &&& 0x1f).toNat < 2^5 := by
      rw [UInt8.toNat_and]
      exact and_lt_two_pow _ (by decide)
    exact hlt
  · rw [mem_singleton.mp hd]
    decide

theorem FiveBits.append {v v' : Bytes} (hv : FiveBits v) (hv' : FiveBits v') : FiveBits (v++v') := by
  intro d hd
  exact (mem_append.mp hd).elim (hv d) (hv' d)

private theorem createChecksum_symbols (pfx payload : Bytes) : (createChecksum pfx payload).map symbol =
      ShiftRegister.symbols 5 8 (polyMod (expandPrefix pfx++payload++replicate 8 0)) := by
  have hcell : ∀ (x : BitVec 64) (k : Nat), symbol (UInt8.ofNat ((x >>> k &&& 0x1f#64).toNat)) =
      BitVec.ofNat 64 (x.toNat/2^k%2^5) := by
    intro x k
    have hval : (x >>> k &&& 0x1f#64).toNat = x.toNat/2^k%2^5 := by
      rw [BitVec.toNat_and,BitVec.toNat_ushiftRight,shiftRight_eq_div_pow]
      exact and_two_pow_sub_one_eq_mod _ 5
    apply BitVec.eq_of_toNat_eq
    rw [symbol_toNat,hval,UInt8.toNat_ofNat',BitVec.toNat_ofNat]
    omega
  simp only [createChecksum,map_map]
  generalize polyMod (expandPrefix pfx++payload++replicate 8 0) = mod
  simp only [range_succ,range_zero,map_append,map_nil,map_cons,Function.comp_apply,hcell]
  rfl

theorem verifyChecksum_create (pfx payload : Bytes) (hp : FiveBits payload) :
    verifyChecksum pfx (payload++createChecksum pfx payload) = true := by
  have hfive := (expandPrefix_fiveBits pfx).append hp
  have hrun : ∀ t : Bytes, polyModRegister.run 1 ((expandPrefix pfx++payload++t).map symbol) =
      polyModRegister.run (polyModRegister.run 1 ((expandPrefix pfx++payload).map symbol)) (t.map symbol) := by
    intro t
    rw [map_append,ShiftRegister.run_append]
  rw [verifyChecksum_iff,← append_assoc,hrun,createChecksum_symbols,polyMod_eq,hrun]
  have hlt := polyModRegister.run_lt ((expandPrefix pfx++payload).map symbol) (symbols_lt hfive) 1 (by decide)
  generalize polyModRegister.run 1 ((expandPrefix pfx++payload).map symbol) = s at hlt ⊢
  have hzeros : ∀ d ∈ (replicate 8 (0 : UInt8)).map symbol, d.toNat < 2^5 := by
    intro d hd
    simp at hd
    rw [hd]
    decide
  have hmod := polyModRegister.run_lt _ hzeros s hlt
  generalize hm : polyModRegister.run s ((replicate 8 (0 : UInt8)).map symbol) = m at hmod ⊢
  have hx : (m^^^1).toNat < 2^(5*8) := by
    rw [BitVec.toNat_xor]
    exact xor_lt_two_pow hmod (by decide)
  have hsum := polyModRegister.run_xor ((replicate 8 (0 : UInt8)).map symbol) (ShiftRegister.symbols 5 8 (m^^^1))
    (by simp [ShiftRegister.symbols_length]) s 0
  have hzip : zipWith (·^^^·) ((replicate 8 (0 : UInt8)).map symbol) (ShiftRegister.symbols 5 8 (m^^^1)) =
      ShiftRegister.symbols 5 8 (m^^^1) := by
    simp [ShiftRegister.symbols,symbol,replicate]
  rw [hzip,hm,polyModRegister.run_zero_symbols 8 le_rfl _ hx] at hsum
  rw [show s = s^^^0 by simp,hsum,← BitVec.xor_assoc,BitVec.xor_self]
  rfl
end Checksum

/-- A created checksum verifies, and no burst within eight values goes unnoticed. -/
theorem checksum_detects_burst (pfx : Bytes) :
    (∀ payload : Bytes, FiveBits payload → verifyChecksum pfx (payload++createChecksum pfx payload) = true) ∧
    ∀ (v v' : Bytes) (start : Nat), FiveBits v → FiveBits v' → verifyChecksum pfx v = true → v'.length = v.length →
      v' ≠ v → (∀ i, v[i]? ≠ v'[i]? → start ≤ i ∧ i < start+8) → verifyChecksum pfx v' = false := by
  refine ⟨verifyChecksum_create pfx,?_⟩
  intro v v' start hv hv' hver hlen hne hwindow
  have hsplit : ∀ l : Bytes, l = l.take start++(l.drop start).take 8++l.drop (start+8) := by
    intro l
    rw [append_assoc,← drop_drop,take_append_drop,take_append_drop]
  have hfront : v'.take start = v.take start := by
    apply ext_getElem?
    intro i
    by_cases hi : i < start
    · rw [getElem?_take_of_lt hi,getElem?_take_of_lt hi]
      by_contra h
      have := hwindow i (fun e => h e.symm)
      omega
    · simp [hi]
  have hback : v'.drop (start+8) = v.drop (start+8) := by
    apply ext_getElem?
    intro i
    rw [getElem?_drop,getElem?_drop]
    by_contra h
    have := hwindow (start+8+i) (fun e => h e.symm)
    omega
  rw [← Bool.not_eq_true]
  intro hver'
  rw [hsplit v] at hver
  rw [hsplit v',hfront,hback] at hver'
  have hmid : (v.drop start).take 8 = (v'.drop start).take 8 := by
    apply verifyChecksum_window _ _ _ _ hver hver'
    · exact fun d hd => hv d (mem_of_mem_drop (mem_of_mem_take hd))
    · exact fun d hd => hv' d (mem_of_mem_drop (mem_of_mem_take hd))
    · simp [hlen]
    · simp
  apply hne
  rw [hsplit v,hsplit v',hfront,hback,hmid]
end BitfiniteCore
