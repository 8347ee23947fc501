import BitfiniteCore.Primitives.WireEncoding

/-! # Variable-length integers -/

namespace BitfiniteCore

def getSizeOfCompactSize (nSize : Nat) : Nat :=
  if nSize < 253 then 1
  else if nSize ≤ 0xffff then 1+2
  else if nSize ≤ 0xffffffff then 1+4
  else 1+8

theorem getSizeOfCompactSize_eq (n : Nat) : getSizeOfCompactSize n = (writeCompactSize n).length := by
  simp only [getSizeOfCompactSize,writeCompactSize]
  split
  · simp
  split
  · simp
  split
  · simp
  · simp

def getSizeOfVarInt (n : Nat) : Nat :=
  if n ≤ 0x7f then 1 else 1+getSizeOfVarInt (n/128-1)
termination_by n
decreasing_by omega

private theorem writeVarIntDigits_length (n : Nat) (more : Bool) :
    (writeVarIntDigits n more).length = getSizeOfVarInt n := by
  induction n using Nat.strong_induction_on generalizing more with
  | _ n ih =>
    rw [writeVarIntDigits,getSizeOfVarInt]
    by_cases hs : n ≤ 0x7f
    · simp [hs]
    · simp only [if_neg hs,List.length_append,List.length_singleton,ih (n/128-1) (by omega)]
      omega

theorem getSizeOfVarInt_eq (n : Nat) : getSizeOfVarInt n = (writeVarInt n).length :=
  (writeVarIntDigits_length n false).symm

private theorem getSizeOfVarInt_le (k n : Nat) (hn : n < 128^(k+1)) : getSizeOfVarInt n ≤ k+1 := by
  induction k generalizing n with
  | zero =>
    rw [getSizeOfVarInt,if_pos (by omega)]
  | succ k ih =>
    rw [getSizeOfVarInt]
    split
    · omega
    · have := ih (n/128-1) (by omega)
      omega

theorem writeVarInt_length_le (w n : Nat) (hw : 0 < w) (hn : n < 2^w) : (writeVarInt n).length ≤ (w+6)/7 := by
  have hpow : 2^w ≤ 128^((w-1)/7+1) := by
    rw [show (128 : Nat) = 2^7 from rfl,← Nat.pow_mul]
    exact Nat.pow_le_pow_right (by omega) (by omega)
  have hlen := getSizeOfVarInt_le ((w-1)/7) n (by omega)
  rw [getSizeOfVarInt_eq] at hlen
  omega

private def varIntRead : Nat → Bytes
  | 0 => []
  | n+1 => writeVarIntDigits n true

private theorem varIntRead_digit (n : Nat) (ch : UInt8) (more : Bool)
    (hch : ch.toNat = ch.toNat%128+(if more then 128 else 0)) :
    writeVarIntDigits (n*128+ch.toNat%128) more = varIntRead n++[ch] := by
  have hdigit : UInt8.ofNat ((n*128+ch.toNat%128)%128+(if more then 128 else 0)) = ch := by
    rw [show (n*128+ch.toNat%128)%128 = ch.toNat%128 by omega,← hch]
    exact UInt8.ofNat_toNat
  rw [writeVarIntDigits]
  simp only [hdigit]
  cases n with
  | zero =>
    rw [if_pos (by omega)]
    rfl
  | succ n =>
    rw [if_neg (by omega),show ((n+1)*128+ch.toNat%128)/128-1 = n by omega]
    rfl

private theorem varIntRead_more (n : Nat) (ch : UInt8) (hch : ¬ch.toNat < 128) :
    varIntRead (n*128+ch.toNat%128+1) = varIntRead n++[ch] := by
  have hlt := ch.toNat_lt
  exact varIntRead_digit n ch true (by simp only [if_true]; omega)

private theorem varIntRead_last (n : Nat) (ch : UInt8) (hch : ch.toNat < 128) :
    writeVarInt (n*128+ch.toNat%128) = varIntRead n++[ch] :=
  varIntRead_digit n ch false (by simp only [Bool.false_eq_true,if_false]; omega)

private theorem readVarIntFrom_exact {max n m : Nat} {s rest : Bytes} (h : readVarIntFrom max n s = some (m,rest)) :
    varIntRead n++s = writeVarInt m++rest := by
  induction s generalizing n with
  | nil => simp [readVarIntFrom] at h
  | cons ch s ih =>
    rw [readVarIntFrom] at h
    split at h
    · simp at h
    by_cases hch : ch.toNat < 128
    · simp only [if_pos hch,Option.some.injEq,Prod.mk.injEq] at h
      rw [← h.1,← h.2,varIntRead_last n ch hch]
      simp
    · simp only [if_neg hch] at h
      split at h
      · simp at h
      · have hrest := ih h
        rw [varIntRead_more n ch hch] at hrest
        rw [← hrest]
        simp

theorem readVarInt_exact {max n : Nat} {s rest : Bytes} (h : readVarInt max s = some (n,rest)) :
    s = writeVarInt n++rest :=
  readVarIntFrom_exact h

def readVarIntLoop (w : Nat) : BitVec w → Bytes → Except String (BitVec w × Bytes)
  | _, [] => .error "CDataStream::read(): end of data"
  | n, chData::s =>
    if n > BitVec.allOnes w >>> 7 then .error "ReadVarInt(): size too large"
    else
      let n := n <<< 7 ||| BitVec.ofNat w (chData &&& 0x7f).toNat
      if chData &&& 0x80 = 0 then .ok (n,s)
      else if n = BitVec.allOnes w then .error "ReadVarInt(): size too large"
      else readVarIntLoop w (n+1) s

def readVarIntType (w : Nat) : Bytes → Except String (BitVec w × Bytes) := readVarIntLoop w 0

private theorem low_bits (ch : UInt8) : (ch &&& 0x7f).toNat = ch.toNat%128 := by
  rw [UInt8.toNat_and]
  exact Nat.and_two_pow_sub_one_eq_mod ch.toNat 7

private theorem continuation_bit (ch : UInt8) : (ch &&& 0x80 = 0) ↔ ch.toNat < 128 := by
  have hbits : ∀ i : Fin 256, i.val &&& 128 = 0 ↔ i.val < 128 := by decide +kernel
  rw [← UInt8.toNat_inj,UInt8.toNat_and]
  exact hbits ⟨ch.toNat,ch.toNat_lt⟩

section Width

variable {w : Nat}

private theorem width_shift (n : BitVec w) : (n > BitVec.allOnes w >>> 7) ↔ n.toNat > (2^w-1)/128 := by
  rw [gt_iff_lt,BitVec.lt_def,BitVec.toNat_ushiftRight,BitVec.toNat_allOnes,Nat.shiftRight_eq_div_pow]

private theorem width_digit (n : BitVec w) (d : Nat) (hd : d < 128) (hn : ¬n.toNat > (2^w-1)/128) (hw : 7 ≤ w) :
    (n <<< 7 ||| BitVec.ofNat w d).toNat = n.toNat*128+d := by
  have hpow : 2^7 ∣ 2^w := Nat.pow_dvd_pow 2 hw
  have hshift : (n.toNat <<< 7)%2^w = 2^7*n.toNat := by
    rw [Nat.shiftLeft_eq,Nat.mod_eq_of_lt (by omega),Nat.mul_comm]
  rw [BitVec.toNat_or,BitVec.toNat_shiftLeft,BitVec.toNat_ofNat,hshift,Nat.mod_eq_of_lt (by omega),
    ← Nat.two_pow_add_eq_or_of_lt (by omega)]
  omega

private theorem width_succ (n : BitVec w) (hn : n ≠ BitVec.allOnes w) : (n+1).toNat = n.toNat+1 := by
  have hne : n.toNat ≠ 2^w-1 := by
    intro h
    apply hn
    apply BitVec.eq_of_toNat_eq
    rw [h,BitVec.toNat_allOnes]
  rw [BitVec.toNat_add,show (1 : BitVec w).toNat = 1%2^w from BitVec.toNat_ofNat 1 w,Nat.add_mod_mod,
    Nat.mod_eq_of_lt (by omega)]

theorem readVarIntLoop_agrees (hw : 8 ≤ w) (n : BitVec w) (s : Bytes) :
    (readVarIntLoop w n s).toOption.map (fun r => (r.1.toNat,r.2)) = readVarIntFrom (2^w-1) n.toNat s := by
  induction s generalizing n with
  | nil => rfl
  | cons ch s ih =>
    rw [readVarIntLoop,readVarIntFrom]
    by_cases hbig : n.toNat > (2^w-1)/128
    · rw [if_pos ((width_shift n).mpr hbig),if_pos hbig]
      rfl
    · have hdigit := width_digit n (ch.toNat%128) (by omega) hbig (by omega)
      rw [if_neg (fun h => hbig ((width_shift n).mp h)),if_neg hbig]
      simp only [low_bits,continuation_bit]
      generalize n <<< 7 ||| BitVec.ofNat w (ch.toNat%128) = m at hdigit
      rw [← hdigit]
      by_cases hch : ch.toNat < 128
      · simp [hch,Except.toOption]
      · by_cases hmax : m = BitVec.allOnes w
        · rw [if_neg hch,if_neg hch,if_pos hmax,if_pos (by rw [hmax,BitVec.toNat_allOnes])]
          rfl
        · have hne : m.toNat ≠ 2^w-1 := by
            intro h
            apply hmax
            apply BitVec.eq_of_toNat_eq
            rw [h,BitVec.toNat_allOnes]
          rw [if_neg hch,if_neg hch,if_neg hmax,if_neg hne,ih,width_succ m hmax]

theorem readVarIntType_exact (hw : 8 ≤ w) {n : BitVec w} {s rest : Bytes} (h : readVarIntType w s = .ok (n,rest)) :
    s = writeVarInt n.toNat++rest := by
  have hagree := readVarIntLoop_agrees hw 0 s
  rw [readVarIntType] at h
  rw [h] at hagree
  have hread : readVarInt (2^w-1) s = some (n.toNat,rest) := by
    simpa [readVarInt,Except.toOption] using hagree.symm
  exact readVarInt_exact hread

def varIntValue (more : Bytes) (last : UInt8) (n : Nat) : Nat :=
  more.foldl (fun n ch => n*128+ch.toNat%128+1) n*128+last.toNat%128

private theorem varIntValue_le (more : Bytes) (last : UInt8) (n : Nat) : n*128 ≤ varIntValue more last n := by
  induction more generalizing n with
  | nil => simp [varIntValue]
  | cons ch more ih =>
    have := ih (n*128+ch.toNat%128+1)
    simp only [varIntValue,List.foldl_cons] at this ⊢
    omega

private theorem readVarIntLoop_value (hw : 8 ≤ w) (more rest : Bytes) (last : UInt8)
    (hmore : ∀ ch ∈ more, 128 ≤ ch.toNat) (hlast : last.toNat < 128) (n : BitVec w) :
    readVarIntLoop w n (more++last::rest) =
      if varIntValue more last n.toNat < 2^w then .ok (BitVec.ofNat w (varIntValue more last n.toNat),rest)
      else .error "ReadVarInt(): size too large" := by
  induction more generalizing n with
  | nil =>
    rw [List.nil_append,readVarIntLoop]
    by_cases hbig : n.toNat > (2^w-1)/128
    · rw [if_pos ((width_shift n).mpr hbig),if_neg]
      have := varIntValue_le [] last n.toNat
      omega
    · have hdigit := width_digit n (last.toNat%128) (by omega) hbig (by omega)
      have hval : varIntValue [] last n.toNat = n.toNat*128+last.toNat%128 := rfl
      rw [if_neg (fun h => hbig ((width_shift n).mp h)),hval,← hdigit]
      simp only [low_bits,continuation_bit,if_pos hlast]
      rw [if_pos (BitVec.isLt _),BitVec.ofNat_toNat,BitVec.setWidth_eq]
  | cons ch more ih =>
    have hch : ¬ch.toNat < 128 := by
      have := hmore ch (by simp)
      omega
    have hstep : varIntValue (ch::more) last n.toNat = varIntValue more last (n.toNat*128+ch.toNat%128+1) := rfl
    have hle := varIntValue_le more last (n.toNat*128+ch.toNat%128+1)
    rw [List.cons_append,readVarIntLoop,hstep]
    by_cases hbig : n.toNat > (2^w-1)/128
    · rw [if_pos ((width_shift n).mpr hbig),if_neg (by omega)]
    · have hdigit := width_digit n (ch.toNat%128) (by omega) hbig (by omega)
      rw [if_neg (fun h => hbig ((width_shift n).mp h))]
      simp only [low_bits,continuation_bit,if_neg hch]
      generalize n <<< 7 ||| BitVec.ofNat w (ch.toNat%128) = m at hdigit
      rw [← hdigit] at hle ⊢
      by_cases hmax : m = BitVec.allOnes w
      · have hm : m.toNat = 2^w-1 := by rw [hmax,BitVec.toNat_allOnes]
        rw [if_pos hmax,if_neg (by omega)]
      · rw [if_neg hmax,ih (fun c hc => hmore c (by simp [hc])),width_succ m hmax]

theorem readVarIntType_write (hw : 8 ≤ w) (n : BitVec w) (rest : Bytes) :
    readVarIntType w (writeVarInt n.toNat++rest) = .ok (n,rest) := by
  have hread := readVarInt_write (2^w-1) n.toNat (by omega) rest
  have hagree := readVarIntLoop_agrees hw 0 (writeVarInt n.toNat++rest)
  rw [show (0 : BitVec w).toNat = 0 from BitVec.toNat_zero,← readVarInt,hread] at hagree
  rw [readVarIntType]
  cases hloop : readVarIntLoop w 0 (writeVarInt n.toNat++rest) with
  | error e =>
    rw [hloop] at hagree
    cases hagree
  | ok r =>
    simp only [hloop,Except.toOption,Option.map_some,Option.some.injEq,Prod.mk.injEq] at hagree
    rw [← hagree.2,← BitVec.eq_of_toNat_eq hagree.1]
end Width

/-- Both codes for sizes have one encoding for every number, at every width of the integer type. -/
theorem variableLengthIntegers_canonical : (∀ (n limit : Nat) (rest : Bytes), n < 2^64 → n ≤ limit →
      readCompactSizeWithLimit limit (writeCompactSize n++rest) = some (n,rest)) ∧
    (∀ (n limit : Nat) (s rest : Bytes), readCompactSizeWithLimit limit s = some (n,rest) →
      s = writeCompactSize n++rest) ∧
    (∀ n, getSizeOfCompactSize n = (writeCompactSize n).length) ∧
    (∀ w, 8 ≤ w → ∀ n : BitVec w, (∀ rest, readVarIntType w (writeVarInt n.toNat++rest) = .ok (n,rest)) ∧
      (∀ s rest, readVarIntType w s = .ok (n,rest) → s = writeVarInt n.toNat++rest) ∧
      getSizeOfVarInt n.toNat = (writeVarInt n.toNat).length ∧ (writeVarInt n.toNat).length ≤ (w+6)/7) ∧
    (∀ w, 8 ≤ w → ∀ (more rest : Bytes) (last : UInt8), (∀ ch ∈ more, 0x80 ≤ ch.toNat) → last.toNat < 0x80 →
      readVarIntType w (more++last::rest) =
        if varIntValue more last 0 < 2^w then .ok (BitVec.ofNat w (varIntValue more last 0),rest)
        else .error "ReadVarInt(): size too large") := by
  refine ⟨fun n limit rest hn hl => readCompactSizeWithLimit_write limit n rest hn hl,
    fun n limit s rest h => readCompactSizeWithLimit_exact h,getSizeOfCompactSize_eq,?_,?_⟩
  · intro w hw n
    exact ⟨readVarIntType_write hw n,fun s rest => readVarIntType_exact hw,getSizeOfVarInt_eq n.toNat,
      writeVarInt_length_le w n.toNat (by omega) n.isLt⟩
  · intro w hw more rest last hmore hlast
    have hread := readVarIntLoop_value hw more rest last hmore hlast (0 : BitVec w)
    rwa [show (0 : BitVec w).toNat = 0 from BitVec.toNat_zero] at hread

example : readVarIntType 8 [0x80,0x7f] = .ok (255#8,[]) := by decide

example : readVarIntType 8 [0x81,0x00] = .error "ReadVarInt(): size too large" := by decide
end BitfiniteCore
