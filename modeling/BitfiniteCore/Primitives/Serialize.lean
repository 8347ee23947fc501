import BitfiniteCore.Primitives.Token
import Mathlib.Tactic.Ring

/-!
# Byte streams

`none` stands for the `std::ios_base::failure` that the source throws.
-/

namespace BitfiniteCore
open List

abbrev Reader (α : Type) := Bytes → Option (α × Bytes)

/-- `k` little-endian bytes of a number. -/
def leBytes : Nat → Nat → Bytes
  | 0, _ => []
  | k+1, n => UInt8.ofNat (n%256) :: leBytes k (n/256)

def leNat : Bytes → Nat
  | [] => 0
  | b::bs => b.toNat + 256*leNat bs

def readBytes (k : Nat) : Reader Bytes := fun s =>
  if k ≤ s.length then some (s.take k,s.drop k) else none

def readLE (k : Nat) : Reader Nat := fun s =>
  (readBytes k s).map fun (bs,rest) => (leNat bs,rest)

@[simp] theorem leBytes_length (k n : Nat) : (leBytes k n).length = k := by
  induction k generalizing n with
  | zero => rfl
  | succ k ih => simp [leBytes,ih]

theorem leNat_leBytes (k n : Nat) : leNat (leBytes k n) = n%256^k := by
  induction k generalizing n with
  | zero => simp [leBytes,leNat,Nat.mod_one]
  | succ k ih =>
    have hb : (UInt8.ofNat (n%256)).toNat = n%256 := by simp
    rw [leBytes,leNat,ih,hb,Nat.pow_succ,Nat.mul_comm (256^k) 256,Nat.mod_mul]

theorem readBytes_append (bs rest : Bytes) : readBytes bs.length (bs++rest) = some (bs,rest) := by
  simp [readBytes]

theorem readLE_leBytes (k n : Nat) (rest : Bytes) (hn : n < 256^k) :
    readLE k (leBytes k n++rest) = some (n,rest) := by
  have h := readBytes_append (leBytes k n) rest
  rw [leBytes_length] at h
  simp [readLE,h,leNat_leBytes,Nat.mod_eq_of_lt hn]

def writeCompactSize (nSize : Nat) : Bytes :=
  if nSize < 253 then leBytes 1 nSize
  else if nSize ≤ 0xffff then 253 :: leBytes 2 nSize
  else if nSize ≤ 0xffffffff then 254 :: leBytes 4 nSize
  else 255 :: leBytes 8 nSize

def readCompactSizeWithLimit (maxSize : Nat) : Reader Nat := fun s =>
  match s with
  | [] => none
  | chSize::s =>
    let sized : Option (Nat × Bytes) :=
      if chSize < 253 then some (chSize.toNat,s)
      else if chSize = 253 then (readLE 2 s).filter fun r => 253 ≤ r.1
      else if chSize = 254 then (readLE 4 s).filter fun r => 0x10000 ≤ r.1
      else (readLE 8 s).filter fun r => 0x100000000 ≤ r.1
    sized.filter fun r => r.1 ≤ maxSize

def maxSize : Nat := 0x02000000

theorem readCompactSizeWithLimit_write (lim n : Nat) (rest : Bytes) (hn : n < 2^64) (hl : n ≤ lim) :
    readCompactSizeWithLimit lim (writeCompactSize n++rest) = some (n,rest) := by
  unfold writeCompactSize
  split
  · rename_i h
    have hb : (UInt8.ofNat (n%256)).toNat = n := by simp; omega
    have hlt : UInt8.ofNat (n%256) < 253 := by rw [UInt8.lt_iff_toNat_lt,hb]; exact h
    change readCompactSizeWithLimit lim (UInt8.ofNat (n%256)::rest) = some (n,rest)
    simp only [readCompactSizeWithLimit,if_pos hlt,hb]
    simp [Option.filter,hl]
  split
  · rw [cons_append]
    simp only [readCompactSizeWithLimit,readLE_leBytes 2 n rest (by omega)]
    simp [Option.filter,hl,show 253 ≤ n by omega]
  split
  · rw [cons_append]
    simp only [readCompactSizeWithLimit,readLE_leBytes 4 n rest (by omega)]
    simp [Option.filter,hl,show 65536 ≤ n by omega]
  · rw [cons_append]
    simp only [readCompactSizeWithLimit,readLE_leBytes 8 n rest (by omega)]
    simp [Option.filter,hl,show 4294967296 ≤ n by omega]

def writeVarIntDigits (n : Nat) (more : Bool) : Bytes :=
  let digit := UInt8.ofNat (n%128+(if more then 128 else 0))
  if n ≤ 0x7f then [digit] else writeVarIntDigits (n/128-1) true++[digit]
termination_by n
decreasing_by omega

def writeVarInt (n : Nat) : Bytes := writeVarIntDigits n false

/-- `ReadVarInt` with the digits read so far in `n`; `max` is the largest value of
the integer type. -/
def readVarIntFrom (max : Nat) : Nat → Reader Nat
  | _, [] => none
  | n, chData::s =>
    if n > max/128 then none
    else
      let n := n*128+chData.toNat%128
      if chData.toNat < 128 then some (n,s)
      else if n = max then none
      else readVarIntFrom max (n+1) s

def readVarInt (max : Nat) : Reader Nat := readVarIntFrom max 0

private theorem digit_more (n : Nat) : (UInt8.ofNat (n%128+128)).toNat = n%128+128 := by
  simp; omega

private theorem digit_last (n : Nat) : (UInt8.ofNat (n%128)).toNat = n%128 := by
  simp; omega

private theorem readVarIntFrom_more (max n : Nat) (hn : n < max) (rest : Bytes) :
    readVarIntFrom max 0 (writeVarIntDigits n true++rest) = readVarIntFrom max (n+1) rest := by
  induction n using Nat.strong_induction_on generalizing rest with
  | _ n ih =>
    rw [writeVarIntDigits]
    simp only [if_true]
    by_cases hs : n ≤ 0x7f
    · rw [if_pos hs,singleton_append,readVarIntFrom]
      simp only [digit_more]
      rw [if_neg (by omega),if_neg (by omega),if_neg (by omega)]
      congr 1
      omega
    · rw [if_neg hs,append_assoc,ih (n/128-1) (by omega) (by omega),singleton_append,readVarIntFrom]
      simp only [digit_more]
      rw [if_neg (by omega),if_neg (by omega),if_neg (by omega)]
      congr 1
      omega

theorem readVarInt_write (max n : Nat) (hn : n ≤ max) (rest : Bytes) :
    readVarInt max (writeVarInt n++rest) = some (n,rest) := by
  unfold readVarInt writeVarInt
  rw [writeVarIntDigits]
  simp only [Bool.false_eq_true,if_false,Nat.add_zero]
  by_cases hs : n ≤ 0x7f
  · rw [if_pos hs,singleton_append,readVarIntFrom]
    simp only [digit_last]
    rw [if_neg (by omega),if_pos (by omega)]
    congr 2
    omega
  · rw [if_neg hs,append_assoc,readVarIntFrom_more max (n/128-1) (by omega),singleton_append,readVarIntFrom]
    simp only [digit_last]
    rw [if_neg (by omega),if_pos (by omega)]
    congr 2
    omega

def serializeUint256 (x : Uint256) : Bytes := leBytes 32 x.toNat

def unserializeUint256 : Reader Uint256 := fun s =>
  (readLE 32 s).map fun (n,rest) => (BitVec.ofNat 256 n,rest)

theorem unserializeUint256_serialize (x : Uint256) (rest : Bytes) :
    unserializeUint256 (serializeUint256 x++rest) = some (x,rest) := by
  have hx : x.toNat < 256^32 := by
    have := x.isLt
    norm_num at this ⊢
    exact this
  simp [unserializeUint256,serializeUint256,readLE_leBytes 32 _ rest hx]
end BitfiniteCore
