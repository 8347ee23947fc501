import BitfiniteCore.Address.CashAddr
import BitfiniteCore.Lib.Radix
import Mathlib.Data.List.DropRight

/-! # Base58 -/

namespace BitfiniteCore
open Radix List

def pszBase58 : Bytes :=
  ['1','2','3','4','5','6','7','8','9','A','B','C','D','E','F','G','H','J','K','L','M','N','P','Q','R','S','T','U',
    'V','W','X','Y','Z','a','b','c','d','e','f','g','h','i','j','k','m','n','o','p','q','r','s','t','u','v','w','x',
    'y','z'].map charOf

def mapBase58 : List Int :=
  [-1,-1,-1,-1,-1,-1,-1,-1,-1,-1,-1,-1,-1,-1,-1,-1,-1,-1,-1,-1,-1,-1,-1,-1,-1,-1,-1,-1,-1,-1,-1,-1,
    -1,-1,-1,-1,-1,-1,-1,-1,-1,-1,-1,-1,-1,-1,-1,-1,-1,0,1,2,3,4,5,6,7,8,-1,-1,-1,-1,-1,-1,
    -1,9,10,11,12,13,14,15,16,-1,17,18,19,20,21,-1,22,23,24,25,26,27,28,29,30,31,32,-1,-1,-1,-1,-1,
    -1,33,34,35,36,37,38,39,40,41,42,43,-1,44,45,46,47,48,49,50,51,52,53,54,55,56,57,-1,-1,-1,-1,-1,
    -1,-1,-1,-1,-1,-1,-1,-1,-1,-1,-1,-1,-1,-1,-1,-1,-1,-1,-1,-1,-1,-1,-1,-1,-1,-1,-1,-1,-1,-1,-1,-1,
    -1,-1,-1,-1,-1,-1,-1,-1,-1,-1,-1,-1,-1,-1,-1,-1,-1,-1,-1,-1,-1,-1,-1,-1,-1,-1,-1,-1,-1,-1,-1,-1,
    -1,-1,-1,-1,-1,-1,-1,-1,-1,-1,-1,-1,-1,-1,-1,-1,-1,-1,-1,-1,-1,-1,-1,-1,-1,-1,-1,-1,-1,-1,-1,-1,
    -1,-1,-1,-1,-1,-1,-1,-1,-1,-1,-1,-1,-1,-1,-1,-1,-1,-1,-1,-1,-1,-1,-1,-1,-1,-1,-1,-1,-1,-1,-1,-1]

def isSpace (c : UInt8) : Bool :=
  c == charOf ' ' || c == 0x0c || c == charOf '\n' || c == charOf '\r' || c == charOf '\t' || c == 0x0b

/-- The loop over the characters of `DecodeBase58`; `none` is the return value false. -/
def decodeBase58Loop (zeroes max_ret_len : Nat) : Bytes → List Nat → Nat → Except Stop (Option (Bytes × List Nat × Nat))
  | [], b256, length => .ok (some ([],b256,length))
  | c::psz, b256, length =>
    if isSpace c then .ok (some (c::psz,b256,length))
    else
      let carry := mapBase58.getD c.toNat (-1)
      if carry = -1 then .ok none
      else
        let r := mulAdd 58 256 b256 carry.toNat length
        if r.2.1 ≠ 0 then .error (.assertion "carry == 0")
        else if r.2.2+zeroes > max_ret_len then .ok none
        else decodeBase58Loop zeroes max_ret_len psz r.1 r.2.2

def decodeBase58 (str : Bytes) (max_ret_len : Nat) : Except Stop (Option Bytes) :=
  -- ValidAsCString
  if 0 ∈ str then .ok none
  else
    let psz := str.dropWhile isSpace
    let zeroes := (psz.takeWhile (· == charOf '1')).length
    if zeroes > max_ret_len then .ok none
    else
      let psz := psz.dropWhile (· == charOf '1')
      let size := psz.length*733/1000+1
      match decodeBase58Loop zeroes max_ret_len psz (replicate size 0) 0 with
      | .error e => .error e
      | .ok none => .ok none
      | .ok (some (psz,b256,length)) =>
        if psz.dropWhile isSpace ≠ [] then .ok none
        else .ok (some (replicate zeroes 0++(b256.reverse.drop (size-length)).map UInt8.ofNat))

def encodeBase58Loop : Bytes → List Nat → Nat → Except Stop (List Nat × Nat)
  | [], b58, length => .ok (b58,length)
  | ch::rest, b58, length =>
    let r := mulAdd 256 58 b58 ch.toNat length
    if r.2.1 ≠ 0 then .error (.assertion "carry == 0") else encodeBase58Loop rest r.1 r.2.2

def encodeBase58 (bytes : Bytes) : Except Stop Bytes :=
  let zeroes := (bytes.takeWhile (· == 0)).length
  let rest := bytes.dropWhile (· == 0)
  let size := rest.length*138/100+1
  match encodeBase58Loop rest (replicate size 0) 0 with
  | .error e => .error e
  | .ok (b58,length) =>
    .ok (replicate zeroes (charOf '1')++
      ((b58.reverse.drop (size-length)).dropWhile (· == 0)).map fun d => pszBase58.getD d 0)

def trimSpaces (str : Bytes) : Bytes := (str.dropWhile isSpace).rdropWhile isSpace

section Digits

def digitChar (d : Nat) : UInt8 := pszBase58.getD d 0

private theorem digit_tables :
    (∀ d : Fin 58, mapBase58.getD (digitChar d).toNat (-1) = d ∧ isSpace (digitChar d) = false ∧
      digitChar d ≠ 0 ∧ (digitChar d = charOf '1' ↔ d.val = 0)) ∧
    ∀ p ∈ mapBase58.zipIdx, p.1 ≠ -1 → p.1.toNat < 58 ∧ digitChar p.1.toNat = UInt8.ofNat p.2 := by
  decide +kernel

theorem mapBase58_digitChar {d : Nat} (hd : d < 58) : mapBase58.getD (digitChar d).toNat (-1) = d :=
  (digit_tables.1 ⟨d,hd⟩).1

theorem isSpace_digitChar {d : Nat} (hd : d < 58) : isSpace (digitChar d) = false := (digit_tables.1 ⟨d,hd⟩).2.1

theorem digitChar_ne_zero {d : Nat} (hd : d < 58) : digitChar d ≠ 0 := (digit_tables.1 ⟨d,hd⟩).2.2.1

theorem digitChar_one {d : Nat} (hd : d < 58) : digitChar d = charOf '1' ↔ d = 0 := (digit_tables.1 ⟨d,hd⟩).2.2.2

theorem mapBase58_some {c : UInt8} (h : mapBase58.getD c.toNat (-1) ≠ -1) :
    (mapBase58.getD c.toNat (-1)).toNat < 58 ∧ digitChar (mapBase58.getD c.toNat (-1)).toNat = c := by
  rw [getD_eq_getElem?_getD] at h ⊢
  cases hv : mapBase58[c.toNat]? with
  | none => exact absurd (by rw [hv]; rfl) h
  | some v =>
    rw [hv] at h
    have htable := digit_tables.2 (v,c.toNat) (mem_zipIdx_iff_getElem?.mpr hv) h
    rwa [UInt8.ofNat_toNat] at htable

theorem b256_fits (n : Nat) : 58^n ≤ 256^(n*733/1000+1) := pow_fits (by decide) (by decide) (by decide +kernel) n

theorem b58_fits (n : Nat) : 256^n ≤ 58^(n*138/100+1) := pow_fits (by decide) (by decide) (by decide +kernel) n

private theorem buffer_top (base size n : Nat) :
    (Nat.digitsAppend base size n).reverse.drop (size-len base n) = (Nat.digits base n).reverse := by
  rw [digitsAppend_eq,reverse_append,reverse_replicate]
  exact drop_left' (by simp)
end Digits

section Encode

variable {rest : Bytes}

private theorem encodeBase58Loop_eq (rest : Bytes) (size n : Nat) (hfit : (n+1)*256^rest.length ≤ 58^size) :
    encodeBase58Loop rest (Nat.digitsAppend 58 size n) (len 58 n) =
      .ok (Nat.digitsAppend 58 size (value 256 (rest.map UInt8.toNat) n),len 58 (value 256 (rest.map UInt8.toNat) n)) := by
  induction rest generalizing n with
  | nil => rfl
  | cons ch rest ih =>
    have hch := ch.toNat_lt
    have hnext : (256*n+ch.toNat+1)*256^rest.length ≤ 58^size := by
      apply le_trans _ hfit
      rw [length_cons,Nat.pow_succ,← Nat.mul_assoc,Nat.mul_right_comm]
      exact Nat.mul_le_mul_right _ (by omega)
    have hlt : 256*n+ch.toNat < 58^size := by
      have hpos := Nat.pow_pos (n := rest.length) (show 0 < 256 by decide)
      have := Nat.le_mul_of_pos_right (256*n+ch.toNat+1) hpos
      omega
    rw [encodeBase58Loop,mulAdd_digits (by decide) (by decide) size n ch.toNat hlt]
    exact ih (256*n+ch.toNat) hnext

theorem toNat_lt (bytes : Bytes) : ∀ d ∈ bytes.map UInt8.toNat, d < 256 := by
  intro d hd
  obtain ⟨b,-,rfl⟩ := mem_map.mp hd
  exact b.toNat_lt

private theorem replicate_eq_digitsAppend (base size : Nat) : replicate size 0 = Nat.digitsAppend base size 0 := by
  simp [Nat.digitsAppend]

theorem encodeBase58_eq (bytes : Bytes) : encodeBase58 bytes =
    .ok (replicate (bytes.takeWhile (· == 0)).length (charOf '1')++
      ((Nat.digits 58 (value 256 ((bytes.dropWhile (· == 0)).map UInt8.toNat) 0)).reverse.map digitChar)) := by
  rw [encodeBase58]
  generalize bytes.dropWhile (· == 0) = rest
  have hfits := b58_fits rest.length
  have hloop := encodeBase58Loop_eq rest (rest.length*138/100+1) 0 (by omega)
  rw [len_zero,← replicate_eq_digitsAppend] at hloop
  simp only [hloop]
  rw [buffer_top]
  generalize value 256 (rest.map UInt8.toNat) 0 = n
  have hhead := digits_head 58 n
  have hdrop : (Nat.digits 58 n).reverse.dropWhile (· == 0) = (Nat.digits 58 n).reverse := by
    cases hds : (Nat.digits 58 n).reverse with
    | nil => rfl
    | cons d ds =>
      rw [hds,head?_cons,ne_eq,Option.some.injEq] at hhead
      simp [hhead]
  rw [hdrop]
  rfl
end Encode

section Decode

variable {zeroes max_ret_len : Nat}

private theorem decode_room {size n d k : Nat} (hd : d < 58) (hfit : (n+1)*58^(k+1) ≤ 256^size) :
    (58*n+d+1)*58^k ≤ 256^size ∧ 58*n+d < 256^size := by
  have hnext : (58*n+d+1)*58^k ≤ 256^size := by
    apply le_trans _ hfit
    rw [Nat.pow_succ,← Nat.mul_assoc,Nat.mul_right_comm]
    exact Nat.mul_le_mul_right _ (by omega)
  have hpos := Nat.pow_pos (n := k) (show 0 < 58 by decide)
  have := Nat.le_mul_of_pos_right (58*n+d+1) hpos
  exact ⟨hnext,by omega⟩

private theorem decodeBase58Loop_digits (ds : List Nat) (hds : ∀ d ∈ ds, d < 58) (size n : Nat)
    (hfit : (n+1)*58^ds.length ≤ 256^size) (hmax : len 256 (value 58 ds n)+zeroes ≤ max_ret_len) :
    decodeBase58Loop zeroes max_ret_len (ds.map digitChar) (Nat.digitsAppend 256 size n) (len 256 n) =
      .ok (some ([],Nat.digitsAppend 256 size (value 58 ds n),len 256 (value 58 ds n))) := by
  induction ds generalizing n with
  | nil => rfl
  | cons d ds ih =>
    have hd := hds d (by simp)
    obtain ⟨hnext,hlt⟩ := decode_room hd (by simpa using hfit)
    have hlen : len 256 (58*n+d) ≤ len 256 (value 58 ds (58*n+d)) := len_mono 256 (value_mono (by decide) ds _)
    rw [value_cons] at hmax ⊢
    rw [map_cons,decodeBase58Loop,isSpace_digitChar hd,mapBase58_digitChar hd]
    simp only [Bool.false_eq_true,if_false,Int.toNat_natCast,mulAdd_digits (by decide : 1 < 256) (by decide : 0 < 58) size n d hlt]
    rw [if_neg (by omega),if_neg (by simp),if_neg (by omega)]
    exact ih (fun e he => hds e (by simp [he])) _ hnext hmax

private theorem decodeBase58Loop_total (zeroes max_ret_len : Nat) (psz : Bytes) (size n : Nat) (hfit : (n+1)*58^psz.length ≤ 256^size) :
    ∃ r, decodeBase58Loop zeroes max_ret_len psz (Nat.digitsAppend 256 size n) (len 256 n) = .ok r ∧
      ∀ s, r = some s → ∃ ds, (∀ d ∈ ds, d < 58) ∧ psz = ds.map digitChar++s.1 ∧
        s.2 = (Nat.digitsAppend 256 size (value 58 ds n),len 256 (value 58 ds n)) ∧
        (ds = [] ∨ len 256 (value 58 ds n)+zeroes ≤ max_ret_len) := by
  induction psz generalizing n with
  | nil =>
    refine ⟨_,rfl,fun s hs => ?_⟩
    cases hs
    exact ⟨[],by simp,rfl,rfl,.inl rfl⟩
  | cons c psz ih =>
    rw [decodeBase58Loop]
    by_cases hspace : isSpace c = true
    · rw [if_pos hspace]
      refine ⟨_,rfl,fun s hs => ?_⟩
      cases hs
      exact ⟨[],by simp,rfl,rfl,.inl rfl⟩
    rw [if_neg hspace]
    by_cases hmap : mapBase58.getD c.toNat (-1) = -1
    · exact ⟨none,by simp only [if_pos hmap],nofun⟩
    obtain ⟨hd,hchar⟩ := mapBase58_some hmap
    rw [if_neg hmap]
    generalize (mapBase58.getD c.toNat (-1)).toNat = d at hd hchar ⊢
    obtain ⟨hnext,hlt⟩ := decode_room hd (by simpa using hfit)
    rw [mulAdd_digits (by decide) (by decide) size n d hlt]
    rw [if_neg (by simp)]
    by_cases hmax : len 256 (58*n+d)+zeroes > max_ret_len
    · exact ⟨none,by rw [if_pos hmax],nofun⟩
    · obtain ⟨r,hr,hspec⟩ := ih (58*n+d) hnext
      refine ⟨r,by rw [if_neg hmax]; exact hr,fun s hs => ?_⟩
      obtain ⟨ds,hds,hpsz,hstate,hlen⟩ := hspec s hs
      refine ⟨d::ds,?_,by rw [hpsz,map_cons,hchar]; rfl,hstate,.inr ?_⟩
      · intro e he
        rcases mem_cons.mp he with rfl | he
        · exact hd
        · exact hds e he
      · rcases hlen with rfl | hlen
        · rw [value_cons,value_nil]
          omega
        · exact hlen

/-- `DecodeBase58` always returns, and accepts only spaces around ones and base 58 digits. -/
theorem decodeBase58_total (str : Bytes) (max_ret_len : Nat) : ∃ r, decodeBase58 str max_ret_len = .ok r ∧
    ∀ b, r = some b → ∃ ds sp, (∀ d ∈ ds, d < 58) ∧ ds.head? ≠ some 0 ∧ (∀ c ∈ sp, isSpace c = true) ∧
      str.dropWhile isSpace =
        replicate ((str.dropWhile isSpace).takeWhile (· == charOf '1')).length (charOf '1')++ds.map digitChar++sp ∧
      b = replicate ((str.dropWhile isSpace).takeWhile (· == charOf '1')).length 0++
        (Nat.digits 256 (value 58 ds 0)).reverse.map UInt8.ofNat ∧ b.length ≤ max_ret_len := by
  rw [decodeBase58]
  split
  · exact ⟨none,rfl,nofun⟩
  generalize str.dropWhile isSpace = psz
  dsimp only
  have hones : psz.takeWhile (· == charOf '1') =
      replicate (psz.takeWhile (· == charOf '1')).length (charOf '1') := by
    rw [eq_replicate_iff]
    exact ⟨rfl,fun c hc => by simpa using mem_takeWhile_imp hc⟩
  have hsplit := takeWhile_append_dropWhile (p := (· == charOf '1')) (l := psz)
  have hhead : (psz.dropWhile (· == charOf '1')).head? ≠ some (charOf '1') := by
    intro h
    have := head?_dropWhile_not (· == charOf '1') psz
    rw [h] at this
    simp at this
  generalize hz : (psz.takeWhile (· == charOf '1')).length = zeroes at hones ⊢
  generalize psz.dropWhile (· == charOf '1') = rest at hsplit hhead ⊢
  split
  · exact ⟨none,rfl,nofun⟩
  rename_i hzeroes
  have hfits := b256_fits rest.length
  obtain ⟨r,hr,hspec⟩ := decodeBase58Loop_total zeroes max_ret_len rest (rest.length*733/1000+1) 0 (by omega)
  rw [len_zero,← replicate_eq_digitsAppend] at hr
  rw [hr]
  cases r with
  | none => exact ⟨none,rfl,nofun⟩
  | some s =>
    obtain ⟨ds,hds,hrest,hstate,hlen⟩ := hspec s rfl
    obtain ⟨sp,b256,length⟩ := s
    obtain ⟨rfl,rfl⟩ := Prod.mk.inj hstate
    dsimp only at hrest ⊢
    split
    · exact ⟨none,rfl,nofun⟩
    rename_i hsp
    refine ⟨_,rfl,fun b hb => ?_⟩
    cases hb
    rw [buffer_top]
    refine ⟨ds,sp,hds,?_,?_,?_,rfl,?_⟩
    · intro h
      cases ds with
      | nil => cases h
      | cons d ds =>
        cases h
        apply hhead
        rw [hrest]
        exact congrArg some ((digitChar_one (by decide)).mpr rfl)
    · exact dropWhile_eq_nil_iff.mp (not_not.mp hsp)
    · rw [← hsplit,hones,hrest,append_assoc]
    · simp only [length_append,length_replicate,length_map,length_reverse]
      rcases hlen with rfl | hlen
      · simpa using hzeroes
      · rw [len] at hlen
        omega

private theorem takeWhile_ones {α : Type} [BEq α] [LawfulBEq α] (x : α) (z : Nat) {l : List α} (hl : l.head? ≠ some x) :
    (replicate z x++l).takeWhile (· == x) = replicate z x ∧ (replicate z x++l).dropWhile (· == x) = l := by
  induction z with
  | zero =>
    cases l with
    | nil => exact ⟨rfl,rfl⟩
    | cons y l =>
      have hy : (y == x) = false := by
        rw [head?_cons,ne_eq,Option.some.injEq] at hl
        simpa using hl
      simp [hy]
  | succ z ih => simp [replicate_succ,ih]

private theorem dropWhile_none {l : Bytes} (hl : ∀ c ∈ l, isSpace c = false) : l.dropWhile isSpace = l := by
  cases l with
  | nil => rfl
  | cons c l => rw [dropWhile_cons_of_neg (by simp [hl c])]

private theorem encoded_chars (z : Nat) {ds : List Nat} (hds : ∀ d ∈ ds, d < 58) :
    ∀ c ∈ replicate z (charOf '1')++ds.map digitChar, isSpace c = false ∧ c ≠ 0 := by
  intro c hc
  rcases mem_append.mp hc with hc | hc
  · rw [eq_of_mem_replicate hc]
    decide
  · obtain ⟨d,hd,rfl⟩ := mem_map.mp hc
    exact ⟨isSpace_digitChar (hds d hd),digitChar_ne_zero (hds d hd)⟩

private theorem trimSpaces_eq {str l sp : Bytes} (h : str.dropWhile isSpace = l++sp) (hl : ∀ c ∈ l, isSpace c = false)
    (hsp : ∀ c ∈ sp, isSpace c = true) : trimSpaces str = l := by
  rw [trimSpaces,h,rdropWhile,reverse_append,dropWhile_append_of_pos (by simpa using hsp),
    dropWhile_none (by simpa using hl),reverse_reverse]

theorem decodeBase58_digits (z max_ret_len : Nat) {ds : List Nat} (hds : ∀ d ∈ ds, d < 58) (hhead : ds.head? ≠ some 0)
    (hmax : len 256 (value 58 ds 0)+z ≤ max_ret_len) :
    decodeBase58 (replicate z (charOf '1')++ds.map digitChar) max_ret_len =
      .ok (some (replicate z 0++(Nat.digits 256 (value 58 ds 0)).reverse.map UInt8.ofNat)) := by
  have hchars := encoded_chars z hds
  have hzero : (0 : UInt8) ∉ replicate z (charOf '1')++ds.map digitChar := fun h => (hchars 0 h).2 rfl
  have hne : (ds.map digitChar).head? ≠ some (charOf '1') := by
    cases ds with
    | nil => simp
    | cons d ds =>
      intro h
      apply hhead
      rw [map_cons,head?_cons,Option.some.injEq,digitChar_one (hds d (by simp))] at h
      rw [h]
      rfl
  obtain ⟨htake,hdrop⟩ := takeWhile_ones (charOf '1') z hne
  have hfits := b256_fits ds.length
  have hval := value_lt ds hds 0
  have hloop := decodeBase58Loop_digits ds hds (ds.length*733/1000+1) 0 (by omega) hmax
  rw [len_zero,← replicate_eq_digitsAppend] at hloop
  rw [decodeBase58,if_neg hzero,dropWhile_none (fun c hc => (hchars c hc).1)]
  simp only [htake,hdrop,length_replicate,length_map]
  rw [if_neg (by omega),hloop]
  simp only [dropWhile_nil,ne_eq,not_true_eq_false,if_false]
  rw [buffer_top]
end Decode

section Bijection

private theorem map_ofNat_toNat (bytes : Bytes) : (bytes.map UInt8.toNat).map UInt8.ofNat = bytes := by
  rw [map_map]
  exact (map_congr_left fun b _ => UInt8.ofNat_toNat).trans (map_id' bytes)

private theorem map_toNat_ofNat {l : List Nat} (hl : ∀ d ∈ l, d < 256) : (l.map UInt8.ofNat).map UInt8.toNat = l := by
  rw [map_map]
  refine (map_congr_left fun d hd => ?_).trans (map_id' l)
  have := hl d hd
  simp
  omega

private theorem leading_zeros (bytes : Bytes) :
    bytes = replicate (bytes.takeWhile (· == 0)).length 0++bytes.dropWhile (· == 0) ∧
      ((bytes.dropWhile (· == 0)).map UInt8.toNat).head? ≠ some 0 := by
  constructor
  · have hzeros : bytes.takeWhile (· == 0) = replicate (bytes.takeWhile (· == 0)).length 0 := by
      rw [eq_replicate_iff]
      exact ⟨rfl,fun c hc => by simpa using mem_takeWhile_imp hc⟩
    rw [← hzeros,takeWhile_append_dropWhile]
  · intro h
    rw [head?_map,Option.map_eq_some_iff] at h
    obtain ⟨b,hb,hb0⟩ := h
    have hnot := head?_dropWhile_not (· == (0 : UInt8)) bytes
    rw [hb] at hnot
    simp only [beq_eq_false_iff_ne] at hnot
    exact hnot (UInt8.toNat_inj.mp hb0)

/-- Encoding and decoding are inverse up to white space around the string. -/
theorem base58_bijection : (∀ (b : Bytes) (max_ret_len : Nat), b.length ≤ max_ret_len →
      ∃ s, encodeBase58 b = .ok s ∧ decodeBase58 s max_ret_len = .ok (some b)) ∧
    (∀ (s b : Bytes) (max_ret_len : Nat), decodeBase58 s max_ret_len = .ok (some b) →
      encodeBase58 b = .ok (trimSpaces s) ∧ b.length ≤ max_ret_len) ∧
    (∀ b, ∃ s, encodeBase58 b = .ok s) ∧ ∀ s max_ret_len, ∃ r, decodeBase58 s max_ret_len = .ok r := by
  refine ⟨?_,?_,fun b => ⟨_,encodeBase58_eq b⟩,?_⟩
  · intro b max_ret_len hmax
    refine ⟨_,encodeBase58_eq b,?_⟩
    obtain ⟨hb,hhead⟩ := leading_zeros b
    generalize (b.takeWhile (· == 0)).length = z at hb ⊢
    generalize b.dropWhile (· == 0) = rest at hb hhead ⊢
    have hdigits := digits_value (by decide) _ (toNat_lt rest) hhead
    have hlen : len 256 (value 256 (rest.map UInt8.toNat) 0) = rest.length := by
      rw [len,← length_reverse,hdigits,length_map]
    generalize value 256 (rest.map UInt8.toNat) 0 = n at hdigits hlen ⊢
    rw [hb,length_append,length_replicate] at hmax
    have hds : ∀ d ∈ (Nat.digits 58 n).reverse, d < 58 := fun d hd =>
      Nat.digits_lt_base (by decide) (mem_reverse.mp hd)
    rw [decodeBase58_digits z max_ret_len hds (digits_head 58 n) (by rw [value_digits,hlen]; omega),value_digits,hdigits,
      map_ofNat_toNat,← hb]
  · intro s b max_ret_len h
    obtain ⟨r,hr,hspec⟩ := decodeBase58_total s max_ret_len
    rw [h] at hr
    obtain ⟨ds,sp,hds,hhead,hsp,hstr,hb,hlen⟩ := hspec b (Except.ok.inj hr).symm
    generalize ((s.dropWhile isSpace).takeWhile (· == charOf '1')).length = z at hstr hb
    refine ⟨?_,hlen⟩
    have hlt : ∀ d ∈ (Nat.digits 256 (value 58 ds 0)).reverse, d < 256 := fun d hd =>
      Nat.digits_lt_base (by decide) (mem_reverse.mp hd)
    have hne : ((Nat.digits 256 (value 58 ds 0)).reverse.map UInt8.ofNat).head? ≠ some 0 := by
      intro hzero
      apply digits_head 256 (value 58 ds 0)
      have hmap := congrArg (Option.map UInt8.toNat) hzero
      rwa [← head?_map,map_toNat_ofNat hlt] at hmap
    obtain ⟨htake,hdrop⟩ := takeWhile_ones (0 : UInt8) z hne
    rw [encodeBase58_eq,hb,htake,hdrop,map_toNat_ofNat hlt,value_digits,digits_value (by decide) ds hds hhead,
      length_replicate,trimSpaces_eq hstr (fun c hc => (encoded_chars z hds c hc).1) hsp]
  · intro s max_ret_len
    obtain ⟨r,hr,-⟩ := decodeBase58_total s max_ret_len
    exact ⟨r,hr⟩
end Bijection
end BitfiniteCore
