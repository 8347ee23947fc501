import BitfiniteCore.Lib.BitGroups
import BitfiniteCore.Address.CashAddrChecksum

/-! # Cash address strings -/

namespace BitfiniteCore
open List

section Strings

def charOf (c : Char) : UInt8 := UInt8.ofNat c.toNat

def cashAddrCharset : Bytes :=
  ['f','p','z','r','y','9','x','8','g','q','2','t','v','d','w','0','s','3','j','n','5','4','k','h','c','e','6','m',
    'u','a','7','l'].map charOf

def cashAddrCharsetRev : List Int := [-1,-1,-1,-1,-1,-1,-1,-1,-1,-1,-1,-1,-1,-1,-1,-1,-1,-1,-1,-1,-1,-1,
    -1,-1,-1,-1,-1,-1,-1,-1,-1,-1,-1,-1,-1,-1,-1,-1,-1,-1,-1,-1,-1,-1,
    -1,-1,-1,-1,15,-1,10,17,21,20,26,30,7,5,-1,-1,-1,-1,-1,-1,-1,29,
    -1,24,13,25,0,8,23,-1,18,22,31,27,19,-1,1,9,3,16,11,28,12,14,
    6,4,2,-1,-1,-1,-1,-1,-1,29,-1,24,13,25,0,8,23,-1,18,22,31,27,
    19,-1,1,9,3,16,11,28,12,14,6,4,2,-1,-1,-1,-1,-1]

def lowerCase (c : UInt8) : UInt8 := c ||| 0x20

def isLower (c : UInt8) : Bool := decide (charOf 'a' ≤ c) && decide (c ≤ charOf 'z')

def isUpper (c : UInt8) : Bool := decide (charOf 'A' ≤ c) && decide (c ≤ charOf 'Z')

def isNumber (c : UInt8) : Bool := decide (charOf '0' ≤ c) && decide (c ≤ charOf '9')

def toLower (c : UInt8) : UInt8 := if isUpper c then c+32 else c

/-- What the first loop of `Decode` has seen. -/
structure CashAddrScan where
  lower : Bool
  upper : Bool
  hasNumber : Bool
  prefixSize : Nat
deriving DecidableEq

def CashAddrScan.next (s : CashAddrScan) (i : Nat) (c : UInt8) : Option CashAddrScan :=
  if isLower c then some { s with lower := true }
  else if isUpper c then some { s with upper := true }
  else if isNumber c then some { s with hasNumber := true }
  else if c = charOf ':' then
    if s.hasNumber ∨ i = 0 ∨ s.prefixSize ≠ 0 then none else some { s with prefixSize := i }
  else none

def CashAddrScan.run : Bytes → Nat → CashAddrScan → Option CashAddrScan
  | [], _, s => some s
  | c::str, i, s => (s.next i c).bind (run str (i+1))

/-- A character as a value of five bits; `none` for a character that is not in the set. -/
def decodeChar (c : UInt8) : Option UInt8 :=
  if c > 127 ∨ cashAddrCharsetRev.getD c.toNat (-1) = -1 then none
  else some (UInt8.ofNat (cashAddrCharsetRev.getD c.toNat (-1)).toNat)

/-- `Decode` up to its last return statement: the prefix and the values under a checksum that verifies. -/
def decodeValues (str default_prefix : Bytes) : Option (Bytes × Bytes) :=
  match CashAddrScan.run str 0 ⟨false,false,false,0⟩ with
  | none => none
  | some s =>
    if s.upper ∧ s.lower then none
    else
      let pfx := if s.prefixSize = 0 then default_prefix else (str.take s.prefixSize).map lowerCase
      let skip := if s.prefixSize = 0 then 0 else s.prefixSize+1
      match (str.drop skip).mapM decodeChar with
      | none => none
      | some values => if verifyChecksum pfx values then some (pfx,values) else none

/-- An iterator in front of the list is outside of it. -/
def cashAddrDecode (str default_prefix : Bytes) : Except Stop (Bytes × Bytes) :=
  match decodeValues str default_prefix with
  | none => .ok ([],[])
  | some (pfx,values) =>
    if values.length < 8 then .error (.logicError "values.end() - 8")
    else .ok (pfx,values.take (values.length-8))

def cashAddrEncode (pfx payload : Bytes) : Bytes :=
  pfx++[charOf ':']++(payload++createChecksum pfx payload).map fun c => cashAddrCharset.getD (c.toNat%32) 0
end Strings

section ShortStrings

def prefixState (pfx : Bytes) (k : Nat) : BitVec 64 := (expandPrefix pfx++replicate k 0).foldl polyModStep 1

/-- No values shorter than a checksum verify under this prefix. -/
def NoShortCodeword (pfx : Bytes) : Prop := ∀ k < 8, (prefixState pfx k^^^1) >>> (5*k) ≠ 0

instance (pfx : Bytes) : Decidable (NoShortCodeword pfx) := inferInstanceAs (Decidable (∀ k < 8, _))

private theorem zip_zeros (v : List (BitVec 64)) :
    zipWith (·^^^·) ((replicate v.length (0 : UInt8)).map symbol) v = v := by
  induction v with
  | nil => rfl
  | cons d v ih =>
    rw [length_cons,replicate_succ,map_cons,zipWith_cons_cons,ih]
    simp [symbol]

theorem verifyChecksum_iff_prefixState (pfx values : Bytes) : verifyChecksum pfx values = true ↔
    polyModRegister.run 0#64 (values.map symbol) = prefixState pfx values.length^^^1 := by
  have hstate : prefixState pfx values.length =
      polyModRegister.run (polyModRegister.run 1 ((expandPrefix pfx).map symbol))
        ((replicate values.length (0 : UInt8)).map symbol) := by
    rw [prefixState,foldl_polyModStep,map_append,ShiftRegister.run_append]
  have hsum := polyModRegister.run_xor ((replicate values.length (0 : UInt8)).map symbol) (values.map symbol)
    (by simp) (polyModRegister.run 1 ((expandPrefix pfx).map symbol)) 0#64
  have hzip := zip_zeros (values.map symbol)
  rw [length_map] at hzip
  rw [hzip,BitVec.xor_zero,← hstate] at hsum
  rw [verifyChecksum_iff,map_append,ShiftRegister.run_append,hsum]
  constructor
  · intro h
    rw [← h,← BitVec.xor_assoc,BitVec.xor_self,BitVec.zero_xor]
  · intro h
    rw [h,← BitVec.xor_assoc,BitVec.xor_self,BitVec.zero_xor]

theorem verifyChecksum_length {pfx values : Bytes} (hv : FiveBits values) (hpfx : NoShortCodeword pfx)
    (h : verifyChecksum pfx values = true) : 8 ≤ values.length := by
  by_contra hlt
  apply hpfx values.length (by omega)
  have hsmall := (polyModRegister.run_eq_zero (j := 0) (values.map symbol) (symbols_lt hv)
    (by simp only [length_map]; omega) 0#64 (by simp)).1
  rw [length_map,Nat.zero_add,(verifyChecksum_iff_prefixState pfx values).mp h] at hsmall
  apply BitVec.eq_of_toNat_eq
  rw [BitVec.toNat_ushiftRight,Nat.shiftRight_eq_div_pow,Nat.div_eq_of_lt hsmall]
  rfl

/-- The `k` values that bring the register back to 1, if there are such values. -/
def shortCodeword (pfx : Bytes) (k : Nat) : Bytes :=
  (ShiftRegister.symbols 5 k (prefixState pfx k^^^1)).map fun d => UInt8.ofNat d.toNat

theorem shortCodeword_verifies {pfx : Bytes} {k : Nat} (hk : k < 8) (h : (prefixState pfx k^^^1) >>> (5*k) = 0) :
    FiveBits (shortCodeword pfx k) ∧ (shortCodeword pfx k).length = k ∧
      verifyChecksum pfx (shortCodeword pfx k) = true := by
  have hlt := ShiftRegister.symbols_lt (n := 64) (w := 5) k (prefixState pfx k^^^1)
  have hlen : (shortCodeword pfx k).length = k := by simp [shortCodeword,ShiftRegister.symbols_length]
  have hsymbols : (shortCodeword pfx k).map symbol = ShiftRegister.symbols 5 k (prefixState pfx k^^^1) := by
    rw [shortCodeword,map_map]
    refine (map_congr_left fun d hd => ?_).trans (map_id' _)
    have hd := hlt d hd
    apply BitVec.eq_of_toNat_eq
    rw [Function.comp_apply,symbol_toNat,UInt8.toNat_ofNat']
    omega
  refine ⟨fun d hd => ?_,hlen,?_⟩
  · obtain ⟨e,he,rfl⟩ := mem_map.mp hd
    have he := hlt e he
    rw [UInt8.toNat_ofNat']
    omega
  · rw [verifyChecksum_iff_prefixState,hlen,hsymbols]
    apply polyModRegister.run_zero_symbols k (by omega)
    have hdiv := congrArg BitVec.toNat h
    rw [BitVec.toNat_ushiftRight,Nat.shiftRight_eq_div_pow] at hdiv
    exact (Nat.div_eq_zero_iff.mp hdiv).resolve_left (Nat.two_pow_pos _).ne'

private theorem char_classes : ∀ c : UInt8,
    ((decodeChar c).all fun v => decide (v.toNat < 32) && cashAddrCharset.getD v.toNat 0 == toLower c) = true ∧
    (isLower c = true → isUpper c = false ∧ isNumber c = false ∧ lowerCase c = c ∧ c ≠ charOf ':') ∧
    (isLower c = true ∨ isUpper c = true → lowerCase c = toLower c) :=
  forall_byte (by decide +kernel)

theorem decodeChar_some {c v : UInt8} (h : decodeChar c = some v) :
    v.toNat < 32 ∧ cashAddrCharset.getD v.toNat 0 = toLower c := by
  have htable := (char_classes c).1
  simpa [h] using htable

theorem mapM_decodeChar {str values : Bytes} (h : str.mapM decodeChar = some values) :
    FiveBits values ∧ values.map (fun c => cashAddrCharset.getD (c.toNat%32) 0) = str.map toLower := by
  induction str generalizing values with
  | nil =>
    simp only [mapM_nil,Option.pure_def,Option.some.injEq] at h
    rw [← h]
    simp [FiveBits]
  | cons c str ih =>
    simp only [mapM_cons,Option.bind_eq_bind,Option.bind_eq_some_iff,Option.pure_def,Option.some.injEq] at h
    obtain ⟨v,hv,vs,hvs,rfl⟩ := h
    have hc := decodeChar_some hv
    have hrest := ih hvs
    constructor
    · intro d hd
      rcases mem_cons.mp hd with rfl | hd
      · exact hc.1
      · exact hrest.1 d hd
    · rw [map_cons,map_cons,hrest.2,Nat.mod_eq_of_lt hc.1,hc.2]

theorem decodeValues_some {str default_prefix pfx values : Bytes} (h : decodeValues str default_prefix = some (pfx,values)) :
    ∃ s, CashAddrScan.run str 0 ⟨false,false,false,0⟩ = some s ∧
      pfx = (if s.prefixSize = 0 then default_prefix else (str.take s.prefixSize).map lowerCase) ∧
      (str.drop (if s.prefixSize = 0 then 0 else s.prefixSize+1)).mapM decodeChar = some values ∧
      verifyChecksum pfx values = true := by
  rw [decodeValues] at h
  cases hscan : CashAddrScan.run str 0 ⟨false,false,false,0⟩ with
  | none =>
    rw [hscan] at h
    cases h
  | some s =>
    simp only [hscan] at h
    split at h
    · cases h
    cases hvals : (str.drop (if s.prefixSize = 0 then 0 else s.prefixSize+1)).mapM decodeChar with
    | none =>
      rw [hvals] at h
      cases h
    | some vs =>
      simp only [hvals] at h
      generalize hp : (if s.prefixSize = 0 then default_prefix else (str.take s.prefixSize).map lowerCase) = p at h
      split at h
      · rename_i hver
        cases h
        exact ⟨s,rfl,hp.symm,hvals,hver⟩
      · cases h
end ShortStrings

section Separators

variable {s r : CashAddrScan}

theorem CashAddrScan.run_append (a b : Bytes) (i : Nat) (s : CashAddrScan) :
    run (a++b) i s = (run a i s).bind (run b (i+a.length)) := by
  induction a generalizing i s with
  | nil => rfl
  | cons c a ih =>
    rw [cons_append,run,run]
    cases s.next i c with
    | none => rfl
    | some s' =>
      dsimp only [Option.bind]
      rw [ih,length_cons,show i+1+a.length = i+(a.length+1) by omega]
      rfl

theorem lowerCase_letter {c : UInt8} (h : isLower c = true ∨ isUpper c = true) : lowerCase c = toLower c :=
  (char_classes c).2.2 h

theorem CashAddrScan.run_lower {l : Bytes} (hl : ∀ c ∈ l, isLower c = true) (i : Nat) (s : CashAddrScan) :
    ∃ lower, run l i s = some { s with lower := lower } := by
  induction l generalizing i s with
  | nil => exact ⟨s.lower,rfl⟩
  | cons c l ih =>
    have hc := hl c (by simp)
    obtain ⟨lower,hrun⟩ := ih (fun d hd => hl d (by simp [hd])) (i+1) { s with lower := true }
    refine ⟨lower,?_⟩
    rw [run,next,if_pos hc]
    exact hrun

private theorem charset_chars : ∀ v : Fin 32, decodeChar (cashAddrCharset.getD v 0) = some (UInt8.ofNat v) ∧
    (isLower (cashAddrCharset.getD v 0) = true ∨
      isLower (cashAddrCharset.getD v 0) = false ∧ isUpper (cashAddrCharset.getD v 0) = false ∧
        isNumber (cashAddrCharset.getD v 0) = true) := by
  decide +kernel

theorem CashAddrScan.run_charset (v : Bytes) (i : Nat) (s : CashAddrScan) :
    ∃ lower hasNumber, run (v.map fun c => cashAddrCharset.getD (c.toNat%32) 0) i s =
      some { s with lower := lower, hasNumber := hasNumber } := by
  induction v generalizing i s with
  | nil => exact ⟨s.lower,s.hasNumber,rfl⟩
  | cons c v ih =>
    have hc := (charset_chars ⟨c.toNat%32,Nat.mod_lt _ (by decide)⟩).2
    rw [map_cons,run,next]
    rcases hc with hc | ⟨h1,h2,h3⟩
    · obtain ⟨lower,hasNumber,hrun⟩ := ih (i+1) { s with lower := true }
      rw [if_pos hc]
      exact ⟨lower,hasNumber,hrun⟩
    · obtain ⟨lower,hasNumber,hrun⟩ := ih (i+1) { s with hasNumber := true }
      rw [h1,h2,h3]
      exact ⟨lower,hasNumber,hrun⟩

theorem mapM_charset {v : Bytes} (hv : FiveBits v) :
    (v.map fun c => cashAddrCharset.getD (c.toNat%32) 0).mapM decodeChar = some v := by
  induction v with
  | nil => rfl
  | cons c v ih =>
    have hc := hv c (by simp)
    have hdec := (charset_chars ⟨c.toNat%32,Nat.mod_lt _ (by decide)⟩).1
    dsimp only at hdec
    rw [Nat.mod_eq_of_lt hc,UInt8.ofNat_toNat] at hdec
    rw [map_cons,mapM_cons,Nat.mod_eq_of_lt hc,hdec,ih (fun d hd => hv d (by simp [hd]))]
    rfl

private theorem separator_next (i : Nat) (s : CashAddrScan) : s.next i (charOf ':') =
    if s.hasNumber ∨ i = 0 ∨ s.prefixSize ≠ 0 then none else some { s with prefixSize := i } := by
  have h1 : isLower (charOf ':') = false := by decide
  have h2 : isUpper (charOf ':') = false := by decide
  have h3 : isNumber (charOf ':') = false := by decide
  rw [CashAddrScan.next,h1,h2,h3]
  simp

theorem decodeValues_encode {pfx payload : Bytes} (hne : pfx ≠ []) (hpfx : ∀ c ∈ pfx, isLower c = true)
    (hp : FiveBits payload) ( default_prefix : Bytes) :
    decodeValues (cashAddrEncode pfx payload) default_prefix = some (pfx,payload++createChecksum pfx payload) := by
  have hlen : pfx.length ≠ 0 := by simpa using hne
  have hfive := hp.append (createChecksum_fiveBits pfx payload)
  obtain ⟨lower,hlower⟩ := CashAddrScan.run_lower hpfx 0 ⟨false,false,false,0⟩
  obtain ⟨lower',hasNumber,hchars⟩ := CashAddrScan.run_charset (payload++createChecksum pfx payload) (pfx.length+1)
    ⟨lower,false,false,pfx.length⟩
  have hscan : CashAddrScan.run (cashAddrEncode pfx payload) 0 ⟨false,false,false,0⟩ =
      some ⟨lower',false,hasNumber,pfx.length⟩ := by
    rw [cashAddrEncode,append_assoc,CashAddrScan.run_append,hlower]
    dsimp only [Option.bind]
    rw [singleton_append,CashAddrScan.run,separator_next]
    simp only [Bool.false_eq_true,Nat.zero_add,hlen,ne_eq,not_true_eq_false,or_self,if_false]
    exact hchars
  have htake : ((cashAddrEncode pfx payload).take pfx.length).map lowerCase = pfx := by
    rw [cashAddrEncode,append_assoc,take_left]
    exact (map_congr_left fun c hc => ((char_classes c).2.1 (hpfx c hc)).2.2.1).trans (map_id' pfx)
  have hdrop : (cashAddrEncode pfx payload).drop (pfx.length+1) =
      (payload++createChecksum pfx payload).map fun c => cashAddrCharset.getD (c.toNat%32) 0 := by
    rw [cashAddrEncode]
    exact drop_left' (by simp)
  rw [decodeValues,hscan]
  simp only [Bool.false_eq_true,false_and,if_false,hlen,htake,hdrop,mapM_charset hfive,verifyChecksum_create pfx payload hp,
    if_true]

/-- Values under a default prefix, without a separator. -/
theorem decodeValues_plain {pfx values : Bytes} (hv : FiveBits values) (hver : verifyChecksum pfx values = true) :
    decodeValues (values.map fun c => cashAddrCharset.getD (c.toNat%32) 0) pfx = some (pfx,values) := by
  obtain ⟨lower,hasNumber,hscan⟩ := CashAddrScan.run_charset values 0 ⟨false,false,false,0⟩
  rw [decodeValues,hscan]
  simp only [Bool.false_eq_true,false_and,if_false,if_true,drop_zero,mapM_charset hv,hver]

theorem CashAddrScan.run_some {str : Bytes} {i : Nat} (h : run str i s = some r) :
    (r.prefixSize = s.prefixSize ∧ charOf ':' ∉ str) ∨
      (s.prefixSize = 0 ∧ s.hasNumber = false ∧ ∃ pre rest, str = pre++charOf ':'::rest ∧ r.prefixSize = i+pre.length ∧
        i+pre.length ≠ 0 ∧ (∀ c ∈ pre, isLower c = true ∨ isUpper c = true) ∧ charOf ':' ∉ pre) := by
  induction str generalizing i s with
  | nil =>
    cases h
    exact .inl ⟨rfl,by simp⟩
  | cons c str ih =>
    rw [run,Option.bind_eq_some_iff] at h
    obtain ⟨s',hnext,hrun⟩ := h
    have hletter : ∀ {s'}, run str (i+1) s' = some r → s'.prefixSize = s.prefixSize → s'.hasNumber = s.hasNumber →
        (isLower c = true ∨ isUpper c = true) → c ≠ charOf ':' →
        (r.prefixSize = s.prefixSize ∧ charOf ':' ∉ c::str) ∨
          (s.prefixSize = 0 ∧ s.hasNumber = false ∧ ∃ pre rest, c::str = pre++charOf ':'::rest ∧
            r.prefixSize = i+pre.length ∧ i+pre.length ≠ 0 ∧ (∀ c ∈ pre, isLower c = true ∨ isUpper c = true) ∧
            charOf ':' ∉ pre) := by
      intro s' hrun hsize hnumber hc hcolon
      rcases ih hrun with ⟨h1,h2⟩ | ⟨h1,h2,pre,rest,h3,h4,h5,h6,h7⟩
      · exact .inl ⟨h1.trans hsize,by simp [h2,Ne.symm hcolon]⟩
      · refine .inr ⟨hsize ▸ h1,hnumber ▸ h2,c::pre,rest,by rw [h3]; rfl,?_,?_,?_,by simp [h7,Ne.symm hcolon]⟩
        · rw [h4,length_cons]
          omega
        · rw [length_cons]
          omega
        · intro d hd
          rcases mem_cons.mp hd with rfl | hd
          · exact hc
          · exact h6 d hd
    rw [next] at hnext
    split at hnext
    · rename_i hc
      cases hnext
      exact hletter hrun rfl rfl (.inl hc) ((char_classes _).2.1 hc).2.2.2
    split at hnext
    · rename_i hc
      cases hnext
      refine hletter hrun rfl rfl (.inr hc) ?_
      rintro rfl
      exact absurd hc (by decide)
    split at hnext
    · rename_i hc
      cases hnext
      have hcolon : c ≠ charOf ':' := by
        rintro rfl
        exact absurd hc (by decide)
      rcases ih hrun with ⟨h1,h2⟩ | ⟨-,h2,-⟩
      · exact .inl ⟨h1,by simp [h2,Ne.symm hcolon]⟩
      · cases h2
    split at hnext
    · rename_i hc
      split at hnext
      · cases hnext
      · rename_i hcond
        simp only [not_or,not_not] at hcond
        cases hnext
        rcases ih hrun with ⟨h1,h2⟩ | ⟨h1,-⟩
        · exact .inr ⟨hcond.2.2,by simpa using hcond.1,[],str,by rw [hc]; rfl,by simpa using h1,by simpa using hcond.2.1,
            by simp,by simp⟩
        · exact absurd h1 hcond.2.1
    · cases hnext
end Separators

/-- `Decode` stays inside its list of values under a prefix exactly if the prefix has no short codeword. -/
theorem cashAddrDecode_in_buffer_iff (pfx : Bytes) :
    (∀ str default_prefix values, decodeValues str default_prefix = some (pfx,values) →
      8 ≤ values.length ∧ cashAddrDecode str default_prefix = .ok (pfx,values.take (values.length-8))) ↔
      NoShortCodeword pfx := by
  constructor
  · intro hall k hk hzero
    obtain ⟨hfive,hlen,hver⟩ := shortCodeword_verifies hk hzero
    have h8 := (hall _ _ _ (decodeValues_plain hfive hver)).1
    omega
  · intro hpfx str default_prefix values h
    obtain ⟨s,-,-,hvals,hver⟩ := decodeValues_some h
    have hlen := verifyChecksum_length (mapM_decodeChar hvals).1 hpfx hver
    refine ⟨hlen,?_⟩
    rw [cashAddrDecode,h]
    dsimp only
    rw [if_neg (by omega)]

def chainPrefixes : List Bytes :=
  [['b','f','x'].map charOf,['b','f','x','t','e','s','t'].map charOf,['b','f','x','r','e','g'].map charOf]

theorem chainPrefixes_noShortCodeword : ∀ pfx ∈ chainPrefixes, NoShortCodeword pfx := by
  decide +kernel

def emptyAddress : Bytes := cashAddrEncode (['b','f','x'].map charOf) []

theorem cashAddrDecode_in_buffer_iff_main :
    decodeValues emptyAddress [] = some (['b','f','x'].map charOf,createChecksum (['b','f','x'].map charOf) []) ∧
    8 ≤ (createChecksum (['b','f','x'].map charOf) []).length ∧
    cashAddrDecode emptyAddress [] = .ok (['b','f','x'].map charOf,
      (createChecksum (['b','f','x'].map charOf) []).take ((createChecksum (['b','f','x'].map charOf) []).length-8)) := by
  have hvalues : decodeValues emptyAddress [] =
      some (['b','f','x'].map charOf,createChecksum (['b','f','x'].map charOf) []) := by decide +kernel
  exact ⟨hvalues,(cashAddrDecode_in_buffer_iff _).mpr (chainPrefixes_noShortCodeword _ (by decide)) _ _ _ hvalues⟩

def codewordPrefix : Bytes := ['r','p','z','r','r','z','p','r'].map charOf

/-- The checksum of this string verifies over an empty list of values. -/
theorem cashAddrDecode_before_buffer :
    decodeValues (codewordPrefix++[charOf ':']) (['b','f','x'].map charOf) = some (codewordPrefix,[]) ∧
    cashAddrDecode (codewordPrefix++[charOf ':']) (['b','f','x'].map charOf) = .error (.logicError "values.end() - 8") := by
  decide +kernel
end BitfiniteCore
