import BitfiniteCore.Coins.Cache
import BitfiniteCore.Lib.RoundTrip

/-!
# Compressed outputs

Elliptic curve arithmetic is a parameter.
-/

namespace BitfiniteCore
open RoundTrip List Nat

def opDup : UInt8 := 0x76

def opEqual : UInt8 := 0x87

def opEqualVerify : UInt8 := 0x88

def opHash160 : UInt8 := 0xa9

def opCheckSig : UInt8 := 0xac

/-- A valid uncompressed key is recovered from its first coordinate and the parity of the second. -/
structure PubKeyOps where
  isFullyValid : Bytes → Bool
  decompress : Bytes → Option Bytes
  decompress_eq : ∀ (x y : Bytes) (last : UInt8), x.length = 32 → y.length = 31 →
    isFullyValid (0x04::x++y++[last]) = true →
    decompress ((2+(last&&&1))::x) = some (0x04::x++y++[last])

def CScript.isPayToPubKeyHash (script : CScript) : Bool :=
  script.length == 25 && script.take 3 == [opDup,opHash160,20] &&
    script.drop 23 == [opEqualVerify,opCheckSig]

/-- `IsPayToScriptHash` without flags, which only knows 20-byte hashes. -/
def CScript.isPayToScriptHash (script : CScript) : Bool :=
  script.length == 23 && script.take 2 == [opHash160,20] && script.drop 22 == [opEqual]

def CScript.isToCompressedPubKey (script : CScript) : Bool :=
  script.length == 35 && script.take 1 == [33] && script.drop 34 == [opCheckSig] &&
    (script[1]? == some 2 || script[1]? == some 3)

def CScript.isToUncompressedPubKey (pk : PubKeyOps) (script : CScript) : Bool :=
  script.length == 67 && script.take 2 == [65,4] && script.drop 66 == [opCheckSig] &&
    pk.isFullyValid ((script.drop 1).take 65)

def compressScript (pk : PubKeyOps) (script : CScript) : Option Bytes :=
  if script.isPayToPubKeyHash then some (0::(script.drop 3).take 20)
  else if script.isPayToScriptHash then some (1::(script.drop 2).take 20)
  else if script.isToCompressedPubKey then some ((script.drop 1).take 33)
  else if script.isToUncompressedPubKey pk then
    some ((4 ||| (script.getD 65 0 &&& 1))::(script.drop 2).take 32)
  else none

def getSpecialScriptSize (nSize : Nat) : Nat :=
  if nSize = 0 ∨ nSize = 1 then 20
  else if nSize = 2 ∨ nSize = 3 ∨ nSize = 4 ∨ nSize = 5 then 32
  else 0

/-- `none` is the return value false, which leaves the script empty. -/
def decompressScript (pk : PubKeyOps) (nSize : Nat) (bytes : Bytes) : Option CScript :=
  if nSize = 0 then some ([opDup,opHash160,20]++bytes++[opEqualVerify,opCheckSig])
  else if nSize = 1 then some ([opHash160,20]++bytes++[opEqual])
  else if nSize = 2 ∨ nSize = 3 then some ([33,UInt8.ofNat nSize]++bytes++[opCheckSig])
  else if nSize = 4 ∨ nSize = 5 then
    (pk.decompress (UInt8.ofNat (nSize-2)::bytes)).map fun pubkey => [65]++pubkey++[opCheckSig]
  else none

def nSpecialScripts : Nat := 6

def uint32Max : Nat := 2^32-1

def uint64Max : Nat := 2^64-1

def serializeScript (pk : PubKeyOps) (script : CScript) : Bytes :=
  match compressScript pk script with
  | some compr => compr
  | none => writeVarInt ((script.length+nSpecialScripts)%2^32)++script

def unserializeScript (pk : PubKeyOps) : Reader CScript := fun s =>
  (readVarInt uint32Max s).bind fun (nSize,s) =>
    if nSize < nSpecialScripts then
      (readBytes (getSpecialScriptSize nSize) s).map fun (vch,s) => ((decompressScript pk nSize vch).getD [],s)
    else readBytes (nSize-nSpecialScripts) s

/-- Divide by ten while that is exact, at most `left` times; the exponent is counted in `e`. -/
def stripTens : Nat → Nat → Nat → Nat × Nat
  | 0, n, e => (n,e)
  | left+1, n, e => if n%10 = 0 then stripTens left (n/10) (e+1) else (n,e)

/-- Unsigned arithmetic wraps around, which can be done at the end. -/
def compressAmount (amt : Int) : Nat :=
  let n := (amt%2^64).toNat
  if n = 0 then 0
  else
    let r := stripTens 9 n 0
    (if r.2 < 9 then 1+(r.1/10*9+r.1%10-1)*10+r.2 else 1+(r.1-1)*10+9)%2^64

def scaleTens : Nat → Nat → Nat
  | n, 0 => n
  | n, e+1 => scaleTens (n*10) e

def toInt64 (n : Nat) : Int := if n%2^64 < 2^63 then (n%2^64 : Nat) else (n%2^64 : Nat)-2^64

def decompressAmount (x : Nat) : Int :=
  if x = 0 then 0
  else
    let e := (x-1)%10
    let x := (x-1)/10
    toInt64 (scaleTens (if e < 9 then x/9*10+(x%9+1) else x+1) e)

/-- `TxOutCompression`; without token data the script itself is written. -/
def serializeTxOut (pk : PubKeyOps) (o : CTxOut) : Option Bytes :=
  match o.tokenData with
  | none => some (writeVarInt (compressAmount o.nValue)++serializeScript pk o.scriptPubKey)
  | some d => (wrapScriptPubKey (some d) o.scriptPubKey).map fun wspk =>
    writeVarInt (compressAmount o.nValue)++serializeScript pk wspk

def unserializeTxOut (pk : PubKeyOps) : Reader CTxOut := fun s =>
  (readVarInt uint64Max s).bind fun (v,s) =>
    (unserializeScript pk s).map fun (wspk,s) =>
      let r := unwrapScriptPubKey wspk
      (⟨decompressAmount v,if r.2.length > maxScriptSize then [opReturn] else r.2,r.1⟩,s)

section Amounts

theorem stripTens_spec (left n e : Nat) (hn : n ≠ 0) :
    (stripTens left n e).1*10^((stripTens left n e).2-e) = n ∧ (stripTens left n e).1 ≠ 0 ∧
      e ≤ (stripTens left n e).2 ∧ (stripTens left n e).2 ≤ e+left ∧
      ((stripTens left n e).2 < e+left → (stripTens left n e).1%10 ≠ 0) := by
  induction left generalizing n e with
  | zero => simp [stripTens,hn]
  | succ left ih =>
    rw [stripTens]
    split
    · obtain ⟨h1,h2,h3,h4,h5⟩ := ih (n/10) (e+1) (by omega)
      refine ⟨?_,h2,by omega,by omega,fun h => h5 (by omega)⟩
      rw [show (stripTens left (n/10) (e+1)).2-e = (stripTens left (n/10) (e+1)).2-(e+1)+1 by omega,
        pow_succ,← mul_assoc,h1]
      omega
    · rename_i h10
      exact ⟨by simp,hn,le_refl _,by omega,fun _ => h10⟩

theorem scaleTens_eq (n e : Nat) : scaleTens n e = n*10^e := by
  induction e generalizing n with
  | zero => simp [scaleTens]
  | succ e ih => rw [scaleTens,ih,pow_succ,mul_assoc,Nat.mul_comm 10]

theorem compressAmount_lt (amt : Int) : compressAmount amt ≤ uint64Max := by
  unfold compressAmount uint64Max
  dsimp only
  split
  · exact Nat.zero_le _
  · exact le_pred_of_lt (mod_lt _ (by decide))

theorem decompressAmount_compress {amt : Int} (h : moneyRange amt = true) :
    decompressAmount (compressAmount amt) = amt := by
  obtain ⟨h0,hmax⟩ := (moneyRange_iff _).mp h
  have hlt : amt ≤ 2100000000000000 := hmax
  have hn : (amt%2^64).toNat = amt.toNat := by omega
  unfold compressAmount
  rw [hn]
  dsimp only
  split
  · simp only [decompressAmount,if_true]
    omega
  · rename_i hz
    obtain ⟨hval,hne,-,hle,hlast⟩ := stripTens_spec 9 amt.toNat 0 hz
    rw [Nat.sub_zero] at hval
    generalize hr : stripTens 9 amt.toNat 0 = r at *
    obtain ⟨n,e⟩ := r
    have hpow : 1 ≤ 10^e := one_le_pow _ _ (by decide)
    have hbound : n ≤ amt.toNat := by
      rw [← hval]
      exact Nat.le_mul_of_pos_right _ hpow
    have hint : toInt64 amt.toNat = amt := by
      unfold toInt64
      rw [mod_eq_of_lt (by omega),if_pos (by omega)]
      omega
    by_cases he : e < 9
    · rw [if_pos he,mod_eq_of_lt (by omega)]
      unfold decompressAmount
      rw [if_neg (by omega)]
      have he' : (1+(n/10*9+n%10-1)*10+e-1)%10 = e := by omega
      have hx' : (1+(n/10*9+n%10-1)*10+e-1)/10 = n/10*9+n%10-1 := by omega
      simp only [he',hx']
      rw [if_pos he,show (n/10*9+n%10-1)/9*10+((n/10*9+n%10-1)%9+1) = n by omega,scaleTens_eq,hval,hint]
    · have he9 : e = 9 := by omega
      subst he9
      rw [if_neg (by omega),mod_eq_of_lt (by omega)]
      unfold decompressAmount
      rw [if_neg (by omega)]
      have he' : (1+(n-1)*10+9-1)%10 = 9 := by omega
      have hx' : (1+(n-1)*10+9-1)/10 = n-1 := by omega
      simp only [he',hx']
      rw [if_neg (by omega),show n-1+1 = n by omega,scaleTens_eq,hval,hint]
end Amounts

section Scripts

variable {pk : PubKeyOps} {script : CScript}

theorem readVarInt_byte (b : UInt8) (hb : b.toNat < 128) (s : Bytes) :
    readVarInt uint32Max (b::s) = some (b.toNat,s) := by
  unfold readVarInt readVarIntFrom
  simp only [gt_iff_lt,not_lt_zero,if_false,Nat.zero_mul,Nat.zero_add]
  rw [if_pos hb,mod_eq_of_lt hb]

private theorem unserializeScript_special (code : UInt8) (payload : Bytes) (hcode : code.toNat < nSpecialScripts)
    (hlen : payload.length = getSpecialScriptSize code.toNat)
    (hdec : decompressScript pk code.toNat payload = some script) (rest : Bytes) :
    unserializeScript pk (code::payload++rest) = some (script,rest) := by
  unfold unserializeScript
  rw [cons_append,readVarInt_byte code (hcode.trans (by decide))]
  dsimp only [Option.bind]
  rw [if_pos hcode,← hlen,readBytes_append,Option.map_some,hdec]
  rfl

private theorem take_drop_split (l : Bytes) (a b : Nat) : l.take a++(l.drop a).take b++l.drop (a+b) = l := by
  rw [append_assoc,← drop_drop,take_append_drop,take_append_drop]

private theorem payload_length {l : Bytes} {n a b : Nat} (hl : l.length = n) (hab : a+b ≤ n) :
    ((l.drop a).take b).length = b := by
  rw [length_take,length_drop]
  omega

private theorem hash_round {code : UInt8} (hcode : code.toNat < nSpecialScripts)
    (hsize : getSpecialScriptSize code.toNat = 20) {n a : Nat} {start stop : Bytes}
    (h : (script.length = n ∧ script.take a = start) ∧ script.drop (a+20) = stop) (ha : a+20 ≤ n)
    (hdec : ∀ payload, decompressScript pk code.toNat payload = some (start++payload++stop)) (rest : Bytes) :
    unserializeScript pk (code::(script.drop a).take 20++rest) = some (script,rest) := by
  obtain ⟨⟨hl,rfl⟩,rfl⟩ := h
  refine unserializeScript_special code _ hcode ((payload_length hl ha).trans hsize.symm) ?_ rest
  rw [hdec,take_drop_split]

private theorem compressedPubKey_round (h : script.isToCompressedPubKey = true) (rest : Bytes) :
    unserializeScript pk ((script.drop 1).take 33++rest) = some (script,rest) := by
  simp only [CScript.isToCompressedPubKey,Bool.and_eq_true,Bool.or_eq_true,beq_iff_eq] at h
  obtain ⟨⟨⟨hl,ht⟩,hd⟩,hcode⟩ := h
  obtain ⟨code,hc⟩ : ∃ code, script[1]? = some code := by
    rcases hcode with hcode | hcode <;> exact ⟨_,hcode⟩
  have hdrop : script.drop 1 = code::script.drop 2 := by
    obtain ⟨h1,hget⟩ := List.getElem?_eq_some_iff.mp hc
    rw [drop_eq_getElem_cons h1,hget]
  have hsplit := take_drop_split script 1 33
  rw [ht,hdrop,hd,take_succ_cons] at hsplit
  rw [hdrop,take_succ_cons]
  have hcode' : code = 2 ∨ code = 3 := by
    rw [hc] at hcode
    exact hcode.imp Option.some.inj Option.some.inj
  have hpayload : ((script.drop 2).take 32).length = 32 := payload_length hl (by omega)
  rcases hcode' with rfl | rfl
  · refine unserializeScript_special 2 ((script.drop 2).take 32) (by decide) hpayload ?_ rest
    exact congrArg some hsplit
  · refine unserializeScript_special 3 ((script.drop 2).take 32) (by decide) hpayload ?_ rest
    exact congrArg some hsplit

private theorem parity_cases (b : UInt8) : b&&&1 = 0 ∨ b&&&1 = 1 := by
  have hnat : (b&&&1).toNat = b.toNat%2 := by simp [and_one_is_mod]
  rcases mod_two_eq_zero_or_one b.toNat with h0 | h1
  · exact .inl (UInt8.toNat_inj.mp (hnat.trans h0))
  · exact .inr (UInt8.toNat_inj.mp (hnat.trans h1))

private theorem uncompressedPubKey_round (h : script.isToUncompressedPubKey pk = true) (rest : Bytes) :
    unserializeScript pk ((4 ||| (script.getD 65 0 &&& 1))::(script.drop 2).take 32++rest) = some (script,rest) := by
  simp only [CScript.isToUncompressedPubKey,Bool.and_eq_true,beq_iff_eq] at h
  obtain ⟨⟨⟨hl,ht⟩,hd⟩,hvalid⟩ := h
  obtain ⟨last,hlast⟩ : ∃ last, script[65]? = some last := ⟨_,List.getElem?_eq_getElem (by omega)⟩
  have hgetD : script.getD 65 0 = last := by simp [hlast]
  have hdrop65 : script.drop 65 = last::[opCheckSig] := by
    obtain ⟨h1,hget⟩ := List.getElem?_eq_some_iff.mp hlast
    rw [drop_eq_getElem_cons h1,hget,hd]
  have hbody : script.drop 2 = (script.drop 2).take 32++(script.drop 34).take 31++(last::[opCheckSig]) := by
    have hs := take_drop_split (script.drop 2) 32 31
    rw [drop_drop,drop_drop,hdrop65] at hs
    exact hs.symm
  have hx : ((script.drop 2).take 32).length = 32 := payload_length hl (by omega)
  have hy : ((script.drop 34).take 31).length = 31 := payload_length hl (by omega)
  generalize (script.drop 2).take 32 = x at *
  generalize (script.drop 34).take 31 = y at *
  have hwhole : script = [65]++(4::x++y++[last])++[opCheckSig] := by
    have hs := (take_append_drop 2 script).symm
    rw [ht,hbody] at hs
    simpa using hs
  have hkey : (script.drop 1).take 65 = 4::x++y++[last] := by
    rw [hwhole]
    exact take_left' (by simp [hx,hy])
  rw [hkey] at hvalid
  have hdec := pk.decompress_eq x y last hx hy hvalid
  rw [hgetD]
  rcases parity_cases last with hp | hp
  · rw [hp] at hdec ⊢
    refine unserializeScript_special 4 x (by decide) hx ?_ rest
    change (pk.decompress (2::x)).map _ = _
    rw [show (2 : UInt8) = 2+0 by decide,hdec,Option.map_some]
    exact congrArg some hwhole.symm
  · rw [hp] at hdec ⊢
    refine unserializeScript_special 5 x (by decide) hx ?_ rest
    change (pk.decompress (3::x)).map _ = _
    rw [show (3 : UInt8) = 2+1 by decide,hdec,Option.map_some]
    exact congrArg some hwhole.symm

theorem unserializeScript_serialize (pk : PubKeyOps) (script : CScript)
    (hlen : script.length+nSpecialScripts < 2^32) (rest : Bytes) :
    unserializeScript pk (serializeScript pk script++rest) = some (script,rest) := by
  unfold serializeScript compressScript
  split
  · rename_i compr hcompr
    split at hcompr
    · rename_i h
      cases hcompr
      simp only [CScript.isPayToPubKeyHash,Bool.and_eq_true,beq_iff_eq] at h
      exact hash_round (by decide) rfl h (by decide) (fun _ => rfl) rest
    split at hcompr
    · rename_i h
      cases hcompr
      simp only [CScript.isPayToScriptHash,Bool.and_eq_true,beq_iff_eq] at h
      exact hash_round (by decide) rfl h (by decide) (fun _ => rfl) rest
    split at hcompr
    · rename_i h
      cases hcompr
      exact compressedPubKey_round h rest
    split at hcompr
    · rename_i h
      cases hcompr
      exact uncompressedPubKey_round h rest
    · cases hcompr
  · have hle : script.length+nSpecialScripts ≤ uint32Max := le_pred_of_lt hlen
    unfold unserializeScript
    rw [mod_eq_of_lt hlen,append_assoc,readVarInt_write _ _ hle]
    dsimp only [Option.bind]
    rw [if_neg (by omega),Nat.add_sub_cancel,readBytes_append]

/-- The form a script is stored in, as told by the number in front of it. -/
structure StoredForm (pk : PubKeyOps) (script : CScript) (nSize : Nat) : Prop where
  pubKeyHash : nSize = 0 ↔ script.isPayToPubKeyHash = true
  scriptHash : nSize = 1 ↔ script.isPayToScriptHash = true
  compressedPubKey : nSize = 2 ∨ nSize = 3 ↔ script.isToCompressedPubKey = true
  uncompressedPubKey : nSize = 4 ∨ nSize = 5 ↔ script.isToUncompressedPubKey pk = true
  raw : nSpecialScripts ≤ nSize ↔ compressScript pk script = none

private theorem pubKeyHash_length (h : script.isPayToPubKeyHash = true) : script.length = 25 := by
  simp only [CScript.isPayToPubKeyHash,Bool.and_eq_true,beq_iff_eq] at h
  exact h.1.1

private theorem scriptHash_length (h : script.isPayToScriptHash = true) : script.length = 23 := by
  simp only [CScript.isPayToScriptHash,Bool.and_eq_true,beq_iff_eq] at h
  exact h.1.1

private theorem compressedPubKey_length (h : script.isToCompressedPubKey = true) : script.length = 35 := by
  simp only [CScript.isToCompressedPubKey,Bool.and_eq_true,beq_iff_eq] at h
  exact h.1.1.1

private theorem uncompressedPubKey_length (h : script.isToUncompressedPubKey pk = true) : script.length = 67 := by
  simp only [CScript.isToUncompressedPubKey,Bool.and_eq_true,beq_iff_eq] at h
  exact h.1.1.1

private theorem storedForm_of_form (nSize : Nat)
    (h : nSize = 0 ∧ script.isPayToPubKeyHash = true ∨ nSize = 1 ∧ script.isPayToScriptHash = true ∨
      (nSize = 2 ∨ nSize = 3) ∧ script.isToCompressedPubKey = true ∨
      (nSize = 4 ∨ nSize = 5) ∧ script.isToUncompressedPubKey pk = true) : StoredForm pk script nSize := by
  have h1 : script.isPayToPubKeyHash = true → script.length = 25 := pubKeyHash_length
  have h2 : script.isPayToScriptHash = true → script.length = 23 := scriptHash_length
  have h3 : script.isToCompressedPubKey = true → script.length = 35 := compressedPubKey_length
  have h4 : script.isToUncompressedPubKey pk = true → script.length = 67 := uncompressedPubKey_length
  have other : ∀ {P : Prop} {form : Bool} {n : Nat}, ¬P → (form = true → script.length = n) → script.length ≠ n →
      (P ↔ form = true) := fun hP hform hlen => iff_of_false hP fun h => hlen (hform h)
  have hraw : nSpecialScripts ≤ nSize ↔ compressScript pk script = none := by
    refine iff_of_false ?_ ?_
    · rw [nSpecialScripts]
      omega
    · rw [compressScript]
      split_ifs with hc1 hc2 hc3 hc4
      all_goals simp only [not_false_eq_true,not_true_eq_false]
      tauto
  obtain ⟨hn,h⟩ | ⟨hn,h⟩ | ⟨hn,h⟩ | ⟨hn,h⟩ := h
  · have hlen := h1 h
    exact ⟨iff_of_true hn h,other (by omega) h2 (by omega),other (by omega) h3 (by omega),
      other (by omega) h4 (by omega),hraw⟩
  · have hlen := h2 h
    exact ⟨other (by omega) h1 (by omega),iff_of_true hn h,other (by omega) h3 (by omega),
      other (by omega) h4 (by omega),hraw⟩
  · have hlen := h3 h
    exact ⟨other (by omega) h1 (by omega),other (by omega) h2 (by omega),iff_of_true hn h,
      other (by omega) h4 (by omega),hraw⟩
  · have hlen := h4 h
    exact ⟨other (by omega) h1 (by omega),other (by omega) h2 (by omega),other (by omega) h3 (by omega),
      iff_of_true hn h,hraw⟩

theorem readVarInt_serializeScript (hlen : script.length+nSpecialScripts < 2^32) (rest : Bytes) :
    ∃ nSize s, readVarInt uint32Max (serializeScript pk script++rest) = some (nSize,s) ∧
      StoredForm pk script nSize := by
  by_cases h1 : script.isPayToPubKeyHash = true
  · rw [serializeScript,compressScript,if_pos h1]
    exact ⟨0,_,readVarInt_byte 0 (by decide) _,storedForm_of_form 0 (.inl ⟨rfl,h1⟩)⟩
  by_cases h2 : script.isPayToScriptHash = true
  · rw [serializeScript,compressScript,if_neg h1,if_pos h2]
    exact ⟨1,_,readVarInt_byte 1 (by decide) _,storedForm_of_form 1 (.inr (.inl ⟨rfl,h2⟩))⟩
  by_cases h3 : script.isToCompressedPubKey = true
  · have hcode := h3
    simp only [CScript.isToCompressedPubKey,Bool.and_eq_true,Bool.or_eq_true,beq_iff_eq] at hcode
    rw [serializeScript,compressScript,if_neg h1,if_neg h2,if_pos h3]
    rcases hcode.2 with hc | hc
    · obtain ⟨hlt,hget⟩ := List.getElem?_eq_some_iff.mp hc
      rw [drop_eq_getElem_cons hlt,hget,take_succ_cons,cons_append]
      exact ⟨2,_,readVarInt_byte 2 (by decide) _,storedForm_of_form 2 (.inr (.inr (.inl ⟨.inl rfl,h3⟩)))⟩
    · obtain ⟨hlt,hget⟩ := List.getElem?_eq_some_iff.mp hc
      rw [drop_eq_getElem_cons hlt,hget,take_succ_cons,cons_append]
      exact ⟨3,_,readVarInt_byte 3 (by decide) _,storedForm_of_form 3 (.inr (.inr (.inl ⟨.inr rfl,h3⟩)))⟩
  by_cases h4 : script.isToUncompressedPubKey pk = true
  · rw [serializeScript,compressScript,if_neg h1,if_neg h2,if_neg h3,if_pos h4]
    rw [cons_append]
    rcases parity_cases (script.getD 65 0) with hp | hp
    · rw [hp]
      exact ⟨4,_,readVarInt_byte 4 (by decide) _,storedForm_of_form 4 (.inr (.inr (.inr ⟨.inl rfl,h4⟩)))⟩
    · rw [hp]
      exact ⟨5,_,readVarInt_byte 5 (by decide) _,storedForm_of_form 5 (.inr (.inr (.inr ⟨.inr rfl,h4⟩)))⟩
  · have hnone : compressScript pk script = none := by
      rw [compressScript,if_neg h1,if_neg h2,if_neg h3,if_neg h4]
    refine ⟨script.length+nSpecialScripts,script++rest,?_,?_⟩
    · rw [serializeScript,hnone]
      rw [mod_eq_of_lt hlen,append_assoc]
      exact readVarInt_write _ _ (le_pred_of_lt hlen) _
    · have hsix : nSpecialScripts = 6 := rfl
      constructor <;> simp_all

theorem serializeScript_injective {script' : CScript} {rest rest' : Bytes}
    (hlen : script.length+nSpecialScripts < 2^32) (hlen' : script'.length+nSpecialScripts < 2^32)
    (h : serializeScript pk script++rest = serializeScript pk script'++rest') : script = script' ∧ rest = rest' := by
  have hread := unserializeScript_serialize pk script hlen rest
  rw [h,unserializeScript_serialize pk script' hlen' rest'] at hread
  obtain ⟨h1,h2⟩ := Prod.mk.inj (Option.some.inj hread)
  exact ⟨h1.symm,h2.symm⟩
end Scripts

section Outputs

theorem writeCompactSize_length (n : Nat) : 1 ≤ (writeCompactSize n).length ∧ (writeCompactSize n).length ≤ 9 := by
  unfold writeCompactSize
  split
  · simp
  split
  · simp
  split <;> simp

theorem unwrap_parsed {wspk : Bytes} {d : OutputData} {script : CScript}
    (h : unwrapScriptPubKey wspk = (some d,script)) : d.Parsed := by
  cases wspk with
  | nil => cases h
  | cons b rest =>
    dsimp only [unwrapScriptPubKey] at h
    split at h
    · split at h
      · rename_i d' script' hu
        obtain ⟨hd,-⟩ := Prod.mk.inj h
        cases hd
        exact OutputData.unserialize_parsed hu
      · cases h
    · cases h

private theorem commitmentField_length {d : OutputData} (hd : d.Parsed) :
    (OutputData.commitmentField d.hasCommitmentLength d.commitment).length ≤ 9+maxSize := by
  have hc := hd.commitment
  have hw := (writeCompactSize_length d.commitment.length).2
  unfold OutputData.commitmentField
  split
  · rename_i hp
    rw [if_pos hp] at hc
    rw [length_append]
    omega
  · simp

private theorem amountField_length (present : Bool) (a : Int) : (OutputData.amountField present a).length ≤ 9 := by
  unfold OutputData.amountField
  split
  · exact (writeCompactSize_length _).2
  · simp

theorem wrap_length {o : CTxOut} (ho : o.Unserialized) {bytes : Bytes}
    (hwrap : wrapScriptPubKey o.tokenData o.scriptPubKey = some bytes) :
    bytes.length ≤ o.scriptPubKey.length+maxSize+60 := by
  obtain ⟨wspk,hw⟩ := ho
  cases htok : o.tokenData with
  | none =>
    rw [htok] at hwrap
    cases hwrap
    omega
  | some d =>
    rw [htok] at hw hwrap
    have hd := unwrap_parsed hw
    have hs := OutputData.serialize_parsed hd
    simp only [wrapScriptPubKey,hs,Option.map_some,Option.some.injEq] at hwrap
    have h1 := commitmentField_length hd
    have h2 := amountField_length d.hasAmount d.amount
    subst hwrap
    simp only [cons_append,length_cons,length_append,serializeUint256,leBytes_length]
    omega

theorem txOut_roundTrips (pk : PubKeyOps) {o : CTxOut} (hmoney : moneyRange o.nValue = true)
    (hun : o.Unserialized) (hscript : o.scriptPubKey.length ≤ maxScriptSize) :
    RoundTrips (serializeTxOut pk) (unserializeTxOut pk) o := by
  obtain ⟨wspk,hw⟩ := hun
  obtain ⟨bytes,hwrap,hunwrap⟩ := unwrap_wrap_unwrap wspk
  rw [hw] at hwrap hunwrap
  have hlen := wrap_length ⟨wspk,hw⟩ hwrap
  have hsmall : bytes.length+nSpecialScripts < 2^32 := by
    unfold maxScriptSize at hscript
    unfold maxSize at hlen
    unfold nSpecialScripts
    omega
  refine ⟨writeVarInt (compressAmount o.nValue)++serializeScript pk bytes,?_,fun rest => ?_⟩
  · unfold serializeTxOut
    cases htok : o.tokenData with
    | none =>
      rw [htok] at hwrap
      cases hwrap
      rfl
    | some d =>
      rw [htok] at hwrap
      dsimp only
      rw [hwrap]
      rfl
  · unfold unserializeTxOut
    rw [append_assoc,readVarInt_write _ _ (compressAmount_lt _)]
    dsimp only [Option.bind]
    rw [unserializeScript_serialize pk bytes hsmall,Option.map_some]
    rw [hunwrap,decompressAmount_compress hmoney,if_neg (by dsimp only; omega)]
end Outputs
end BitfiniteCore
