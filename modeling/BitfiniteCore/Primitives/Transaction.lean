import BitfiniteCore.Primitives.Serialize

/-!
# Scripts, transactions and blocks

Hashes are stored in the transaction and in the header, as the source caches them.
-/

namespace BitfiniteCore
open Option

abbrev TxId := Uint256

abbrev BlockHash := Uint256

abbrev CScript := Bytes

def opReturn : UInt8 := 0x6a

def maxScriptSize : Nat := 10000

def CScript.isUnspendable (script : CScript) : Bool :=
  script.head? == some opReturn || decide (script.length > maxScriptSize)

namespace OutputData

def commitmentField (present : Bool) (c : NFTCommitment) : Bytes :=
  if present then writeCompactSize c.length++c else []

def amountField (present : Bool) (a : Int) : Bytes :=
  if present then writeCompactSize a.toNat else []

/-- The bytes written after the prefix byte of an output that carries a token. -/
def serialize (d : OutputData) : Option Bytes :=
  if !d.isValidBitfield then none
  else if d.hasCommitmentLength && d.commitment.isEmpty then none
  else if d.hasAmount && (d.amount ≤ 0 || d.amount > int64Max) then none
  else some (serializeUint256 d.id++(d.bitfield::(commitmentField d.hasCommitmentLength d.commitment++
    amountField d.hasAmount d.amount)))

def unserializeCommitment : Reader NFTCommitment := fun s =>
  (readCompactSizeWithLimit maxSize s).bind fun (n,s) =>
    (readBytes n s).filter fun r => !r.1.isEmpty

def unserializeAmount : Reader Int := fun s =>
  ((readCompactSizeWithLimit (2^64-1) s).filter fun r =>
    decide ((r.1 : Int) ≤ int64Max) && r.1 != 0).map fun (n,s) => ((n : Int),s)

def readCommitmentField (present : Bool) : Reader NFTCommitment := fun s =>
  if present then unserializeCommitment s else some ([],s)

def readAmountField (present : Bool) : Reader Int := fun s =>
  if present then unserializeAmount s else some (0,s)

def unserialize : Reader OutputData := fun s =>
  (unserializeUint256 s).bind fun (id,s) =>
    (readLE 1 s).bind fun (bits,s) =>
      let d : OutputData := ⟨id,UInt8.ofNat bits,0,[]⟩
      if !d.isValidBitfield then none
      else (readCommitmentField d.hasCommitmentLength s).bind fun (c,s) =>
        (readAmountField d.hasAmount s).map fun (a,s) =>
          ({ d with commitment := c, amount := a },s)

/-- What `unserialize` guarantees of the data it returns. -/
structure Parsed (d : OutputData) : Prop where
  bitfield : d.isValidBitfield = true
  commitment : if d.hasCommitmentLength then d.commitment ≠ [] ∧ d.commitment.length ≤ maxSize
    else d.commitment = []
  amount : if d.hasAmount then 0 < d.amount ∧ d.amount ≤ int64Max else d.amount = 0

private theorem readBytes_length {n : Nat} {s c rest : Bytes} (h : readBytes n s = some (c,rest)) : c.length = n := by
  unfold readBytes at h
  split at h
  · simp only [Option.some.injEq,Prod.mk.injEq] at h
    rw [← h.1,List.length_take]
    omega
  · cases h

private theorem readCompactSizeWithLimit_le {lim n : Nat} {s rest : Bytes}
    (h : readCompactSizeWithLimit lim s = some (n,rest)) : n ≤ lim := by
  cases s with
  | nil => cases h
  | cons b s =>
    have h2 := (filter_eq_some_iff.mp h).2
    simpa using h2

theorem unserializeCommitment_spec {s c rest : Bytes}
    (h : unserializeCommitment s = some (c,rest)) : c ≠ [] ∧ c.length ≤ maxSize := by
  obtain ⟨⟨n,s1⟩,hn,h⟩ := bind_eq_some_iff.mp h
  obtain ⟨hb,hne⟩ := filter_eq_some_iff.mp h
  refine ⟨by simpa using hne,?_⟩
  rw [readBytes_length hb]
  exact readCompactSizeWithLimit_le hn

theorem unserializeAmount_spec {s rest : Bytes} {a : Int}
    (h : unserializeAmount s = some (a,rest)) : 0 < a ∧ a ≤ int64Max := by
  obtain ⟨⟨n,s1⟩,hn,hEq⟩ := map_eq_some_iff.mp h
  have hc := (filter_eq_some_iff.mp hn).2
  simp only [Prod.mk.injEq] at hEq
  simp only [Bool.and_eq_true,decide_eq_true_eq,bne_iff_ne,ne_eq] at hc
  omega

theorem unserialize_parsed {s rest : Bytes} {d : OutputData} (h : unserialize s = some (d,rest)) : d.Parsed := by
  obtain ⟨⟨id,s1⟩,-,h⟩ := bind_eq_some_iff.mp h
  obtain ⟨⟨bits,s2⟩,-,h⟩ := bind_eq_some_iff.mp h
  simp only at h
  split at h
  · cases h
  rename_i hv
  obtain ⟨⟨c,s3⟩,hc,h⟩ := bind_eq_some_iff.mp h
  obtain ⟨⟨a,s4⟩,ha,h⟩ := map_eq_some_iff.mp h
  simp only [Prod.mk.injEq] at h
  obtain ⟨rfl,rfl⟩ := h
  rw [Bool.not_eq_true,Bool.not_eq_false'] at hv
  refine ⟨hv,?_,?_⟩
  · change if (OutputData.mk id (UInt8.ofNat bits) 0 []).hasCommitmentLength then _ else _
    unfold readCommitmentField at hc
    split at hc
    · rename_i hl
      rw [if_pos hl]
      exact unserializeCommitment_spec hc
    · rename_i hl
      rw [if_neg hl]
      simpa using (Prod.mk.inj (some.inj hc)).1.symm
  · change if (OutputData.mk id (UInt8.ofNat bits) 0 []).hasAmount then _ else _
    unfold readAmountField at ha
    split at ha
    · rename_i hl
      rw [if_pos hl]
      exact unserializeAmount_spec ha
    · rename_i hl
      rw [if_neg hl]
      simpa using (Prod.mk.inj (some.inj ha)).1.symm

private theorem unserializeCommitment_write (c rest : Bytes) (hne : c ≠ []) (hl : c.length ≤ maxSize) :
    unserializeCommitment (writeCompactSize c.length++c++rest) = some (c,rest) := by
  have hlt : c.length < 2^64 := lt_of_le_of_lt hl (by decide)
  unfold unserializeCommitment
  rw [List.append_assoc,readCompactSizeWithLimit_write maxSize c.length _ hlt hl]
  simp [readBytes_append,Option.filter,hne]

private theorem unserializeAmount_write (a : Int) (rest : Bytes) (hp : 0 < a) (hm : a ≤ int64Max) :
    unserializeAmount (writeCompactSize a.toNat++rest) = some (a,rest) := by
  have hm' : a ≤ 2^63-1 := hm
  have hto : (a.toNat : Int) = a := Int.toNat_of_nonneg (by omega)
  have hlt : a.toNat < 2^64 := by omega
  unfold unserializeAmount
  rw [readCompactSizeWithLimit_write (2^64-1) a.toNat _ hlt (by omega)]
  have hne : a.toNat ≠ 0 := by omega
  simp [Option.filter,hto,hm,hne]

private theorem readCommitmentField_write {present : Bool} {c : NFTCommitment}
    (hc : if present then c ≠ [] ∧ c.length ≤ maxSize else c = []) (s : Bytes) :
    readCommitmentField present (commitmentField present c++s) = some (c,s) := by
  cases present with
  | true => exact unserializeCommitment_write c s hc.1 hc.2
  | false =>
    obtain rfl : c = [] := by simpa using hc
    rfl

private theorem readAmountField_write {present : Bool} {a : Int}
    (ha : if present then 0 < a ∧ a ≤ int64Max else a = 0) (s : Bytes) :
    readAmountField present (amountField present a++s) = some (a,s) := by
  cases present with
  | true => exact unserializeAmount_write a s ha.1 ha.2
  | false =>
    obtain rfl : a = 0 := by simpa using ha
    rfl

private theorem readLE_byte (b : UInt8) (s : Bytes) : readLE 1 (b::s) = some (b.toNat,s) := by
  have h := readLE_leBytes 1 b.toNat s (by simpa using b.toNat_lt)
  have hm : b.toNat%256 = b.toNat := Nat.mod_eq_of_lt b.toNat_lt
  simpa [leBytes,hm] using h

theorem serialize_parsed {d : OutputData} (hd : d.Parsed) : d.serialize = some (serializeUint256 d.id++(d.bitfield::
      (commitmentField d.hasCommitmentLength d.commitment++amountField d.hasAmount d.amount))) := by
  rw [serialize,if_neg (by simp [hd.bitfield]),if_neg,if_neg]
  · intro h
    have ha := hd.amount
    simp only [Bool.and_eq_true,Bool.or_eq_true,decide_eq_true_eq] at h
    rw [if_pos h.1] at ha
    omega
  · intro h
    have hc := hd.commitment
    simp only [Bool.and_eq_true] at h
    rw [if_pos h.1] at hc
    exact hc.1 (by simpa using h.2)

theorem unserialize_serialize {d : OutputData} (hd : d.Parsed) (rest : Bytes) :
    ∃ bytes, d.serialize = some bytes ∧ unserialize (bytes++rest) = some (d,rest) := by
  refine ⟨_,serialize_parsed hd,?_⟩
  obtain ⟨id,bits,amount,commitment⟩ := d
  have hv : (OutputData.mk id bits 0 []).isValidBitfield = true := hd.bitfield
  have hc : (OutputData.mk id bits 0 []).hasCommitmentLength =
    (OutputData.mk id bits amount commitment).hasCommitmentLength := rfl
  have ha : (OutputData.mk id bits 0 []).hasAmount = (OutputData.mk id bits amount commitment).hasAmount := rfl
  simp only [unserialize,List.append_assoc,unserializeUint256_serialize,bind_some,
    List.cons_append,readLE_byte,UInt8.ofNat_toNat,hv,Bool.not_true,Bool.false_eq_true,if_false,hc,ha,
    readCommitmentField_write hd.commitment,readAmountField_write hd.amount,map_some]
end OutputData

def prefixByte : UInt8 := 0xef

def wrapScriptPubKey (tokenData : Option OutputData) (scriptPubKey : CScript) : Option Bytes :=
  match tokenData with
  | some d => d.serialize.map fun bytes => prefixByte::bytes++scriptPubKey
  | none => some scriptPubKey

/-- Token data that does not parse is left in the script. -/
def unwrapScriptPubKey (wspk : Bytes) : Option OutputData × CScript :=
  match wspk with
  | [] => (none,[])
  | b::rest =>
    if b = prefixByte then
      match OutputData.unserialize rest with
      | some (d,script) => (some d,script)
      | none => (none,wspk)
    else (none,wspk)

theorem unwrap_wrap_unwrap (wspk : Bytes) :
    ∃ bytes, wrapScriptPubKey (unwrapScriptPubKey wspk).1 (unwrapScriptPubKey wspk).2 = some bytes ∧
      unwrapScriptPubKey bytes = unwrapScriptPubKey wspk := by
  cases wspk with
  | nil => exact ⟨[],rfl,rfl⟩
  | cons b rest =>
    by_cases hb : b = prefixByte
    · cases hu : OutputData.unserialize rest with
      | none =>
        have he : unwrapScriptPubKey (b::rest) = (none,b::rest) := by
          simp [unwrapScriptPubKey,hb,hu]
        exact ⟨b::rest,by rw [he]; rfl,rfl⟩
      | some r =>
        obtain ⟨d,script⟩ := r
        have he : unwrapScriptPubKey (b::rest) = (some d,script) := by
          simp [unwrapScriptPubKey,hb,hu]
        obtain ⟨bytes,hs,hr⟩ :=
          OutputData.unserialize_serialize (OutputData.unserialize_parsed hu) script
        refine ⟨prefixByte::bytes++script,by simp [he,wrapScriptPubKey,hs],?_⟩
        rw [he,List.cons_append,unwrapScriptPubKey,if_pos rfl,hr]
    · have he : unwrapScriptPubKey (b::rest) = (none,b::rest) := by
        simp [unwrapScriptPubKey,hb]
      exact ⟨b::rest,by rw [he]; rfl,rfl⟩

def outPointNullIndex : Nat := 0xffffffff

structure COutPoint where
  txid : TxId
  n : Nat
deriving DecidableEq, Repr

def COutPoint.isNull (o : COutPoint) : Bool := o.txid == 0 && o.n == outPointNullIndex

/-- `operator<` of the source: by transaction id, then by index. -/
def COutPoint.less (a b : COutPoint) : Bool := decide (a.txid.toNat < b.txid.toNat) ||
    (a.txid == b.txid && decide (a.n < b.n))

structure CTxIn where
  prevout : COutPoint
  scriptSig : CScript
  nSequence : Nat
deriving DecidableEq, Repr

structure CTxOut where
  nValue : Int
  scriptPubKey : CScript
  tokenData : Option OutputData
deriving DecidableEq, Repr

namespace CTxOut

def null : CTxOut := ⟨-1,[],none⟩

def isNull (o : CTxOut) : Bool := o.nValue == -1

def hasUnparseableTokenData (o : CTxOut) : Bool := o.tokenData.isNone && o.scriptPubKey.head? == some prefixByte

def serialize (o : CTxOut) : Option Bytes :=
  (wrapScriptPubKey o.tokenData o.scriptPubKey).map fun wspk =>
    leBytes 8 (o.nValue%2^64).toNat++writeCompactSize wspk.length++wspk

def Unserialized (o : CTxOut) : Prop := ∃ wspk, unwrapScriptPubKey wspk = (o.tokenData,o.scriptPubKey)
end CTxOut

structure CTransaction where
  vin : List CTxIn
  vout : List CTxOut
  nVersion : Int
  nLockTime : Nat
  hash : TxId
deriving DecidableEq, Repr

def CTxIn.serialize (i : CTxIn) : Bytes := serializeUint256 i.prevout.txid++leBytes 4 i.prevout.n++
    writeCompactSize i.scriptSig.length++i.scriptSig++leBytes 4 i.nSequence

namespace CTransaction

def getId (tx : CTransaction) : TxId := tx.hash

def isCoinBase (tx : CTransaction) : Bool :=
  match tx.vin with
  | [i] => i.prevout.isNull
  | _ => false

def hasTokenOutputs (tx : CTransaction) : Bool := tx.vout.any fun o => o.tokenData.isSome

def hasOutputsWithUnparseableTokenData (tx : CTransaction) : Bool := tx.vout.any CTxOut.hasUnparseableTokenData

def serialize (tx : CTransaction) : Option Bytes :=
  (tx.vout.mapM CTxOut.serialize).map fun vout =>
    leBytes 4 (tx.nVersion%2^32).toNat++writeCompactSize tx.vin.length++
      (tx.vin.map CTxIn.serialize).flatten++writeCompactSize tx.vout.length++vout.flatten++
      leBytes 4 tx.nLockTime

def getValueOutFrom : Int → List CTxOut → Except Stop Int
  | nValueOut, [] => .ok nValueOut
  | nValueOut, o::vout => (addAmount nValueOut o.nValue).bind fun nValueOut =>
    if !moneyRange o.nValue || !moneyRange nValueOut then
      .error (.runtimeError "GetValueOut: value out of range")
    else getValueOutFrom nValueOut vout

def getValueOut (tx : CTransaction) : Except Stop Int := getValueOutFrom 0 tx.vout
end CTransaction

structure CBlockHeader where
  nVersion : Int
  hashPrevBlock : BlockHash
  hashMerkleRoot : Uint256
  nTime : Nat
  nBits : Nat
  nNonce : Nat
  hash : BlockHash
deriving DecidableEq, Repr

structure CBlock extends CBlockHeader where
  vtx : List CTransaction
deriving DecidableEq, Repr

def blockHeaderSize : Nat := 80

def CBlock.serializeSize (block : CBlock) : Option Nat :=
  (block.vtx.mapM CTransaction.serialize).map fun vtx =>
    blockHeaderSize+(writeCompactSize block.vtx.length).length+(vtx.map List.length).sum
end BitfiniteCore
