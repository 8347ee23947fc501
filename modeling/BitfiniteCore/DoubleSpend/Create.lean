import BitfiniteCore.Script.Interpreter

/-! # Creating a double-spend proof -/

namespace BitfiniteCore

structure Spender where
  txVersion : Nat
  outSequence : Nat
  lockTime : Nat
  hashPrevOutputs : Uint256
  hashSequence : Uint256
  hashOutputs : Uint256
  pushData : List Bytes
deriving DecidableEq, Repr

namespace Spender

def serialize (s : Spender) : Bytes := leBytes 4 s.txVersion++leBytes 4 s.outSequence++leBytes 4 s.lockTime++
    serializeUint256 s.hashPrevOutputs++serializeUint256 s.hashSequence++serializeUint256 s.hashOutputs++
    (writeCompactSize s.pushData.length++(s.pushData.map serializeBytes).flatten)

def sortKey (s : Spender) : Nat × Nat := (s.hashOutputs.toNat,s.hashPrevOutputs.toNat)
end Spender

structure DoubleSpendProof where
  outPoint : COutPoint
  spender1 : Spender
  spender2 : Spender
  hash : Uint256
deriving DecidableEq, Repr

namespace DoubleSpendProof

def maxPushDataSize : Nat := maxScriptElementSize

def serialize (p : DoubleSpendProof) : Bytes := p.outPoint.serialize++p.spender1.serialize++p.spender2.serialize

def isEmpty (p : DoubleSpendProof) : Bool := decide (p.outPoint.n > 2^31-1) || p.outPoint.txid == 0 || p.hash == 0

def checkPushData (pushData : List Bytes) : Except Stop Unit :=
  match pushData with
  | [data] => if data.length > maxPushDataSize then .error (.runtimeError "DSProof script size limit exceeded")
    else .ok ()
  | _ => .error (.runtimeError "DSProof must contain exactly 1 pushData")

def checkSanityOrThrow (p : DoubleSpendProof) : Except Stop Unit :=
  if p.isEmpty then .error (.runtimeError "DSProof is empty")
  else (checkPushData p.spender1.pushData).bind fun _ =>
    (checkPushData p.spender2.pushData).bind fun _ =>
      if p.spender1 = p.spender2 then .error (.runtimeError "DSProof both spenders are the same")
      else .ok ()

section Create

/-- What `DataFromTransaction` finds in the script of an input. -/
structure SignatureData where
  complete : Bool
  signatures : List Bytes

/-- `dataFromTransaction` stands for the verifying reader of the input script. -/
structure SignatureReader where
  isPubKeyHash : CScript → Bool
  dataFromTransaction : CTransaction → Nat → CTxOut → SignatureData

variable (sha256d : Bytes → Uint256) (reader : SignatureReader)

def hashTypeOf (signature : Bytes) : SigHashType := ⟨(signature.getLast?.getD 0).toUInt32⟩

def getP2PKHSignature (tx : CTransaction) (inputIndex : Nat) (txOut : CTxOut) : Except Stop Bytes :=
  if !reader.isPubKeyHash txOut.scriptPubKey then .error (.runtimeError "TxOut destination is not P2PKH")
  else
    let sigData := reader.dataFromTransaction tx inputIndex txOut
    if !sigData.complete then .error (.runtimeError "Specified tx input is not properly signed")
    else match sigData.signatures with
      | [vchRet] =>
        if vchRet.isEmpty then .error (.runtimeError "scriptSig has no signature")
        else if !(hashTypeOf vchRet).hasFork then
          .error (.runtimeError "Tx is not a BitFinite P2PKH transaction")
        else if (hashTypeOf vchRet).hasUtxos then
          .error (.runtimeError "SIGHASH_UTXOS is not currently supported by dsproof")
        else .ok vchRet
      | _ => .error (.runtimeError "Not a P2PKH signature")

/-- A serialization that throws; the writer refuses malformed token data. -/
def hashOf (bytes : Option Bytes) : Except Stop Uint256 :=
  match bytes with
  | some b => .ok (sha256d b)
  | none => .error (.runtimeError "serialize")

def hashTx (pushData : List Bytes) (tx : CTransaction) (inputIndex : Nat) :
    Except Stop (Uint256 × Uint256 × Uint256) :=
  let hashType := hashTypeOf (pushData.head?.getD [])
  let base := hashType.getBaseType
  let hashPrevOutputs := if hashType.hasAnyoneCanPay then 0 else sha256d (prevoutBytes tx.vin)
  let hashSequence := if hashType.hasAnyoneCanPay ∨ base = SigHashType.single ∨ base = SigHashType.none
    then 0 else sha256d (sequenceBytes tx.vin)
  let hashOutputs := if base ≠ SigHashType.single ∧ base ≠ SigHashType.none then
      hashOf sha256d (RoundTrip.writeEach CTxOut.serialize tx.vout)
    else if base = SigHashType.single then
      match tx.vout[inputIndex]? with
      | some out => hashOf sha256d out.serialize
      | none => .ok 0
    else .ok 0
  hashOutputs.map fun hashOutputs => (hashPrevOutputs,hashSequence,hashOutputs)

def findInput (tx : CTransaction) (prevout : COutPoint) : Option (Nat × CTxIn) :=
  (tx.vin.zipIdx.find? fun p => p.1.prevout = prevout).map fun p => (p.2,p.1)

/-- What `hashTx` gives for the two fields that are compared, from the input of `tx` that spends `prevout`. -/
def sortFields (tx : CTransaction) (prevout : COutPoint) (txOut : CTxOut) : Option (Uint256 × Uint256) :=
  (findInput tx prevout).bind fun input =>
    ((getP2PKHSignature reader tx input.1 txOut).bind fun sig => hashTx sha256d [sig] tx input.1).toOption.map
      fun hashes => (hashes.2.2,hashes.1)

def makeSpender (tx : CTransaction) (txin : CTxIn) (pushData : List Bytes)
    (hashes : Uint256 × Uint256 × Uint256) : Spender where
  txVersion := (tx.nVersion%2^32).toNat
  outSequence := txin.nSequence
  lockTime := tx.nLockTime
  hashPrevOutputs := hashes.1
  hashSequence := hashes.2.1
  hashOutputs := hashes.2.2
  pushData := pushData

def compareSpenders (s1 s2 : Spender) : Ordering :=
  if s1.hashOutputs.toNat = s2.hashOutputs.toNat then
    compare s1.hashPrevOutputs.toNat s2.hashPrevOutputs.toNat
  else compare s1.hashOutputs.toNat s2.hashOutputs.toNat

/-- Only a positive answer swaps. -/
def sortSpenders (s1 s2 : Spender) : Spender × Spender :=
  if compareSpenders s1 s2 = .gt then (s2,s1) else (s1,s2)

def setHash (p : DoubleSpendProof) : DoubleSpendProof := { p with hash := sha256d p.serialize }

def create (tx1 tx2 : CTransaction) (prevout : COutPoint) (txOut : CTxOut) : Except Stop DoubleSpendProof :=
  if tx1.hash = tx2.hash then
    .error (.logicError "DSProof create: CTransaction arguments must point to different transactions")
  else match findInput tx1 prevout,findInput tx2 prevout with
    | some (inputIndex1,in1), some (inputIndex2,in2) =>
      (getP2PKHSignature reader tx1 inputIndex1 txOut).bind fun sig1 =>
        (getP2PKHSignature reader tx2 inputIndex2 txOut).bind fun sig2 =>
          (hashTx sha256d [sig1] tx1 inputIndex1).bind fun hashes1 =>
            (hashTx sha256d [sig2] tx2 inputIndex2).bind fun hashes2 =>
              let sorted := sortSpenders (makeSpender tx1 in1 [sig1] hashes1) (makeSpender tx2 in2 [sig2] hashes2)
              let answer := setHash sha256d ⟨in1.prevout,sorted.1,sorted.2,0⟩
              (checkSanityOrThrow answer).bind fun _ => .ok answer
    | _, _ => .error (.runtimeError
        "Transactions do not double spend each other with the specified COutPoint")
end Create

section Symmetric

variable {sha256d : Bytes → Uint256} {reader : SignatureReader}
  {tx tx1 tx2 : CTransaction} {prevout : COutPoint} {txOut : CTxOut} {s1 s2 : Spender}

def IsSpender (sha256d : Bytes → Uint256) (reader : SignatureReader) (prevout : COutPoint) (txOut : CTxOut)
    (tx : CTransaction) (s : Spender) : Prop :=
  ∃ inputIndex txin sig hashes, findInput tx prevout = some (inputIndex,txin) ∧
    getP2PKHSignature reader tx inputIndex txOut = .ok sig ∧
    hashTx sha256d [sig] tx inputIndex = .ok hashes ∧ s = makeSpender tx txin [sig] hashes

theorem IsSpender.unique (h1 : IsSpender sha256d reader prevout txOut tx s1)
    (h2 : IsSpender sha256d reader prevout txOut tx s2) : s1 = s2 := by
  obtain ⟨i,txin,sig,hashes,hi,hsig,hh,rfl⟩ := h1
  obtain ⟨i',txin',sig',hashes',hi',hsig',hh',rfl⟩ := h2
  rw [hi] at hi'
  cases hi'
  rw [hsig] at hsig'
  cases hsig'
  rw [hh] at hh'
  cases hh'
  rfl

theorem IsSpender.sortFields_eq {s : Spender} (h : IsSpender sha256d reader prevout txOut tx s) :
    sortFields sha256d reader tx prevout txOut = some (s.hashOutputs,s.hashPrevOutputs) := by
  obtain ⟨i,txin,sig,hashes,hi,hsig,hh,rfl⟩ := h
  rw [sortFields,hi,Option.bind_some,hsig,Except.bind,hh]
  rfl

theorem sortKey_eq_iff : s1.sortKey = s2.sortKey ↔
    some (s1.hashOutputs,s1.hashPrevOutputs) = some (s2.hashOutputs,s2.hashPrevOutputs) := by
  simp [Spender.sortKey,BitVec.toNat_inj]

theorem findInput_prevout {i : Nat} {txin : CTxIn} (h : findInput tx prevout = some (i,txin)) :
    txin.prevout = prevout := by
  obtain ⟨p,hp,he⟩ := Option.map_eq_some_iff.mp h
  have hf := List.find?_some hp
  rw [Prod.mk.injEq] at he
  rw [← he.2]
  exact of_decide_eq_true hf

theorem checkSanityOrThrow_ok {p : DoubleSpendProof} {u : Unit} (h : checkSanityOrThrow p = .ok u) :
    p.spender1 ≠ p.spender2 := by
  intro he
  unfold checkSanityOrThrow at h
  split at h
  · cases h
  · obtain ⟨_,-,h⟩ := except_bind_ok.mp h
    obtain ⟨_,-,h⟩ := except_bind_ok.mp h
    cases h

theorem create_ok {p : DoubleSpendProof} (h : create sha256d reader tx1 tx2 prevout txOut = .ok p) :
    ∃ s1 s2, IsSpender sha256d reader prevout txOut tx1 s1 ∧ IsSpender sha256d reader prevout txOut tx2 s2 ∧
      p = setHash sha256d ⟨prevout,(sortSpenders s1 s2).1,(sortSpenders s1 s2).2,0⟩ ∧
      p.spender1 ≠ p.spender2 := by
  unfold create at h
  split at h
  · cases h
  split at h
  · rename_i i1 in1 i2 in2 hf1 hf2
    obtain ⟨sig1,hsig1,h⟩ := except_bind_ok.mp h
    obtain ⟨sig2,hsig2,h⟩ := except_bind_ok.mp h
    obtain ⟨hashes1,hh1,h⟩ := except_bind_ok.mp h
    obtain ⟨hashes2,hh2,h⟩ := except_bind_ok.mp h
    rw [findInput_prevout hf1] at h
    refine ⟨_,_,⟨i1,in1,sig1,hashes1,hf1,hsig1,hh1,rfl⟩,⟨i2,in2,sig2,hashes2,hf2,hsig2,hh2,rfl⟩,?_⟩
    obtain ⟨_,hsane,he⟩ := except_bind_ok.mp h
    cases he
    exact ⟨rfl,checkSanityOrThrow_ok hsane⟩
  · cases h

theorem sortSpenders_comm (h : s1.sortKey ≠ s2.sortKey) : sortSpenders s1 s2 = sortSpenders s2 s1 := by
  have hdiff : compareSpenders s1 s2 = .gt ↔ ¬compareSpenders s2 s1 = .gt := by
    unfold compareSpenders
    by_cases ho : s1.hashOutputs.toNat = s2.hashOutputs.toNat
    · have hp : s1.hashPrevOutputs.toNat ≠ s2.hashPrevOutputs.toNat := by
        intro hp
        exact h (by rw [Spender.sortKey,Spender.sortKey,ho,hp])
      rw [if_pos ho,if_pos ho.symm,Nat.compare_eq_gt,Nat.compare_eq_gt]
      omega
    · rw [if_neg ho,if_neg (Ne.symm ho),Nat.compare_eq_gt,Nat.compare_eq_gt]
      omega
  unfold sortSpenders
  by_cases hgt : compareSpenders s1 s2 = .gt
  · rw [if_pos hgt,if_neg (hdiff.mp hgt)]
  · rw [if_neg hgt,if_pos (not_not.mp (mt hdiff.mpr hgt))]

theorem sortSpenders_of_eq (h : s1.sortKey = s2.sortKey) : sortSpenders s1 s2 = (s1,s2) := by
  rw [Spender.sortKey,Spender.sortKey,Prod.mk.injEq] at h
  simp [sortSpenders,compareSpenders,h.1,h.2]

/-- Both orders of the arguments give one proof with one id exactly for transactions that `hashTx` tells apart. -/
theorem create_comm_iff {p p' : DoubleSpendProof} (h : create sha256d reader tx1 tx2 prevout txOut = .ok p)
    (h' : create sha256d reader tx2 tx1 prevout txOut = .ok p') :
    (p = p' ∧ p.hash = p'.hash) ↔
      sortFields sha256d reader tx1 prevout txOut ≠ sortFields sha256d reader tx2 prevout txOut := by
  obtain ⟨s1,s2,hs1,hs2,rfl,hne⟩ := create_ok h
  obtain ⟨s2',s1',hs2',hs1',rfl,-⟩ := create_ok h'
  cases hs1.unique hs1'
  cases hs2.unique hs2'
  rw [hs1.sortFields_eq,hs2.sortFields_eq,ne_eq,← sortKey_eq_iff]
  constructor
  · rintro ⟨he,-⟩ hk
    rw [sortSpenders_of_eq hk,sortSpenders_of_eq hk.symm] at he
    rw [sortSpenders_of_eq hk] at hne
    exact hne (congrArg DoubleSpendProof.spender1 he)
  · intro hk
    rw [sortSpenders_comm hk]
    exact ⟨rfl,rfl⟩
end Symmetric

section Instances

def spendOnce (value : Int) (nLockTime : Nat) (hash : TxId) : CTransaction :=
  ⟨[⟨⟨5,0⟩,[],0⟩],[⟨value,[0x51],none⟩],2,nLockTime,hash⟩

def signedAll : SignatureReader := ⟨fun _ => true,fun _ _ _ => ⟨true,[[0x41]]⟩⟩

def numberHash (bytes : Bytes) : Uint256 := BitVec.ofNat 256 (leNat bytes+1)

def spenderOnce (value : Int) (nLockTime : Nat) : Spender :=
  let tx := spendOnce value nLockTime 0
  ⟨2,0,nLockTime,numberHash (prevoutBytes tx.vin),numberHash (sequenceBytes tx.vin),
    numberHash ((RoundTrip.writeEach CTxOut.serialize tx.vout).getD []),[[0x41]]⟩

def proofOnce (s1 s2 : Spender) : DoubleSpendProof := setHash numberHash ⟨⟨5,0⟩,s1,s2,0⟩

theorem create_depends_on_order :
    ¬∀ (sha256d : Bytes → Uint256) (reader : SignatureReader) (tx1 tx2 : CTransaction) (prevout : COutPoint)
      (txOut : CTxOut) (p p' : DoubleSpendProof), tx1 ≠ tx2 →
      create sha256d reader tx1 tx2 prevout txOut = .ok p →
      create sha256d reader tx2 tx1 prevout txOut = .ok p' → p = p' := by
  intro h
  have h01 : create numberHash signedAll (spendOnce 1000 0 1) (spendOnce 1000 1 2) ⟨5,0⟩ ⟨2000,[],none⟩ =
      .ok (proofOnce (spenderOnce 1000 0) (spenderOnce 1000 1)) := by decide +kernel
  have h10 : create numberHash signedAll (spendOnce 1000 1 2) (spendOnce 1000 0 1) ⟨5,0⟩ ⟨2000,[],none⟩ =
      .ok (proofOnce (spenderOnce 1000 1) (spenderOnce 1000 0)) := by decide +kernel
  have he := congrArg (fun p => p.spender1.lockTime) (h _ _ _ _ _ _ _ _ (by decide) h01 h10)
  exact absurd he (by decide)

theorem create_comm_iff_spendOnce :
    ∃ p, create numberHash signedAll (spendOnce 1000 0 1) (spendOnce 1001 0 2) ⟨5,0⟩ ⟨2000,[],none⟩ = .ok p ∧
      create numberHash signedAll (spendOnce 1001 0 2) (spendOnce 1000 0 1) ⟨5,0⟩ ⟨2000,[],none⟩ = .ok p := by
  have h01 : create numberHash signedAll (spendOnce 1000 0 1) (spendOnce 1001 0 2) ⟨5,0⟩ ⟨2000,[],none⟩ =
      .ok (proofOnce (spenderOnce 1000 0) (spenderOnce 1001 0)) := by decide +kernel
  obtain ⟨p',h10⟩ : ∃ p',
      create numberHash signedAll (spendOnce 1001 0 2) (spendOnce 1000 0 1) ⟨5,0⟩ ⟨2000,[],none⟩ = .ok p' :=
    ⟨proofOnce (spenderOnce 1000 0) (spenderOnce 1001 0),by decide +kernel⟩
  have he := ((create_comm_iff h01 h10).mpr (by decide +kernel)).1
  exact ⟨_,h01,he ▸ h10⟩
end Instances
end DoubleSpendProof
end BitfiniteCore
