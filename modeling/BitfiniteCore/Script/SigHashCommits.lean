import BitfiniteCore.Script.SigHash

/-! # What a signature of all inputs and outputs commits to -/

namespace BitfiniteCore
open RoundTrip List Option

section Readers

/-- An output, with a bound on the length of its script. -/
def CTxOut.unserializeWith (limit : Nat) : Reader CTxOut := fun s =>
  (readLE 8 s).bind fun (nValue,s) =>
    (readCompactSizeWithLimit limit s).bind fun (n,s) =>
      (readBytes n s).map fun (wspk,s) =>
        (⟨toInt64 nValue,(unwrapScriptPubKey wspk).2,(unwrapScriptPubKey wspk).1⟩,s)

def CTxOut.unserialize : Reader CTxOut := CTxOut.unserializeWith maxSize

def CTxIn.unserialize : Reader CTxIn := fun s =>
  (unserializeUint256 s).bind fun (txid,s) =>
    (readLE 4 s).bind fun (n,s) =>
      (readCompactSizeWithLimit maxSize s).bind fun (len,s) =>
        (readBytes len s).bind fun (scriptSig,s) =>
          (readLE 4 s).map fun (nSequence,s) => (⟨⟨txid,n⟩,scriptSig,nSequence⟩,s)

def toInt32 (n : Nat) : Int := if n%2^32 < 2^31 then (n%2^32 : Nat) else (n%2^32 : Nat)-2^32

def CTransaction.unserialize (sha256d : Bytes → Uint256) : Reader CTransaction := fun s =>
  (readLE 4 s).bind fun (nVersion,s) =>
    (readCompactSizeWithLimit maxSize s).bind fun (nInputs,s) =>
      (readEach CTxIn.unserialize nInputs s).bind fun (vin,s) =>
        (readCompactSizeWithLimit maxSize s).bind fun (nOutputs,s) =>
          (readEach CTxOut.unserialize nOutputs s).bind fun (vout,s) =>
            (readLE 4 s).map fun (nLockTime,s) =>
              let tx : CTransaction := ⟨vin,vout,toInt32 nVersion,nLockTime,0⟩
              ({ tx with hash := (tx.serialize.map sha256d).getD 0 },s)

theorem leNat_lt (bs : Bytes) : leNat bs < 256^bs.length := by
  induction bs with
  | nil => exact Nat.one_pos
  | cons b bs ih =>
    have hb := b.toNat_lt
    rw [leNat,length_cons,Nat.pow_succ]
    omega

theorem readBytes_ok {k : Nat} {s bs rest : Bytes} (h : readBytes k s = some (bs,rest)) :
    bs.length = k ∧ s = bs++rest := by
  unfold readBytes at h
  split at h
  · rename_i hk
    cases h
    exact ⟨length_take_of_le hk,(take_append_drop k s).symm⟩
  · cases h

theorem readLE_ok {k n : Nat} {s rest : Bytes} (h : readLE k s = some (n,rest)) :
    n < 256^k ∧ rest.length ≤ s.length := by
  obtain ⟨⟨bs,r⟩,hr,he⟩ := map_eq_some_iff.mp h
  obtain ⟨rfl,rfl⟩ := Prod.mk.inj he
  obtain ⟨hlen,hs⟩ := readBytes_ok hr
  refine ⟨?_,by rw [hs,length_append]; omega⟩
  rw [← hlen]
  exact leNat_lt bs

theorem readCompactSizeWithLimit_ok {limit n : Nat} {s rest : Bytes}
    (h : readCompactSizeWithLimit limit s = some (n,rest)) : n ≤ limit ∧ rest.length ≤ s.length := by
  cases s with
  | nil => cases h
  | cons b s =>
    obtain ⟨hsized,hn⟩ := filter_eq_some_iff.mp h
    refine ⟨by simpa using hn,?_⟩
    have hrest : rest.length ≤ s.length := by
      split_ifs at hsized
      · obtain ⟨-,rfl⟩ := Prod.mk.inj (some.inj hsized)
        exact Nat.le_refl _
      all_goals exact (readLE_ok (filter_eq_some_iff.mp hsized).1).2
    exact hrest.trans (Nat.le_succ _)

theorem OutputData.unserialize_rest {s rest : Bytes} {d : OutputData}
    (h : OutputData.unserialize s = some (d,rest)) : rest.length ≤ s.length := by
  obtain ⟨⟨id,s1⟩,h1,h⟩ := bind_eq_some_iff.mp h
  obtain ⟨⟨id',s1'⟩,hid,he⟩ := map_eq_some_iff.mp h1
  obtain ⟨-,rfl⟩ := Prod.mk.inj he
  obtain ⟨⟨bits,s2⟩,h2,h⟩ := bind_eq_some_iff.mp h
  dsimp only at h
  split at h
  · cases h
  obtain ⟨⟨c,s3⟩,h3,h⟩ := bind_eq_some_iff.mp h
  obtain ⟨⟨a,s4⟩,h4,he⟩ := map_eq_some_iff.mp h
  obtain ⟨-,rfl⟩ := Prod.mk.inj he
  have hc : s3.length ≤ s2.length := by
    unfold OutputData.readCommitmentField at h3
    split at h3
    · obtain ⟨⟨n,t⟩,hn,h3⟩ := bind_eq_some_iff.mp h3
      obtain ⟨h3,-⟩ := filter_eq_some_iff.mp h3
      have ht := (readCompactSizeWithLimit_ok hn).2
      have hs := (readBytes_ok h3).2
      rw [hs,length_append] at ht
      omega
    · obtain ⟨-,rfl⟩ := Prod.mk.inj (some.inj h3)
      exact Nat.le_refl _
  have ha : s4.length ≤ s3.length := by
    unfold OutputData.readAmountField at h4
    split at h4
    · obtain ⟨⟨n,t⟩,hn,he⟩ := map_eq_some_iff.mp h4
      obtain ⟨-,rfl⟩ := Prod.mk.inj he
      exact (readCompactSizeWithLimit_ok (filter_eq_some_iff.mp hn).1).2
    · obtain ⟨-,rfl⟩ := Prod.mk.inj (some.inj h4)
      exact Nat.le_refl _
  exact ha.trans (hc.trans ((readLE_ok h2).2.trans (readLE_ok hid).2))

theorem unwrap_length (wspk : Bytes) : (unwrapScriptPubKey wspk).2.length ≤ wspk.length := by
  cases wspk with
  | nil => exact Nat.le_refl _
  | cons b rest =>
    dsimp only [unwrapScriptPubKey]
    split
    · cases hu : OutputData.unserialize rest with
      | none => exact Nat.le_refl _
      | some r => exact (OutputData.unserialize_rest hu).trans (Nat.le_succ _)
    · exact Nat.le_refl _

theorem toInt64_toNat {v : Int} (h : -2^63 ≤ v ∧ v < 2^63) : toInt64 (v%2^64).toNat = v := by
  unfold toInt64
  split <;> omega

theorem toInt64_range (n : Nat) : -2^63 ≤ toInt64 n ∧ toInt64 n < 2^63 := by
  unfold toInt64
  split <;> omega

/-- What reading an output from a stream guarantees. -/
structure CTxOut.Wire (o : CTxOut) : Prop where
  value : -2^63 ≤ o.nValue ∧ o.nValue < 2^63
  script : o.scriptPubKey.length ≤ maxSize
  tokens : o.Unserialized

theorem CTxOut.unserialize_wire {s rest : Bytes} {o : CTxOut} (h : CTxOut.unserialize s = some (o,rest)) :
    o.Wire := by
  obtain ⟨⟨v,s1⟩,-,h⟩ := bind_eq_some_iff.mp h
  obtain ⟨⟨n,s2⟩,hn,h⟩ := bind_eq_some_iff.mp h
  obtain ⟨⟨wspk,s3⟩,hw,he⟩ := map_eq_some_iff.mp h
  obtain ⟨rfl,-⟩ := Prod.mk.inj he
  refine ⟨toInt64_range v,?_,wspk,rfl⟩
  have hlen := unwrap_length wspk
  rw [(readBytes_ok hw).1] at hlen
  exact hlen.trans (readCompactSizeWithLimit_ok hn).1

theorem CTxOut.Wire.roundTrips {o : CTxOut} (h : o.Wire) :
    RoundTrips CTxOut.serialize (CTxOut.unserializeWith (2^64-1)) o := by
  obtain ⟨wspk,hw⟩ := h.tokens
  obtain ⟨bytes,hwrap,hunwrap⟩ := unwrap_wrap_unwrap wspk
  rw [hw] at hwrap hunwrap
  have hlen := wrap_length h.tokens hwrap
  have hscript := h.script
  have hsmall : bytes.length < 2^64 := by
    unfold maxSize at hlen hscript
    omega
  refine ⟨_,by rw [CTxOut.serialize,hwrap]; rfl,fun rest => ?_⟩
  unfold CTxOut.unserializeWith
  rw [append_assoc,append_assoc,readLE_leBytes 8 _ _ (by omega)]
  dsimp only [Option.bind]
  rw [readCompactSizeWithLimit_write _ _ _ hsmall (by omega)]
  dsimp only
  rw [readBytes_append,map_some,hunwrap,toInt64_toNat h.value]

/-- What reading a transaction from a stream guarantees. -/
structure CTransaction.Wire (tx : CTransaction) : Prop where
  nVersion : -2^31 ≤ tx.nVersion ∧ tx.nVersion < 2^31
  nLockTime : tx.nLockTime < 2^32
  vin : ∀ i ∈ tx.vin, i.prevout.n < 2^32 ∧ i.nSequence < 2^32
  vout : ∀ o ∈ tx.vout, o.Wire

theorem CTransaction.unserialize_wire {sha256d : Bytes → Uint256} {s rest : Bytes} {tx : CTransaction}
    (h : CTransaction.unserialize sha256d s = some (tx,rest)) : tx.Wire := by
  obtain ⟨⟨v,s1⟩,-,h⟩ := bind_eq_some_iff.mp h
  obtain ⟨⟨n,s2⟩,-,h⟩ := bind_eq_some_iff.mp h
  obtain ⟨⟨vin,s3⟩,hvin,h⟩ := bind_eq_some_iff.mp h
  obtain ⟨⟨m,s4⟩,-,h⟩ := bind_eq_some_iff.mp h
  obtain ⟨⟨vout,s5⟩,hvout,h⟩ := bind_eq_some_iff.mp h
  obtain ⟨⟨t,s6⟩,ht,he⟩ := map_eq_some_iff.mp h
  obtain ⟨rfl,-⟩ := Prod.mk.inj he
  refine ⟨?_,by simpa using (readLE_ok ht).1,readEach_forall ?_ _ hvin,
    readEach_forall (fun s o rest => CTxOut.unserialize_wire) _ hvout⟩
  · unfold toInt32
    dsimp only
    split <;> omega
  · intro s i rest h
    obtain ⟨⟨txid,s1⟩,-,h⟩ := bind_eq_some_iff.mp h
    obtain ⟨⟨n,s2⟩,hn,h⟩ := bind_eq_some_iff.mp h
    obtain ⟨⟨len,s3⟩,-,h⟩ := bind_eq_some_iff.mp h
    obtain ⟨⟨sig,s4⟩,-,h⟩ := bind_eq_some_iff.mp h
    obtain ⟨⟨q,s5⟩,hq,he⟩ := map_eq_some_iff.mp h
    obtain ⟨rfl,-⟩ := Prod.mk.inj he
    exact ⟨by simpa using (readLE_ok hn).1,by simpa using (readLE_ok hq).1⟩
end Readers

section Preimage

def COutPoint.unserialize : Reader COutPoint := fun s =>
  (unserializeUint256 s).bind fun (txid,s) => (readLE 4 s).map fun (n,s) => (⟨txid,n⟩,s)

theorem COutPoint.roundTrips {o : COutPoint} (h : o.n < 2^32) :
    RoundTrips (fun o => some (COutPoint.serialize o)) COutPoint.unserialize o := by
  refine ⟨_,rfl,fun rest => ?_⟩
  unfold COutPoint.unserialize COutPoint.serialize
  rw [append_assoc,unserializeUint256_serialize]
  dsimp only [Option.bind]
  rw [readLE_leBytes 4 _ _ (by omega),map_some]

theorem leBytes_roundTrips {k n : Nat} (h : n < 256^k) : RoundTrips (fun n => some (leBytes k n)) (readLE k) n :=
  ⟨_,rfl,fun rest => readLE_leBytes k n rest h⟩

theorem leBytes_inj {k m n : Nat} (hm : m < 256^k) (hn : n < 256^k) (h : leBytes k m = leBytes k n) : m = n :=
  ((leBytes_roundTrips hm).inj (leBytes_roundTrips hn) rfl rfl (congrArg (·++[]) h)).1

theorem serializeUint256_inj {x y : Uint256} (h : serializeUint256 x = serializeUint256 y) : x = y := by
  have hx := unserializeUint256_serialize x []
  rw [h,unserializeUint256_serialize y []] at hx
  exact (Prod.mk.inj (some.inj hx)).1.symm

@[simp] theorem serializeUint256_length (x : Uint256) : (serializeUint256 x).length = 32 := by
  simp [serializeUint256]

@[simp] theorem COutPoint.serialize_length (o : COutPoint) : o.serialize.length = 36 := by
  simp [COutPoint.serialize]

theorem fieldBytes_inj {β : Type} (field : CTxIn → β) (write : β → Bytes) (read : Reader β) {vin vin' : List CTxIn}
    (h : ∀ i ∈ vin, RoundTrips (fun b => some (write b)) read (field i))
    (h' : ∀ i ∈ vin', RoundTrips (fun b => some (write b)) read (field i)) (hne : ∀ b, write b ≠ [])
    (heq : (vin.map fun i => write (field i)).flatten = (vin'.map fun i => write (field i)).flatten) :
    vin.map field = vin'.map field := by
  have hwrite : ∀ vin : List CTxIn, writeEach (fun b => some (write b)) (vin.map field) =
      some (vin.map fun i => write (field i)).flatten := by
    intro vin
    rw [writeEach_some,List.map_map]
    rfl
  apply writeEach_inj read (forall_mem_map.mpr h) (forall_mem_map.mpr h') _ (hwrite vin) (heq ▸ hwrite vin')
  intro b s hs
  rw [← some.inj hs]
  exact hne b

theorem prevoutBytes_inj {vin vin' : List CTxIn} (h : ∀ i ∈ vin, i.prevout.n < 2^32)
    (h' : ∀ i ∈ vin', i.prevout.n < 2^32) (heq : prevoutBytes vin = prevoutBytes vin') :
    vin.map CTxIn.prevout = vin'.map CTxIn.prevout := by
  apply fieldBytes_inj CTxIn.prevout COutPoint.serialize COutPoint.unserialize _ _ _ heq
  · exact fun i hi => COutPoint.roundTrips (h i hi)
  · exact fun i hi => COutPoint.roundTrips (h' i hi)
  · exact fun o => ne_nil_of_length_pos (by rw [o.serialize_length]; decide)

theorem sequenceBytes_inj {vin vin' : List CTxIn} (h : ∀ i ∈ vin, i.nSequence < 2^32)
    (h' : ∀ i ∈ vin', i.nSequence < 2^32) (heq : sequenceBytes vin = sequenceBytes vin') :
    vin.map CTxIn.nSequence = vin'.map CTxIn.nSequence := by
  apply fieldBytes_inj CTxIn.nSequence (leBytes 4) (readLE 4) _ _ _ heq
  · exact fun i hi => leBytes_roundTrips (by have := h i hi; omega)
  · exact fun i hi => leBytes_roundTrips (by have := h' i hi; omega)
  · exact fun n => ne_nil_of_length_pos (by rw [leBytes_length]; decide)

theorem CTxOut.serialize_ne_nil {o : CTxOut} {s : Bytes} (h : o.serialize = some s) : s ≠ [] := by
  obtain ⟨wspk,-,rfl⟩ := map_eq_some_iff.mp h
  intro hnil
  have hlen := congrArg length hnil
  simp at hlen

theorem serializeBytes_inj {s t : Bytes} (hs : s.length < 2^64) (ht : t.length < 2^64)
    (h : serializeBytes s = serializeBytes t) : s = t := by
  unfold serializeBytes at h
  have hread := readCompactSizeWithLimit_write (2^64-1) s.length s hs (by omega)
  rw [h,readCompactSizeWithLimit_write (2^64-1) t.length t ht (by omega)] at hread
  exact (Prod.mk.inj (some.inj hread)).2.symm

theorem serializeBytes_head {s : Bytes} (h : (serializeBytes s).head? = some prefixByte) : s.length = 239 := by
  unfold serializeBytes writeCompactSize at h
  split at h
  · have hb : UInt8.ofNat (s.length%256) = prefixByte := by
      simpa [leBytes] using h
    have hn := congrArg UInt8.toNat hb
    simp [prefixByte] at hn
    omega
  split at h
  · exact absurd (some.inj h) (by decide)
  split at h
  · exact absurd (some.inj h) (by decide)
  · exact absurd (some.inj h) (by decide)

/-- All inputs and outputs, with replay protection. -/
def SigHashType.allForkId : SigHashType := ⟨SigHashType.all ||| SigHashType.forkId⟩

def hashedBytes (sha256d : Bytes → Uint256) (context : ScriptExecutionContext) (scriptCode : CScript)
    (flags : UInt32) : Set Bytes :=
  {s | s = prevoutBytes context.tx.vin ∨ s = sequenceBytes context.tx.vin ∨
    writeEach CTxOut.serialize context.tx.vout = some s ∨
    ∃ txin, context.tx.vin[context.nIn]? = some txin ∧
      forkPreimage sha256d context txin scriptCode .allForkId none flags = some s}

def allPreimage (sha256d : Bytes → Uint256) (tx : CTransaction) (txin : CTxIn) (coin : Coin)
    (blob outputs : Bytes) (scriptCode : CScript) : Bytes :=
  leBytes 4 (tx.nVersion%2^32).toNat++serializeUint256 (sha256d (prevoutBytes tx.vin))++
    []++serializeUint256 (sha256d (sequenceBytes tx.vin))++txin.prevout.serialize++blob++
    serializeBytes scriptCode++leBytes 8 (coin.out.nValue%2^64).toNat++
    leBytes 4 txin.nSequence++serializeUint256 (sha256d outputs)++
    leBytes 4 tx.nLockTime++SigHashType.allForkId.serialize

variable {sha256d : Bytes → Uint256} {context : ScriptExecutionContext} {scriptCode : CScript}
  {flags : UInt32} {txin : CTxIn}

private theorem allForkId_noUtxos : ¬(SigHashType.allForkId.hasUtxos = true ∧ flags &&& scriptEnableTokens ≠ 0) :=
  fun h => absurd h.1 (by decide)

private theorem forkPreimage_allForkId (cache : Option PrecomputedTransactionData) :
    forkPreimage sha256d context txin scriptCode .allForkId cache flags =
      ((cache.map PrecomputedTransactionData.hashOutputs).orElse fun _ => getOutputsHash sha256d context).bind
        fun hashOutputs => context.coin.bind fun coin => (tokenBlob coin.out flags).map fun blob =>
          leBytes 4 (context.tx.nVersion%2^32).toNat++ serializeUint256 (cache.elim (getPrevoutHash sha256d context)
              PrecomputedTransactionData.hashPrevouts)++[]++
            serializeUint256 (cache.elim (getSequenceHash sha256d context)
              PrecomputedTransactionData.hashSequence)++txin.prevout.serialize++blob++
            serializeBytes scriptCode++leBytes 8 (coin.out.nValue%2^64).toNat++
            leBytes 4 txin.nSequence++serializeUint256 hashOutputs++
            leBytes 4 context.tx.nLockTime++SigHashType.allForkId.serialize := by
  unfold forkPreimage
  dsimp only
  rw [if_neg allForkId_noUtxos,if_pos (by decide),if_neg (by decide),if_neg (by decide)]
  rfl

theorem forkPreimage_all {bytes : Bytes}
    (h : forkPreimage sha256d context txin scriptCode .allForkId none flags = some bytes) :
    ∃ coin blob outputs, context.coin = some coin ∧ tokenBlob coin.out flags = some blob ∧
      writeEach CTxOut.serialize context.tx.vout = some outputs ∧
      bytes = allPreimage sha256d context.tx txin coin blob outputs scriptCode := by
  rw [forkPreimage_allForkId] at h
  obtain ⟨hashOutputs,hout,h⟩ := bind_eq_some_iff.mp h
  obtain ⟨coin,hcoin,h⟩ := bind_eq_some_iff.mp h
  obtain ⟨blob,hblob,rfl⟩ := map_eq_some_iff.mp h
  obtain ⟨outputs,houtputs,rfl⟩ := map_eq_some_iff.mp hout
  exact ⟨coin,blob,outputs,hcoin,hblob,houtputs,rfl⟩

theorem forkPreimage_cache {cache : PrecomputedTransactionData}
    (h : populateFromContext sha256d context = some cache) :
    forkPreimage sha256d context txin scriptCode .allForkId (some cache) flags =
      forkPreimage sha256d context txin scriptCode .allForkId none flags := by
  obtain ⟨hashOutputs,hout,h⟩ := bind_eq_some_iff.mp h
  have hcache : cache.hashPrevouts = getPrevoutHash sha256d context ∧
      cache.hashSequence = getSequenceHash sha256d context ∧ cache.hashOutputs = hashOutputs := by
    split at h
    · cases h
      exact ⟨rfl,rfl,rfl⟩
    · obtain ⟨u,-,rfl⟩ := map_eq_some_iff.mp h
      exact ⟨rfl,rfl,rfl⟩
  obtain ⟨h1,h2,h3⟩ := hcache
  rw [forkPreimage_allForkId,forkPreimage_allForkId,map_some,map_none,hout,elim_some,elim_some,h1,h2,h3]
  rfl

theorem allPreimage_inj {tx tx' : CTransaction} {txin txin' : CTxIn} {coin coin' : Coin}
    {blob blob' outputs outputs' : Bytes} {scriptCode scriptCode' : CScript}
    (h : allPreimage sha256d tx txin coin blob outputs scriptCode =
      allPreimage sha256d tx' txin' coin' blob' outputs' scriptCode') :
    leBytes 4 (tx.nVersion%2^32).toNat = leBytes 4 (tx'.nVersion%2^32).toNat ∧
    sha256d (prevoutBytes tx.vin) = sha256d (prevoutBytes tx'.vin) ∧
    sha256d (sequenceBytes tx.vin) = sha256d (sequenceBytes tx'.vin) ∧
    txin.prevout.serialize = txin'.prevout.serialize ∧
    blob++serializeBytes scriptCode = blob'++serializeBytes scriptCode' ∧
    leBytes 8 (coin.out.nValue%2^64).toNat = leBytes 8 (coin'.out.nValue%2^64).toNat ∧
    leBytes 4 txin.nSequence = leBytes 4 txin'.nSequence ∧ sha256d outputs = sha256d outputs' ∧
    leBytes 4 tx.nLockTime = leBytes 4 tx'.nLockTime := by
  unfold allPreimage at h
  rw [append_nil,append_nil] at h
  -- the fixed parts are cut off at the end, then at the front
  obtain ⟨h,-⟩ := append_inj' h rfl
  obtain ⟨h,hlock⟩ := append_inj' h (by simp)
  obtain ⟨h,houtputs⟩ := append_inj' h (by simp)
  obtain ⟨h,hsequence⟩ := append_inj' h (by simp)
  obtain ⟨h,hvalue⟩ := append_inj' h (by simp)
  simp only [append_assoc] at h
  obtain ⟨hversion,h⟩ := append_inj h (by simp)
  obtain ⟨hprevouts,h⟩ := append_inj h (by simp)
  obtain ⟨hsequences,h⟩ := append_inj h (by simp)
  obtain ⟨hprevout,hcode⟩ := append_inj h (by simp)
  exact ⟨hversion,serializeUint256_inj hprevouts,serializeUint256_inj hsequences,hprevout,hcode,hvalue,
    hsequence,serializeUint256_inj houtputs,hlock⟩

def Coin.Unserialized (coin : Coin) : Prop := (∃ s rest, CTxOut.unserialize s = some (coin.out,rest)) ∨
    ∃ pk s rest, unserializeTxOut pk s = some (coin.out,rest)

theorem Coin.Unserialized.facts {coin : Coin} (h : coin.Unserialized) :
    (-2^63 ≤ coin.out.nValue ∧ coin.out.nValue < 2^63) ∧ ∀ d, coin.out.tokenData = some d → d.Parsed := by
  rcases h with ⟨s,rest,h⟩ | ⟨pk,s,rest,h⟩
  · have hwire := CTxOut.unserialize_wire h
    obtain ⟨wspk,hw⟩ := hwire.tokens
    refine ⟨hwire.value,fun d hd => ?_⟩
    rw [hd] at hw
    exact unwrap_parsed hw
  · obtain ⟨⟨v,s1⟩,-,h⟩ := bind_eq_some_iff.mp h
    obtain ⟨⟨wspk,s2⟩,-,he⟩ := map_eq_some_iff.mp h
    obtain ⟨he,-⟩ := Prod.mk.inj he
    rw [← he]
    refine ⟨?_,fun d hd => ?_⟩
    · dsimp only [decompressAmount]
      split
      · decide
      · exact toInt64_range _
    · exact unwrap_parsed (Prod.ext hd rfl)

theorem OutputData.Parsed.roundTrips {d : OutputData} (h : d.Parsed) :
    RoundTrips OutputData.serialize OutputData.unserialize d := by
  refine ⟨_,OutputData.serialize_parsed h,fun rest => ?_⟩
  obtain ⟨bytes,hs,hr⟩ := OutputData.unserialize_serialize h rest
  rw [OutputData.serialize_parsed h] at hs
  rw [some.inj hs]
  exact hr

/-- A script of 239 bytes, the byte that announces token data, that reads as token data. -/
def ReadsAsToken (tokenData : Option OutputData) (code : CScript) (tokenData' : Option OutputData)
    (code' : CScript) : Prop :=
  tokenData' = none ∧ code'.length = 239 ∧
    ∃ d bytes, tokenData = some d ∧ d.serialize = some bytes ∧ code' = bytes++serializeBytes code

theorem tokenBlob_mixed {d : OutputData} {bytes : Bytes} {code code' : CScript} (hs : d.serialize = some bytes)
    (h : prefixByte::bytes++serializeBytes code = serializeBytes code') :
    ReadsAsToken (some d) code none code' := by
  have hlen : code'.length = 239 := by
    apply serializeBytes_head
    rw [← h]
    rfl
  refine ⟨rfl,hlen,d,bytes,rfl,hs,?_⟩
  have hcode : serializeBytes code' = prefixByte::code' := by
    rw [serializeBytes,hlen]
    rfl
  rw [hcode] at h
  exact (List.cons.inj h).2.symm

theorem tokenBlob_inj {coin coin' : Coin} {code code' : CScript} {blob blob' : Bytes}
    (hflags : flags &&& scriptEnableTokens ≠ 0) (hd : ∀ d, coin.out.tokenData = some d → d.Parsed)
    (hd' : ∀ d, coin'.out.tokenData = some d → d.Parsed) (hc : code.length < 2^64) (hc' : code'.length < 2^64)
    (hb : tokenBlob coin.out flags = some blob) (hb' : tokenBlob coin'.out flags = some blob')
    (h : blob++serializeBytes code = blob'++serializeBytes code') :
    (coin.out.tokenData = coin'.out.tokenData ∧ code = code') ∨
      ReadsAsToken coin.out.tokenData code coin'.out.tokenData code' ∨
      ReadsAsToken coin'.out.tokenData code' coin.out.tokenData code := by
  unfold tokenBlob at hb hb'
  cases ht : coin.out.tokenData with
  | none =>
    rw [ht] at hb
    cases hb
    cases ht' : coin'.out.tokenData with
    | none =>
      rw [ht'] at hb'
      cases hb'
      exact .inl ⟨rfl,serializeBytes_inj hc hc' h⟩
    | some d' =>
      rw [ht'] at hb'
      dsimp only at hb'
      rw [if_pos hflags] at hb'
      obtain ⟨bytes',hs',rfl⟩ := map_eq_some_iff.mp hb'
      exact .inr (.inr (tokenBlob_mixed hs' h.symm))
  | some d =>
    rw [ht] at hb
    dsimp only at hb
    rw [if_pos hflags] at hb
    obtain ⟨bytes,hs,rfl⟩ := map_eq_some_iff.mp hb
    cases ht' : coin'.out.tokenData with
    | none =>
      rw [ht'] at hb'
      cases hb'
      exact .inr (.inl (tokenBlob_mixed hs h))
    | some d' =>
      rw [ht'] at hb'
      dsimp only at hb'
      rw [if_pos hflags] at hb'
      obtain ⟨bytes',hs',rfl⟩ := map_eq_some_iff.mp hb'
      obtain ⟨rfl,hcode⟩ := (hd d ht).roundTrips.inj (hd' d' ht').roundTrips hs hs' (List.cons.inj h).2
      exact .inl ⟨rfl,serializeBytes_inj hc hc' hcode⟩
end Preimage

section Commits

/-- A transaction and a coin from deserialization, and a cache filled from the same context. -/
structure SigningInput (sha256d : Bytes → Uint256) (context : ScriptExecutionContext) (coin : Coin)
    (scriptCode : CScript) (cache : Option PrecomputedTransactionData) : Prop where
  tx : ∃ s rest, CTransaction.unserialize sha256d s = some (context.tx,rest)
  coin_eq : context.coin = some coin
  coin : coin.Unserialized
  scriptCode : scriptCode.length < 2^64
  cache : cache = none ∨ cache = populateFromContext sha256d context

variable {sha256d : Bytes → Uint256} {context context' : ScriptExecutionContext} {coin coin' : Coin}
  {scriptCode scriptCode' : CScript} {cache cache' : Option PrecomputedTransactionData} {flags : UInt32}

theorem SigningInput.signatureHash (h : SigningInput sha256d context coin scriptCode cache)
    (hfork : flags &&& scriptEnableSighashForkId ≠ 0) {digest : Uint256}
    (hsig : signatureHash sha256d context scriptCode .allForkId cache flags = some digest) :
    ∃ txin blob outputs, context.tx.vin[context.nIn]? = some txin ∧ tokenBlob coin.out flags = some blob ∧
      writeEach CTxOut.serialize context.tx.vout = some outputs ∧
      allPreimage sha256d context.tx txin coin blob outputs scriptCode ∈
        hashedBytes sha256d context scriptCode flags ∧
      digest = sha256d (allPreimage sha256d context.tx txin coin blob outputs scriptCode) := by
  unfold BitfiniteCore.signatureHash at hsig
  cases htxin : context.tx.vin[context.nIn]? with
  | none =>
    rw [htxin] at hsig
    cases hsig
  | some txin =>
    rw [htxin] at hsig
    dsimp only at hsig
    rw [if_pos ⟨by decide,hfork⟩] at hsig
    have hcache : forkPreimage sha256d context txin scriptCode .allForkId cache flags =
        forkPreimage sha256d context txin scriptCode .allForkId none flags := by
      rcases h.cache with hnone | hsome
      · rw [hnone]
      · cases hp : populateFromContext sha256d context with
        | none => rw [hsome,hp]
        | some data =>
          rw [hsome,hp]
          exact forkPreimage_cache hp
    rw [hcache] at hsig
    obtain ⟨bytes,hbytes,rfl⟩ := map_eq_some_iff.mp hsig
    obtain ⟨c,blob,outputs,hcoin,hblob,hout,rfl⟩ := forkPreimage_all hbytes
    cases h.coin_eq.symm.trans hcoin
    exact ⟨txin,blob,outputs,rfl,hblob,hout,.inr (.inr (.inr ⟨txin,htxin,hbytes⟩)),rfl⟩

/-- Equal signature hashes sign the same data, unless one coin has no token data and a script of 239 bytes that reads
as the other's token data and code. -/
theorem signatureHash_commits (h : SigningInput sha256d context coin scriptCode cache)
    (h' : SigningInput sha256d context' coin' scriptCode' cache')
    (hfork : flags &&& scriptEnableSighashForkId ≠ 0) (htokens : flags &&& scriptEnableTokens ≠ 0)
    (hinj : Set.InjOn sha256d (hashedBytes sha256d context scriptCode flags ∪
      hashedBytes sha256d context' scriptCode' flags)) {digest : Uint256}
    (hsig : signatureHash sha256d context scriptCode .allForkId cache flags = some digest)
    (hsig' : signatureHash sha256d context' scriptCode' .allForkId cache' flags = some digest) :
    context.tx.nVersion = context'.tx.nVersion ∧ context.tx.nLockTime = context'.tx.nLockTime ∧
    context.tx.vin.map CTxIn.prevout = context'.tx.vin.map CTxIn.prevout ∧
    context.tx.vin.map CTxIn.nSequence = context'.tx.vin.map CTxIn.nSequence ∧
    context.tx.vout = context'.tx.vout ∧
    (∃ txin txin', context.tx.vin[context.nIn]? = some txin ∧
      context'.tx.vin[context'.nIn]? = some txin' ∧ txin.prevout = txin'.prevout ∧
      txin.nSequence = txin'.nSequence) ∧
    coin.out.nValue = coin'.out.nValue ∧
    ((coin.out.tokenData = coin'.out.tokenData ∧ scriptCode = scriptCode') ∨
      ReadsAsToken coin.out.tokenData scriptCode coin'.out.tokenData scriptCode' ∨
      ReadsAsToken coin'.out.tokenData scriptCode' coin.out.tokenData scriptCode) := by
  obtain ⟨txin,blob,outputs,htxin,hblob,hout,hmem,rfl⟩ := h.signatureHash hfork hsig
  obtain ⟨txin',blob',outputs',htxin',hblob',hout',hmem',hdigest⟩ := h'.signatureHash hfork hsig'
  obtain ⟨s,rest,hs⟩ := h.tx
  obtain ⟨s',rest',hs'⟩ := h'.tx
  have hwire := CTransaction.unserialize_wire hs
  have hwire' := CTransaction.unserialize_wire hs'
  obtain ⟨hvalue,hparsed⟩ := h.coin.facts
  obtain ⟨hvalue',hparsed'⟩ := h'.coin.facts
  obtain ⟨h1,h2,h3,h4,h5,h6,h7,h8,h9⟩ :=
    allPreimage_inj (hinj (Set.mem_union_left _ hmem) (Set.mem_union_right _ hmem') hdigest)
  have hprevouts := hinj (Set.mem_union_left _ (.inl rfl)) (Set.mem_union_right _ (.inl rfl)) h2
  have hsequences := hinj (Set.mem_union_left _ (.inr (.inl rfl)))
    (Set.mem_union_right _ (.inr (.inl rfl))) h3
  have houtputs := hinj (Set.mem_union_left _ (.inr (.inr (.inl hout))))
    (Set.mem_union_right _ (.inr (.inr (.inl hout')))) h8
  have hv := hwire.nVersion
  have hv' := hwire'.nVersion
  have ht := hwire.nLockTime
  have ht' := hwire'.nLockTime
  have hi := hwire.vin txin (mem_of_getElem? htxin)
  have hi' := hwire'.vin txin' (mem_of_getElem? htxin')
  refine ⟨?_,?_,?_,?_,?_,⟨txin,txin',htxin,htxin',?_,?_⟩,?_,?_⟩
  · have heq := leBytes_inj (by omega) (by omega) h1
    omega
  · exact leBytes_inj (by omega) (by omega) h9
  · exact prevoutBytes_inj (fun i hi => (hwire.vin i hi).1) (fun i hi => (hwire'.vin i hi).1) hprevouts
  · exact sequenceBytes_inj (fun i hi => (hwire.vin i hi).2) (fun i hi => (hwire'.vin i hi).2) hsequences
  · exact writeEach_inj (CTxOut.unserializeWith (2^64-1)) (fun o ho => (hwire.vout o ho).roundTrips)
      (fun o ho => (hwire'.vout o ho).roundTrips) (fun o s => CTxOut.serialize_ne_nil) hout (houtputs ▸ hout')
  · exact ((COutPoint.roundTrips hi.1).inj (COutPoint.roundTrips hi'.1) rfl rfl (congrArg (·++[]) h4)).1
  · exact leBytes_inj (by omega) (by omega) h7
  · have heq := leBytes_inj (by omega) (by omega) h6
    omega
  · exact tokenBlob_inj htokens hparsed hparsed' h.scriptCode h'.scriptCode hblob hblob' h5

private def byLength (s : Bytes) : Uint256 := BitVec.ofNat 256 s.length

private def sampleTx : CTransaction := ⟨[⟨⟨7,0⟩,[],0⟩],[⟨1,[0x51],none⟩],2,0,61⟩

private def tokenCoin : Coin := ⟨⟨5,[0x51],some ⟨9,0x20,0,[]⟩⟩,2⟩

private def plainCoin : Coin := ⟨⟨5,[0x51],none⟩,2⟩

private def shortCode : CScript := replicate 205 0x51

private def longCode : CScript := serializeUint256 9++[0x20]++serializeBytes shortCode

private def signingContext (coin : Coin) : ScriptExecutionContext := ⟨0,false,[coin],sampleTx⟩

private def sampleFlags : UInt32 := scriptEnableSighashForkId ||| scriptEnableTokens

private theorem sampleTx_read : ∃ s rest, CTransaction.unserialize byLength s = some (sampleTx,rest) := by
  refine ⟨[2,0,0,0]++[1]++serializeUint256 7++[0,0,0,0]++[0]++[0,0,0,0]++[1]++leBytes 8 1++[1,0x51]++[0,0,0,0],[],?_⟩
  decide +kernel

private theorem sample_inputs : SigningInput byLength (signingContext tokenCoin) tokenCoin shortCode none ∧
      SigningInput byLength (signingContext plainCoin) plainCoin longCode none := by
  refine ⟨⟨sampleTx_read,rfl,.inl ?_,by decide +kernel,.inl rfl⟩,
    ⟨sampleTx_read,rfl,.inl ?_,by decide +kernel,.inl rfl⟩⟩
  · exact ⟨leBytes 8 5++[35,0xef]++serializeUint256 9++[0x20,0x51],[],by decide +kernel⟩
  · exact ⟨leBytes 8 5++[1,0x51],[],by decide +kernel⟩

private theorem sample_preimages :
    forkPreimage byLength (signingContext tokenCoin) ⟨⟨7,0⟩,[],0⟩ shortCode .allForkId none sampleFlags =
      forkPreimage byLength (signingContext plainCoin) ⟨⟨7,0⟩,[],0⟩ longCode .allForkId none sampleFlags := by
  decide +kernel

private theorem sample_hashes : ∃ digest,
    signatureHash byLength (signingContext tokenCoin) shortCode .allForkId none sampleFlags = some digest ∧
      signatureHash byLength (signingContext plainCoin) longCode .allForkId none sampleFlags = some digest := by
  refine ⟨_,rfl,?_⟩
  decide +kernel

private theorem sample_inj : Set.InjOn byLength
    (hashedBytes byLength (signingContext tokenCoin) shortCode sampleFlags ∪
      hashedBytes byLength (signingContext plainCoin) longCode sampleFlags) := by
  have hall : ∀ s ∈ hashedBytes byLength (signingContext tokenCoin) shortCode sampleFlags ∪
      hashedBytes byLength (signingContext plainCoin) longCode sampleFlags,
      s ∈ [prevoutBytes sampleTx.vin,sequenceBytes sampleTx.vin,[1,0,0,0,0,0,0,0,1,0x51],
        (forkPreimage byLength (signingContext tokenCoin) ⟨⟨7,0⟩,[],0⟩ shortCode .allForkId none
          sampleFlags).getD []] := by
    rintro s (h | h) <;> rcases h with rfl | rfl | h | ⟨txin,ht,h⟩
    · simp [signingContext]
    · simp [signingContext]
    · obtain rfl : [1,0,0,0,0,0,0,0,1,0x51] = s := some.inj h
      simp
    · obtain rfl : ⟨⟨7,0⟩,[],0⟩ = txin := some.inj ht
      rw [h]
      simp
    · simp [signingContext]
    · simp [signingContext]
    · obtain rfl : [1,0,0,0,0,0,0,0,1,0x51] = s := some.inj h
      simp
    · obtain rfl : ⟨⟨7,0⟩,[],0⟩ = txin := some.inj ht
      rw [← sample_preimages] at h
      rw [h]
      simp
  intro s hs t ht heq
  have hs := hall s hs
  have ht := hall t ht
  revert heq
  have hpairs : ∀ s ∈ [prevoutBytes sampleTx.vin,sequenceBytes sampleTx.vin,[1,0,0,0,0,0,0,0,1,0x51],
      (forkPreimage byLength (signingContext tokenCoin) ⟨⟨7,0⟩,[],0⟩ shortCode .allForkId none
        sampleFlags).getD []],
      ∀ t ∈ [prevoutBytes sampleTx.vin,sequenceBytes sampleTx.vin,[1,0,0,0,0,0,0,0,1,0x51],
      (forkPreimage byLength (signingContext tokenCoin) ⟨⟨7,0⟩,[],0⟩ shortCode .allForkId none
        sampleFlags).getD []], byLength s = byLength t → s = t := by
    decide +kernel
  exact hpairs s hs t ht

theorem signatureHash_commits_sample : SigningInput byLength (signingContext tokenCoin) tokenCoin shortCode none ∧
      tokenCoin.out.nValue = plainCoin.out.nValue := by
  obtain ⟨digest,h,h'⟩ := sample_hashes
  obtain ⟨-,-,-,-,-,-,hvalue,-⟩ := signatureHash_commits sample_inputs.1 sample_inputs.2 (by decide)
    (by decide) sample_inj h h'
  exact ⟨sample_inputs.1,hvalue⟩

theorem signatureHash_hides_token : SigningInput byLength (signingContext tokenCoin) tokenCoin shortCode none ∧
    SigningInput byLength (signingContext plainCoin) plainCoin longCode none ∧
    Set.InjOn byLength (hashedBytes byLength (signingContext tokenCoin) shortCode sampleFlags ∪
      hashedBytes byLength (signingContext plainCoin) longCode sampleFlags) ∧
    (∃ digest, signatureHash byLength (signingContext tokenCoin) shortCode .allForkId none sampleFlags = some digest ∧
      signatureHash byLength (signingContext plainCoin) longCode .allForkId none sampleFlags = some digest) ∧
    tokenCoin.out.tokenData ≠ plainCoin.out.tokenData ∧ shortCode ≠ longCode := by
  exact ⟨sample_inputs.1,sample_inputs.2,sample_inj,sample_hashes,by decide,by decide +kernel⟩
end Commits
end BitfiniteCore
