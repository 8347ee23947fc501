import BitfiniteCore.Script.SigHashCommits

/-! # One encoding for every output -/

namespace BitfiniteCore
open RoundTrip List Option

section Numbers

theorem leBytes_leNat (bs : Bytes) : leBytes bs.length (leNat bs) = bs := by
  induction bs with
  | nil => rfl
  | cons b bs ih =>
    have hb := b.toNat_lt
    have hmod : (b.toNat+256*leNat bs)%256 = b.toNat := by omega
    have hdiv : (b.toNat+256*leNat bs)/256 = leNat bs := by omega
    rw [length_cons,leNat,leBytes,hmod,hdiv,ih,UInt8.ofNat_toNat]

theorem readLE_exact {k n : Nat} {s rest : Bytes} (h : readLE k s = some (n,rest)) : s = leBytes k n++rest := by
  obtain ⟨⟨bs,r⟩,hr,he⟩ := map_eq_some_iff.mp h
  obtain ⟨rfl,rfl⟩ := Prod.mk.inj he
  obtain ⟨rfl,hs⟩ := readBytes_ok hr
  rw [leBytes_leNat]
  exact hs

theorem readCompactSizeWithLimit_exact {limit n : Nat} {s rest : Bytes}
    (h : readCompactSizeWithLimit limit s = some (n,rest)) : s = writeCompactSize n++rest := by
  cases s with
  | nil => cases h
  | cons b s =>
    have hb := b.toNat_lt
    obtain ⟨hsized,-⟩ := filter_eq_some_iff.mp h
    unfold writeCompactSize
    split_ifs at hsized with h1 h2 h3
    · cases hsized
      rw [UInt8.lt_iff_toNat_lt] at h1
      have hlt : b.toNat < 253 := h1
      have hmod : b.toNat%256 = b.toNat := Nat.mod_eq_of_lt hb
      rw [if_pos hlt,leBytes,hmod,UInt8.ofNat_toNat]
      rfl
    · obtain ⟨hread,hmin⟩ := filter_eq_some_iff.mp hsized
      have hmin : 253 ≤ n := by simpa using hmin
      have hmax := (readLE_ok hread).1
      rw [if_neg (by omega),if_pos (by omega),readLE_exact hread,h2]
      rfl
    · obtain ⟨hread,hmin⟩ := filter_eq_some_iff.mp hsized
      have hmin : 0x10000 ≤ n := by simpa using hmin
      have hmax := (readLE_ok hread).1
      rw [if_neg (by omega),if_neg (by omega),if_pos (by omega),readLE_exact hread,h3]
      rfl
    · obtain ⟨hread,hmin⟩ := filter_eq_some_iff.mp hsized
      have hmin : 0x100000000 ≤ n := by simpa using hmin
      have hlast : b = 255 := by
        rw [UInt8.lt_iff_toNat_lt] at h1
        rw [← UInt8.toNat_inj] at h2 h3 ⊢
        have e1 : (253 : UInt8).toNat = 253 := rfl
        have e2 : (254 : UInt8).toNat = 254 := rfl
        have e3 : (255 : UInt8).toNat = 255 := rfl
        omega
      rw [if_neg (by omega),if_neg (by omega),if_neg (by omega),readLE_exact hread,hlast]
      rfl

theorem readCompactSizeWithLimit_over {limit n : Nat} (hn : n < 2^64) (hl : limit < n) (rest : Bytes) :
    readCompactSizeWithLimit limit (writeCompactSize n++rest) = none := by
  cases hread : readCompactSizeWithLimit limit (writeCompactSize n++rest) with
  | none => rfl
  | some r =>
    obtain ⟨m,t⟩ := r
    have hm := (readCompactSizeWithLimit_ok hread).1
    have hback := readCompactSizeWithLimit_write (2^64-1) n rest hn (by omega)
    rw [readCompactSizeWithLimit_exact hread,readCompactSizeWithLimit_write (2^64-1) m t (by omega) (by omega)] at hback
    have heq := (Prod.mk.inj (some.inj hback)).1
    omega

theorem unserializeUint256_exact {x : Uint256} {s rest : Bytes} (h : unserializeUint256 s = some (x,rest)) :
    s = serializeUint256 x++rest := by
  obtain ⟨⟨n,r⟩,hr,he⟩ := map_eq_some_iff.mp h
  obtain ⟨rfl,rfl⟩ := Prod.mk.inj he
  have hn : n < 2^256 := by
    have hlt := (readLE_ok hr).1
    norm_num at hlt ⊢
    exact hlt
  rw [serializeUint256,BitVec.toNat_ofNat,Nat.mod_eq_of_lt hn]
  exact readLE_exact hr

theorem toInt64_mod {n : Nat} (h : n < 2^64) : (toInt64 n%2^64).toNat = n := by
  unfold toInt64
  split <;> omega

theorem toInt32_mod {n : Nat} (h : n < 2^32) : (toInt32 n%2^32).toNat = n := by
  unfold toInt32
  split <;> omega
end Numbers

section Outputs

theorem OutputData.readCommitmentField_exact {present : Bool} {c : NFTCommitment} {s rest : Bytes}
    (h : readCommitmentField present s = some (c,rest)) : s = commitmentField present c++rest := by
  unfold readCommitmentField at h
  unfold commitmentField
  split at h
  · rename_i hp
    obtain ⟨⟨n,t⟩,hn,h⟩ := bind_eq_some_iff.mp h
    obtain ⟨hb,-⟩ := filter_eq_some_iff.mp h
    obtain ⟨hlen,rfl⟩ := readBytes_ok hb
    rw [if_pos hp,hlen,append_assoc]
    exact readCompactSizeWithLimit_exact hn
  · rename_i hp
    obtain ⟨-,rfl⟩ := Prod.mk.inj (some.inj h)
    rw [if_neg hp]
    rfl

theorem OutputData.readAmountField_exact {present : Bool} {a : Int} {s rest : Bytes}
    (h : readAmountField present s = some (a,rest)) : s = amountField present a++rest := by
  unfold readAmountField at h
  unfold amountField
  split at h
  · rename_i hp
    obtain ⟨⟨n,t⟩,hn,he⟩ := map_eq_some_iff.mp h
    obtain ⟨rfl,rfl⟩ := Prod.mk.inj he
    rw [if_pos hp,Int.toNat_natCast]
    exact readCompactSizeWithLimit_exact (filter_eq_some_iff.mp hn).1
  · rename_i hp
    obtain ⟨-,rfl⟩ := Prod.mk.inj (some.inj h)
    rw [if_neg hp]
    rfl

theorem OutputData.unserialize_exact : Exact OutputData.serialize OutputData.unserialize := by
  intro s d rest h
  refine ⟨_,serialize_parsed (unserialize_parsed h),?_⟩
  obtain ⟨⟨id,s1⟩,h1,h⟩ := bind_eq_some_iff.mp h
  obtain ⟨⟨bits,s2⟩,h2,h⟩ := bind_eq_some_iff.mp h
  dsimp only at h
  split at h
  · cases h
  obtain ⟨⟨c,s3⟩,h3,h⟩ := bind_eq_some_iff.mp h
  obtain ⟨⟨a,s4⟩,h4,he⟩ := map_eq_some_iff.mp h
  obtain ⟨rfl,rfl⟩ := Prod.mk.inj he
  have hbits := (readLE_ok h2).1
  have hbyte : leBytes 1 bits = [UInt8.ofNat bits] := by
    have hmod : bits%256 = bits := Nat.mod_eq_of_lt hbits
    rw [leBytes,hmod]
    rfl
  have h4 : s3 = amountField (OutputData.mk id (UInt8.ofNat bits) 0 []).hasAmount a++s4 := readAmountField_exact h4
  rw [unserializeUint256_exact h1,readLE_exact h2,hbyte,readCommitmentField_exact h3,h4]
  simp only [append_assoc,cons_append,nil_append]
  rfl

theorem wrap_unwrap (wspk : Bytes) :
    wrapScriptPubKey (unwrapScriptPubKey wspk).1 (unwrapScriptPubKey wspk).2 = some wspk := by
  cases wspk with
  | nil => rfl
  | cons b rest =>
    dsimp only [unwrapScriptPubKey]
    split
    · rename_i hb
      split
      · rename_i d script hu
        obtain ⟨t,ht,rfl⟩ := OutputData.unserialize_exact rest d script hu
        rw [wrapScriptPubKey,ht,hb]
        rfl
      · rfl
    · rfl

theorem CTxOut.unserialize_exact : Exact CTxOut.serialize CTxOut.unserialize := by
  intro s o rest h
  obtain ⟨⟨v,s1⟩,h1,h⟩ := bind_eq_some_iff.mp h
  obtain ⟨⟨n,s2⟩,h2,h⟩ := bind_eq_some_iff.mp h
  obtain ⟨⟨wspk,s3⟩,h3,he⟩ := map_eq_some_iff.mp h
  obtain ⟨rfl,rfl⟩ := Prod.mk.inj he
  obtain ⟨hlen,rfl⟩ := readBytes_ok h3
  refine ⟨_,by rw [CTxOut.serialize,wrap_unwrap]; rfl,?_⟩
  rw [toInt64_mod (readLE_ok h1).1]
  dsimp only
  rw [hlen,readLE_exact h1,readCompactSizeWithLimit_exact h2]
  simp only [append_assoc]

/-- Well-formed token data, or a script that does not hold any. -/
structure CTxOut.Encodable (o : CTxOut) : Prop where
  value : -2^63 ≤ o.nValue ∧ o.nValue < 2^63
  tokens : match o.tokenData with
    | some d => d.isValidBitfield = true ∧
        (if d.hasAmount then 1 ≤ d.amount ∧ d.amount ≤ int64Max else d.amount = 0) ∧
        (d.commitment ≠ [] ↔ d.hasCommitmentLength = true)
    | none => ∀ rest, o.scriptPubKey = prefixByte::rest → OutputData.unserialize rest = none

theorem OutputData.parsed_of_length {d : OutputData} (hv : d.isValidBitfield = true)
    (ha : if d.hasAmount then 1 ≤ d.amount ∧ d.amount ≤ int64Max else d.amount = 0)
    (hc : d.commitment ≠ [] ↔ d.hasCommitmentLength = true) (hlen : d.commitment.length ≤ maxSize) : d.Parsed := by
  refine ⟨hv,?_,?_⟩
  · split
    · rename_i hl
      exact ⟨hc.mpr hl,hlen⟩
    · rename_i hl
      exact not_not.mp fun hne => hl (hc.mp hne)
  · split
    · rename_i hl
      rw [if_pos hl] at ha
      exact ⟨Int.lt_of_lt_of_le Int.zero_lt_one ha.1,ha.2⟩
    · rename_i hl
      rwa [if_neg hl] at ha

theorem OutputData.commitment_length_le {d : OutputData} (hc : d.commitment ≠ [] ↔ d.hasCommitmentLength = true)
    {t : Bytes} (ht : d.serialize = some t) : d.commitment.length ≤ t.length := by
  unfold OutputData.serialize at ht
  split_ifs at ht
  cases ht
  by_cases hne : d.commitment = []
  · rw [hne]
    exact Nat.zero_le _
  · simp only [commitmentField,if_pos (hc.mp hne),length_append,length_cons]
    omega

theorem CTxOut.Encodable.unwrap {o : CTxOut} (h : o.Encodable) {wspk : Bytes}
    (hw : wrapScriptPubKey o.tokenData o.scriptPubKey = some wspk) (hlen : wspk.length ≤ maxSize) :
    unwrapScriptPubKey wspk = (o.tokenData,o.scriptPubKey) := by
  have htokens := h.tokens
  cases hd : o.tokenData with
  | some d =>
    rw [hd] at hw htokens
    obtain ⟨hv,ha,hc⟩ := htokens
    obtain ⟨t,ht,rfl⟩ := map_eq_some_iff.mp hw
    have hle := OutputData.commitment_length_le hc ht
    have htlen : t.length ≤ (prefixByte::t++o.scriptPubKey).length := by
      rw [length_append,length_cons]
      omega
    have hparsed := OutputData.parsed_of_length hv ha hc (hle.trans (htlen.trans hlen))
    obtain ⟨t',ht',hread⟩ := OutputData.unserialize_serialize hparsed o.scriptPubKey
    cases ht.symm.trans ht'
    rw [cons_append,unwrapScriptPubKey,if_pos rfl,hread]
  | none =>
    rw [hd] at hw htokens
    cases hw
    cases hs : o.scriptPubKey with
    | nil => rfl
    | cons b rest =>
      rw [unwrapScriptPubKey]
      split
      · rename_i hb
        rw [htokens rest (by rw [hs,hb])]
      · rfl

theorem CTxOut.Encodable.wrap {o : CTxOut} (h : o.Encodable) :
    ∃ wspk, wrapScriptPubKey o.tokenData o.scriptPubKey = some wspk := by
  have htokens := h.tokens
  cases hd : o.tokenData with
  | none => exact ⟨_,rfl⟩
  | some d =>
    rw [hd] at htokens
    obtain ⟨hv,ha,hc⟩ := htokens
    have hser : ∃ t, d.serialize = some t := by
      unfold OutputData.serialize
      split_ifs with h1 h2 h3
      · simp [hv] at h1
      · simp only [Bool.and_eq_true,List.isEmpty_iff] at h2
        exact absurd h2.2 (hc.mpr h2.1)
      · simp only [Bool.and_eq_true,Bool.or_eq_true,decide_eq_true_eq] at h3
        rw [if_pos h3.1] at ha
        omega
      · exact ⟨_,rfl⟩
    obtain ⟨t,ht⟩ := hser
    exact ⟨_,by rw [wrapScriptPubKey,ht]; rfl⟩

theorem CTxOut.Encodable.roundTrips {o : CTxOut} (h : o.Encodable)
    (hlen : ∀ wspk, wrapScriptPubKey o.tokenData o.scriptPubKey = some wspk → wspk.length ≤ maxSize) :
    RoundTrips CTxOut.serialize CTxOut.unserialize o := by
  obtain ⟨wspk,hw⟩ := h.wrap
  have hle := hlen wspk hw
  have hsmall : wspk.length < 2^64 := lt_of_le_of_lt hle (by decide)
  refine ⟨_,by rw [CTxOut.serialize,hw]; rfl,fun rest => ?_⟩
  unfold CTxOut.unserialize CTxOut.unserializeWith
  rw [append_assoc,append_assoc,readLE_leBytes 8 _ _ (by omega)]
  dsimp only [Option.bind]
  rw [readCompactSizeWithLimit_write _ _ _ hsmall hle]
  dsimp only
  rw [readBytes_append,map_some,h.unwrap hw hle,toInt64_toNat h.value]
end Outputs

section Transactions

theorem CTxIn.unserialize_exact : Exact (fun i => some (CTxIn.serialize i)) CTxIn.unserialize := by
  intro s i rest h
  obtain ⟨⟨txid,s1⟩,h1,h⟩ := bind_eq_some_iff.mp h
  obtain ⟨⟨n,s2⟩,h2,h⟩ := bind_eq_some_iff.mp h
  obtain ⟨⟨len,s3⟩,h3,h⟩ := bind_eq_some_iff.mp h
  obtain ⟨⟨scriptSig,s4⟩,h4,h⟩ := bind_eq_some_iff.mp h
  obtain ⟨⟨q,s5⟩,h5,he⟩ := map_eq_some_iff.mp h
  obtain ⟨rfl,rfl⟩ := Prod.mk.inj he
  obtain ⟨hlen,rfl⟩ := readBytes_ok h4
  refine ⟨_,rfl,?_⟩
  rw [unserializeUint256_exact h1,readLE_exact h2,readCompactSizeWithLimit_exact h3,readLE_exact h5,
    CTxIn.serialize,hlen]
  simp only [append_assoc]

theorem writeEach_mapM {α : Type} (write : α → Option Bytes) (as : List α) :
    writeEach write as = (as.mapM write).map flatten := by
  induction as with
  | nil => rfl
  | cons a as ih =>
    rw [writeEach,ih,mapM_cons]
    cases write a with
    | none => rfl
    | some t =>
      cases hm : as.mapM write with
      | none => simp
      | some ts => simp

theorem CTransaction.unserialize_exact {sha256d : Bytes → Uint256} {s rest : Bytes} {tx : CTransaction}
    (h : CTransaction.unserialize sha256d s = some (tx,rest)) :
    ∃ wire, s = wire++rest ∧ tx.serialize = some wire ∧ tx.getId = sha256d wire := by
  obtain ⟨⟨v,s1⟩,h1,h⟩ := bind_eq_some_iff.mp h
  obtain ⟨⟨n,s2⟩,h2,h⟩ := bind_eq_some_iff.mp h
  obtain ⟨⟨vin,s3⟩,h3,h⟩ := bind_eq_some_iff.mp h
  obtain ⟨⟨m,s4⟩,h4,h⟩ := bind_eq_some_iff.mp h
  obtain ⟨⟨vout,s5⟩,h5,h⟩ := bind_eq_some_iff.mp h
  obtain ⟨⟨t,s6⟩,h6,he⟩ := map_eq_some_iff.mp h
  obtain ⟨rfl,rfl⟩ := Prod.mk.inj he
  obtain ⟨hn,inputs,hin,rfl⟩ := CTxIn.unserialize_exact.each n h3
  obtain ⟨hm,outputs,hout,rfl⟩ := CTxOut.unserialize_exact.each m h5
  rw [writeEach_some] at hin
  cases hin
  rw [writeEach_mapM] at hout
  obtain ⟨outs,houts,rfl⟩ := map_eq_some_iff.mp hout
  have hser : ∀ hash, (CTransaction.mk vin vout (toInt32 v) t hash).serialize =
      some (leBytes 4 v++writeCompactSize n++(vin.map CTxIn.serialize).flatten++writeCompactSize m++outs.flatten++
        leBytes 4 t) := by
    intro hash
    unfold CTransaction.serialize
    rw [houts,hn,hm,toInt32_mod (readLE_ok h1).1]
    rfl
  refine ⟨_,?_,hser _,?_⟩
  · rw [readLE_exact h1,readCompactSizeWithLimit_exact h2,readCompactSizeWithLimit_exact h4,readLE_exact h6]
    simp only [append_assoc]
  · rw [hser 0]
    rfl
end Transactions

section Main

/-- Every byte string that is read is the one it is written as, and every well-formed output within the size limit
is read back. -/
theorem txOut_encoding :
    (∀ s o rest, CTxOut.unserialize s = some (o,rest) → ∃ t, o.serialize = some t ∧ s = t++rest) ∧
    (∀ o : CTxOut, o.Encodable →
      (∀ wspk, wrapScriptPubKey o.tokenData o.scriptPubKey = some wspk → wspk.length ≤ maxSize) →
      ∃ t, o.serialize = some t ∧ ∀ rest, CTxOut.unserialize (t++rest) = some (o,rest)) ∧
    (∀ (sha256d : Bytes → Uint256) s tx rest, CTransaction.unserialize sha256d s = some (tx,rest) →
      ∃ wire, s = wire++rest ∧ tx.serialize = some wire ∧ tx.getId = sha256d wire) ∧
    ∀ (sha256d : Bytes → Uint256) s s' tx, CTransaction.unserialize sha256d s = some (tx,[]) →
      CTransaction.unserialize sha256d s' = some (tx,[]) → s = s' := by
  refine ⟨CTxOut.unserialize_exact,fun o h hlen => h.roundTrips hlen,
    fun _ _ _ _ h => CTransaction.unserialize_exact h,?_⟩
  intro sha256d s s' tx h h'
  obtain ⟨wire,rfl,hwire,-⟩ := CTransaction.unserialize_exact h
  obtain ⟨wire',rfl,hwire',-⟩ := CTransaction.unserialize_exact h'
  rw [some.inj (hwire.symm.trans hwire')]

private def longOutput (n : Nat) : CTxOut := ⟨0,replicate n 0,none⟩

private theorem longOutput_encodable (n : Nat) : (longOutput n).Encodable := by
  refine ⟨⟨Int.neg_nonpos_of_nonneg (by decide),Int.pow_pos (by decide)⟩,?_⟩
  intro rest h
  have hmem : prefixByte ∈ replicate n (0 : UInt8) := by
    change replicate n 0 = prefixByte::rest at h
    rw [h]
    exact mem_cons_self
  exact absurd (eq_of_mem_replicate hmem) (by decide)

private theorem longOutput_refused {n : Nat} (hn : n < 2^64) (hlong : maxSize < n) :
    ∃ t, (longOutput n).serialize = some t ∧ ∀ rest, CTxOut.unserialize (t++rest) = none := by
  refine ⟨_,rfl,fun rest => ?_⟩
  have hzero : ((longOutput n).nValue%2^64).toNat = 0 := rfl
  unfold CTxOut.unserialize CTxOut.unserializeWith
  rw [append_assoc,append_assoc,hzero,readLE_leBytes 8 0 _ (Nat.pow_pos (by decide)),longOutput]
  dsimp only [Option.bind]
  rw [length_replicate,readCompactSizeWithLimit_over hn hlong]

theorem txOut_too_long : ∃ o : CTxOut, o.Encodable ∧ o.tokenData = none ∧
    ∃ t, o.serialize = some t ∧ CTxOut.unserialize t = none := by
  obtain ⟨t,ht,hread⟩ := @longOutput_refused (maxSize+1) (by decide) (Nat.lt_succ_self _)
  exact ⟨_,longOutput_encodable _,rfl,t,ht,by simpa using hread []⟩
end Main
end BitfiniteCore
