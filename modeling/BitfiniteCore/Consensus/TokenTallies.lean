import BitfiniteCore.Consensus.Tokens
import Mathlib.Algebra.Order.BigOperators.Group.List
import Mathlib.Data.Finset.Basic

/-! # The tallies of the token inputs -/

namespace BitfiniteCore
open Function List

def inputTokens (accessCoin : COutPoint → Coin) (vin : List CTxIn) : List OutputData :=
  vin.filterMap fun i => (accessCoin i.prevout).out.tokenData

def outputTokens (vout : List CTxOut) : List OutputData := vout.filterMap CTxOut.tokenData

def amountOf (id : TokenId) (ts : List OutputData) : Int :=
  ((ts.filter fun d => d.id == id).map OutputData.amount).sum

def mintingCount (id : TokenId) (ts : List OutputData) : Nat := ts.countP fun d => d.id == id && d.isMintingNFT

def mutableCount (id : TokenId) (ts : List OutputData) : Nat := ts.countP fun d => d.id == id && d.isMutableNFT

def immutableCommitments (id : TokenId) (ts : List OutputData) : List NFTCommitment :=
  (ts.filter fun d => d.id == id && d.isImmutableNFT).map OutputData.commitment

def GenesisId (vin : List CTxIn) (id : TokenId) : Prop := ∃ i ∈ vin, i.prevout.n = 0 ∧ i.prevout.txid = id

theorem checkTokenData_ok {d : OutputData} (h : checkTokenData (some d) = .ok ()) :
    d.isValidBitfield = true ∧ 0 ≤ d.amount := by
  constructor
  · by_contra hv
    rw [checkTokenData,if_pos (by simpa using hv)] at h
    cases h
  · by_contra ha
    rw [checkTokenData] at h
    split at h
    · cases h
    · rw [if_pos (by omega)] at h
      cases h

theorem amountOf_nil (id : TokenId) : amountOf id [] = 0 := rfl

theorem amountOf_cons (id : TokenId) (d : OutputData) (ts : List OutputData) :
    amountOf id (d::ts) = (if d.id = id then d.amount else 0)+amountOf id ts := by
  by_cases h : d.id = id <;> simp [amountOf,h]

theorem amountOf_append (id : TokenId) (ts us : List OutputData) :
    amountOf id (ts++us) = amountOf id ts+amountOf id us := by
  simp [amountOf]

theorem amountOf_nonneg {ts : List OutputData} (h : ∀ d ∈ ts, checkTokenData (some d) = .ok ())
    (id : TokenId) : 0 ≤ amountOf id ts := by
  apply sum_nonneg
  intro a ha
  obtain ⟨d,hd,rfl⟩ := mem_map.mp ha
  exact (checkTokenData_ok (h d (mem_filter.mp hd).1)).2

theorem amountOf_eq_zero {id : TokenId} {ts : List OutputData} (h : ∀ d ∈ ts, d.id ≠ id) : amountOf id ts = 0 := by
  have hf : ts.filter (fun d => d.id == id) = [] := by
    rw [filter_eq_nil_iff]
    intro d hd
    simpa using h d hd
  simp [amountOf,hf]

theorem safeAmount_ok {x y : Int} : safeAmount x = .ok y ↔ x = y ∧ int64Min < x ∧ x ≤ int64Max := by
  unfold safeAmount valid64BitRange
  by_cases h : int64Min < x ∧ x ≤ int64Max
  · simp [h]
  · rw [if_neg (by simpa using h)]
    simp only [dos,reduceCtorEq,false_iff]
    exact fun hc => h hc.2

section Inputs

structure Tallied (st : TokenTallies) (ts : List OutputData) (st' : TokenTallies) : Prop where
  amounts : ∀ id, st'.inputAmountsByCategory id =
    if ts.any (fun d => d.id == id) then some ((st.inputAmountsByCategory id).getD 0+amountOf id ts)
    else st.inputAmountsByCategory id
  genesisAmounts : st'.genesisAmountsByCategory = st.genesisAmountsByCategory
  minting : ∀ id, st'.inputMintingIds id = (st.inputMintingIds id || decide (mintingCount id ts > 0))
  mutables : ∀ id, st'.inputMutables id = st.inputMutables id+mutableCount id ts
  immutables : ∀ id c, st'.inputImmutables id c = st.inputImmutables id c+(immutableCommitments id ts).count c

theorem Tallied.refl (st : TokenTallies) : Tallied st [] st := by
  constructor <;> simp [mintingCount,mutableCount,immutableCommitments]

variable {st st' : TokenTallies} {d : OutputData} {vin : List CTxIn}

theorem Tallied.trans {st1 st2 : TokenTallies} {ts us : List OutputData}
    (h1 : Tallied st ts st1) (h2 : Tallied st1 us st2) : Tallied st (ts++us) st2 where
  amounts := by
    intro id
    rw [h2.amounts,h1.amounts,any_append,amountOf_append]
    by_cases ht : ts.any (fun d => d.id == id) = true
    · by_cases hu : us.any (fun d => d.id == id) = true
      · simp [ht,hu]
        omega
      · have hz : amountOf id us = 0 := amountOf_eq_zero (by simpa using hu)
        simp [ht,hu,hz]
    · have hz : amountOf id ts = 0 := amountOf_eq_zero (by simpa using ht)
      simp [ht,hz]
  genesisAmounts := h2.genesisAmounts.trans h1.genesisAmounts
  minting := by
    intro id
    rw [h2.minting,h1.minting,Bool.or_assoc]
    congr 1
    rw [mintingCount,mintingCount,mintingCount,countP_append,← Bool.decide_or]
    congr 1
    simp only [eq_iff_iff]
    omega
  mutables := by
    intro id
    rw [h2.mutables,h1.mutables,mutableCount,mutableCount,mutableCount,countP_append]
    omega
  immutables := by
    intro id c
    rw [h2.immutables,h1.immutables]
    simp only [immutableCommitments,filter_append,map_append,count_append]
    omega

theorem nft_cases (hv : d.isValidBitfield = true) (hn : d.hasNFT = true) :
    (d.isImmutableNFT = true ∧ d.isMutableNFT = false ∧ d.isMintingNFT = false) ∨
    (d.isImmutableNFT = false ∧ d.isMutableNFT = true ∧ d.isMintingNFT = false) ∨
    (d.isImmutableNFT = false ∧ d.isMutableNFT = false ∧ d.isMintingNFT = true) := by
  simp only [OutputData.isImmutableNFT,OutputData.isMutableNFT,OutputData.isMintingNFT,hn,Bool.true_and]
  rcases OutputData.capability_cases hv with h | h | h
  · left
    simp [h,Capability.none,Capability.mutable,Capability.minting]
  · right; left
    simp [h,Capability.none,Capability.mutable,Capability.minting]
  · right; right
    simp [h,Capability.none,Capability.mutable,Capability.minting]

theorem nft_none (hn : d.hasNFT = false) :
    d.isImmutableNFT = false ∧ d.isMutableNFT = false ∧ d.isMintingNFT = false := by
  simp [OutputData.isImmutableNFT,OutputData.isMutableNFT,OutputData.isMintingNFT,hn]

theorem addNFT_spec (st : TokenTallies) (hv : d.isValidBitfield = true) :
    ∃ st', st.addNFT d = .ok st' ∧ st'.potentialGenesisIds = st.potentialGenesisIds ∧
      st'.inputAmountsByCategory = st.inputAmountsByCategory ∧
      st'.genesisAmountsByCategory = st.genesisAmountsByCategory ∧
      (∀ id, st'.inputMintingIds id = (st.inputMintingIds id || decide (mintingCount id [d] > 0))) ∧
      (∀ id, st'.inputMutables id = st.inputMutables id+mutableCount id [d]) ∧
      ∀ id c, st'.inputImmutables id c = st.inputImmutables id c+(immutableCommitments id [d]).count c := by
  cases hn : d.hasNFT with
  | false =>
    obtain ⟨h1,h2,h3⟩ := nft_none hn
    refine ⟨st,by simp [TokenTallies.addNFT,hn],rfl,rfl,rfl,?_,?_,?_⟩ <;>
      simp [mintingCount,mutableCount,immutableCommitments,h1,h2,h3]
  | true =>
    unfold TokenTallies.addNFT
    rcases nft_cases hv hn with ⟨h1,h2,h3⟩ | ⟨h1,h2,h3⟩ | ⟨h1,h2,h3⟩
    · simp only [hn,h1,Bool.not_true,Bool.false_eq_true,if_false,if_true]
      refine ⟨_,rfl,rfl,rfl,rfl,?_,?_,?_⟩
      · simp [mintingCount,h3]
      · simp [mutableCount,h2]
      · intro id c
        by_cases hid : id = d.id
        · subst hid
          by_cases hc : c = d.commitment
          · subst hc
            simp [immutableCommitments,h1]
          · simp [immutableCommitments,h1,hc,Ne.symm hc]
        · simp [immutableCommitments,hid,Ne.symm hid]
    · simp only [hn,h1,h2,Bool.not_true,Bool.false_eq_true,if_false,if_true]
      refine ⟨_,rfl,rfl,rfl,rfl,?_,?_,?_⟩
      · simp [mintingCount,h3]
      · intro id
        by_cases hid : id = d.id
        · subst hid
          simp [mutableCount,h2]
        · simp [mutableCount,hid,Ne.symm hid]
      · simp [immutableCommitments,h1]
    · simp only [hn,h1,h2,h3,Bool.not_true,Bool.false_eq_true,if_false,if_true]
      refine ⟨_,rfl,rfl,rfl,rfl,?_,?_,?_⟩
      · intro id
        by_cases hid : id = d.id
        · subst hid
          simp [mintingCount,h3]
        · simp [mintingCount,hid,Ne.symm hid]
      · simp [mutableCount,h2]
      · simp [immutableCommitments,h1]

theorem addInputToken_spec (st : TokenTallies) (d : OutputData) :
    (∃ st', st.addInputToken d = .ok st') ↔ checkTokenData (some d) = .ok () ∧
      int64Min < (st.inputAmountsByCategory d.id).getD 0+d.amount ∧
      (st.inputAmountsByCategory d.id).getD 0+d.amount ≤ int64Max := by
  unfold TokenTallies.addInputToken
  constructor
  · rintro ⟨st',h⟩
    obtain ⟨⟨⟩,hc,h⟩ := except_bind_ok.mp h
    obtain ⟨a,ha,-⟩ := except_bind_ok.mp h
    exact ⟨hc,(safeAmount_ok.mp ha).2⟩
  · rintro ⟨hc,ha⟩
    rw [hc,safeAmount_ok.mpr ⟨rfl,ha⟩]
    exact (addNFT_spec _ (checkTokenData_ok hc).1).imp fun st' h => h.1

theorem addInputToken_tallied (h : st.addInputToken d = .ok st') :
    Tallied st [d] st' ∧ st'.potentialGenesisIds = st.potentialGenesisIds := by
  obtain ⟨⟨⟩,hc,h⟩ := except_bind_ok.mp h
  obtain ⟨a,ha,h⟩ := except_bind_ok.mp h
  obtain ⟨rfl,-⟩ := safeAmount_ok.mp ha
  obtain ⟨st2,hst2,h1,h2,h3,h4,h5,h6⟩ := addNFT_spec _ (checkTokenData_ok hc).1
  obtain rfl : st2 = st' := Except.ok.inj (hst2.symm.trans h)
  refine ⟨⟨fun id => ?_,h3,h4,h5,h6⟩,h1⟩
  rw [h2]
  by_cases hid : id = d.id
  · subst hid
    simp [amountOf]
  · simp [hid,Ne.symm hid]

theorem addGenesisId_spec (st : TokenTallies) (p : COutPoint) :
    (p.n = 0 ∧ p.txid ∈ st.potentialGenesisIds ∧ ∀ st', st.addGenesisId p ≠ .ok st') ∨
    ∃ st', st.addGenesisId p = .ok st' ∧ Tallied st [] st' ∧ st'.inputAmountsByCategory = st.inputAmountsByCategory ∧
      ∀ id, id ∈ st'.potentialGenesisIds ↔ id ∈ st.potentialGenesisIds ∨ (p.n = 0 ∧ p.txid = id) := by
  have htal := Tallied.refl st
  unfold TokenTallies.addGenesisId
  by_cases hn : p.n = 0
  · by_cases hm : p.txid ∈ st.potentialGenesisIds
    · left
      refine ⟨hn,hm,fun st' => ?_⟩
      simp [hn,hm,dos]
    · right
      simp only [hn,beq_self_eq_true,if_true,contains_eq_mem,hm,decide_false,Bool.false_eq_true,if_false]
      refine ⟨_,rfl,?_,rfl,fun id => ?_⟩
      · exact ⟨htal.amounts,htal.genesisAmounts,htal.minting,htal.mutables,htal.immutables⟩
      · rw [mem_cons,or_comm,true_and,eq_comm]
  · right
    refine ⟨st,by simp [hn],htal,rfl,fun id => by simp [hn]⟩

def AmountsValid (st : TokenTallies) : Prop := ∀ id a, st.inputAmountsByCategory id = some a → 0 ≤ a ∧ a ≤ int64Max

theorem AmountsValid.getD (h : AmountsValid st) (id : TokenId) : 0 ≤ (st.inputAmountsByCategory id).getD 0 := by
  cases ha : st.inputAmountsByCategory id with
  | none => simp
  | some a => exact (h id a ha).1

theorem addInputToken_valid (hst : AmountsValid st) (h : st.addInputToken d = .ok st') : AmountsValid st' := by
  obtain ⟨hc,-,hmax⟩ := (addInputToken_spec st d).mp ⟨st',h⟩
  have hnonneg := (checkTokenData_ok hc).2
  have hbase := hst.getD d.id
  intro id a ha
  rw [(addInputToken_tallied h).1.amounts id] at ha
  by_cases hid : d.id = id
  · subst hid
    simp only [any_cons,beq_self_eq_true,Bool.true_or,if_true,Option.some.injEq] at ha
    simp only [amountOf_cons,amountOf_nil,if_true] at ha
    omega
  · simp only [any_cons,any_nil,beq_eq_false_iff_ne.mpr hid,Bool.or_false,Bool.false_eq_true,if_false] at ha
    exact hst id a ha

structure InputOk (accessCoin : COutPoint → Coin) (first : Int) (i : CTxIn) : Prop where
  unspent : (accessCoin i.prevout).isSpent = false
  parse : (accessCoin i.prevout).out.hasUnparseableTokenData = false
  active : (accessCoin i.prevout).out.tokenData.isSome = true → first ≤ (accessCoin i.prevout).getHeight

def genesisTxIds (vin : List CTxIn) : List TokenId :=
  (vin.filter fun i => i.prevout.n == 0).map fun i => i.prevout.txid

theorem mem_genesisTxIds {id : TokenId} : id ∈ genesisTxIds vin ↔ GenesisId vin id := by
  simp [genesisTxIds,GenesisId,and_assoc]

theorem genesisTxIds_nodup (h : (vin.map CTxIn.prevout).Nodup) : (genesisTxIds vin).Nodup := by
  induction vin with
  | nil => simp [genesisTxIds]
  | cons i vin ih =>
    obtain ⟨hi,hvin⟩ := nodup_cons.mp h
    by_cases hn : i.prevout.n = 0
    · have hcons : genesisTxIds (i::vin) = i.prevout.txid::genesisTxIds vin := by
        simp [genesisTxIds,hn]
      rw [hcons,nodup_cons]
      refine ⟨fun hm => ?_,ih hvin⟩
      obtain ⟨j,hj,hjn,hjt⟩ := mem_genesisTxIds.mp hm
      refine hi (mem_map.mpr ⟨j,hj,?_⟩)
      cases hp : j.prevout
      cases hq : i.prevout
      simp_all
    · have hcons : genesisTxIds (i::vin) = genesisTxIds vin := by simp [genesisTxIds,hn]
      rw [hcons]
      exact ih hvin

theorem scanInputs_cons {accessCoin : COutPoint → Coin} {first : Int} {i : CTxIn} (hi : InputOk accessCoin first i) :
    scanInputs accessCoin first st (i::vin) = (st.addGenesisId i.prevout).bind fun st =>
      match (accessCoin i.prevout).out.tokenData with
      | none => scanInputs accessCoin first st vin
      | some d => (st.addInputToken d).bind fun st => scanInputs accessCoin first st vin := by
  have hold : ((accessCoin i.prevout).out.tokenData.isSome &&
      decide (((accessCoin i.prevout).getHeight : Int) < first)) = false := by
    cases hs : (accessCoin i.prevout).out.tokenData.isSome with
    | false => rfl
    | true => simpa using hi.active hs
  rw [scanInputs]
  generalize (accessCoin i.prevout).out.tokenData = tokenData at hold ⊢
  cases tokenData with
  | none => simp only [hi.unspent,hi.parse,hold,Bool.false_eq_true,if_false]
  | some d => simp only [hi.unspent,hi.parse,hold,Bool.false_eq_true,if_false]

theorem inputOk_of_scan {accessCoin : COutPoint → Coin} {first : Int}
    {i : CTxIn} (h : scanInputs accessCoin first st (i::vin) = .ok st') :
    InputOk accessCoin first i := by
  rw [scanInputs] at h
  split at h
  · cases h
  rename_i hs
  split at h
  · cases h
  rename_i hp
  split at h
  · cases h
  rename_i ha
  refine ⟨by simpa using hs,by simpa using hp,fun ht => ?_⟩
  simpa [ht] using ha

theorem inputTokens_cons (accessCoin : COutPoint → Coin) (i : CTxIn) (vin : List CTxIn) :
    inputTokens accessCoin (i::vin) = (accessCoin i.prevout).out.tokenData.toList++inputTokens accessCoin vin := by
  cases h : (accessCoin i.prevout).out.tokenData <;> simp [inputTokens,h]

theorem GenesisId_cons {i : CTxIn} {id : TokenId} :
    GenesisId (i::vin) id ↔ (i.prevout.n = 0 ∧ i.prevout.txid = id) ∨ GenesisId vin id := by
  simp [GenesisId]

theorem scanInputs_ok {accessCoin : COutPoint → Coin} {first : Int} (vin : List CTxIn) (hst : AmountsValid st)
    (h : scanInputs accessCoin first st vin = .ok st') :
    (∀ i ∈ vin, InputOk accessCoin first i) ∧
    (∀ d ∈ inputTokens accessCoin vin, checkTokenData (some d) = .ok ()) ∧
    AmountsValid st' ∧ Tallied st (inputTokens accessCoin vin) st' ∧
    ∀ id, id ∈ st'.potentialGenesisIds ↔ id ∈ st.potentialGenesisIds ∨ GenesisId vin id := by
  induction vin generalizing st with
  | nil =>
    obtain rfl := Except.ok.inj h
    exact ⟨by simp,by simp [inputTokens],hst,Tallied.refl st,by simp [GenesisId]⟩
  | cons i vin ih =>
    have hi := inputOk_of_scan h
    rw [scanInputs_cons hi] at h
    obtain ⟨st1,h1,h⟩ := except_bind_ok.mp h
    rcases addGenesisId_spec st i.prevout with ⟨-,-,hno⟩ | ⟨st0,heq,htal0,hamt0,hids0⟩
    · exact absurd h1 (hno st1)
    obtain rfl : st0 = st1 := Except.ok.inj (heq.symm.trans h1)
    have hst0 : AmountsValid st0 := fun id a ha => hst id a (hamt0 ▸ ha)
    have hids : ∀ id, (id ∈ st0.potentialGenesisIds ∨ GenesisId vin id) ↔
        id ∈ st.potentialGenesisIds ∨ GenesisId (i::vin) id := by
      intro id
      rw [hids0,GenesisId_cons,or_assoc]
    rw [inputTokens_cons]
    cases ht : (accessCoin i.prevout).out.tokenData with
    | none =>
      simp only [ht] at h
      obtain ⟨h2,h3,h4,h5,h6⟩ := ih hst0 h
      refine ⟨forall_mem_cons.mpr ⟨hi,h2⟩,by simpa using h3,h4,htal0.trans h5,?_⟩
      exact fun id => (h6 id).trans (hids id)
    | some d =>
      simp only [ht] at h
      obtain ⟨st2,h2,h⟩ := except_bind_ok.mp h
      obtain ⟨htal,hgen⟩ := addInputToken_tallied h2
      have hd := ((addInputToken_spec _ d).mp ⟨st2,h2⟩).1
      obtain ⟨h3,h4,h5,h6,h7⟩ := ih (addInputToken_valid hst0 h2) h
      refine ⟨forall_mem_cons.mpr ⟨hi,h3⟩,forall_mem_cons.mpr ⟨hd,h4⟩,h5,?_,?_⟩
      · exact htal0.trans (htal.trans h6)
      · intro id
        rw [h7,hgen]
        exact hids id

theorem scanInputs_exists (accessCoin : COutPoint → Coin) (first : Int) (vin : List CTxIn) (hst : AmountsValid st)
    (hin : ∀ i ∈ vin, InputOk accessCoin first i)
    (hdata : ∀ d ∈ inputTokens accessCoin vin, checkTokenData (some d) = .ok ())
    (hnd : (genesisTxIds vin).Nodup)
    (hnew : ∀ id, GenesisId vin id → id ∉ st.potentialGenesisIds)
    (hamt : ∀ id, (st.inputAmountsByCategory id).getD 0+amountOf id (inputTokens accessCoin vin) ≤ int64Max) :
    ∃ st', scanInputs accessCoin first st vin = .ok st' := by
  induction vin generalizing st with
  | nil => exact ⟨st,rfl⟩
  | cons i vin ih =>
    obtain ⟨hi,hin⟩ := forall_mem_cons.mp hin
    rw [scanInputs_cons hi]
    rcases addGenesisId_spec st i.prevout with ⟨hn,hm,-⟩ | ⟨st0,heq,-,hamt0,hids0⟩
    · exact absurd hm (hnew _ ⟨i,mem_cons_self,hn,rfl⟩)
    have hst0 : AmountsValid st0 := fun id a ha => hst id a (hamt0 ▸ ha)
    have hnd' : (genesisTxIds vin).Nodup := by
      refine hnd.sublist ?_
      exact ((sublist_cons_self i vin).filter _).map _
    have hnew' : ∀ id, GenesisId vin id → id ∉ st0.potentialGenesisIds := by
      intro id hid
      rw [hids0,not_or]
      refine ⟨hnew id (GenesisId_cons.mpr (.inr hid)),?_⟩
      rintro ⟨hn,rfl⟩
      have hcons : genesisTxIds (i::vin) = i.prevout.txid::genesisTxIds vin := by
        simp [genesisTxIds,hn]
      rw [hcons] at hnd
      exact (nodup_cons.mp hnd).1 (mem_genesisTxIds.mpr hid)
    rw [heq]
    dsimp only [Except.bind]
    rw [inputTokens_cons] at hdata hamt
    rw [← hamt0] at hamt
    cases ht : (accessCoin i.prevout).out.tokenData with
    | none =>
      simp only [ht,Option.toList_none,nil_append] at hdata hamt
      exact ih hst0 hin hdata hnd' hnew' hamt
    | some d =>
      simp only [ht,Option.toList_some,singleton_append,amountOf_cons] at hdata hamt
      obtain ⟨hd,hrest⟩ := forall_mem_cons.mp hdata
      have hnonneg := (checkTokenData_ok hd).2
      have hhead := hst0.getD d.id
      have hmin : int64Min < 0 := by norm_num [int64Min]
      have htail := amountOf_nonneg hrest d.id
      have hd0 := hamt d.id
      rw [if_pos rfl] at hd0
      obtain ⟨st2,h2⟩ := (addInputToken_spec st0 d).mpr ⟨hd,by omega,by omega⟩
      obtain ⟨htal,hgen⟩ := addInputToken_tallied h2
      dsimp only
      rw [h2]
      apply ih (addInputToken_valid hst0 h2) hin hrest hnd'
      · rw [hgen]
        exact hnew'
      · intro id
        rw [htal.amounts]
        have hid := hamt id
        by_cases he : d.id = id
        · rw [if_pos he] at hid
          simp only [any_cons,he,beq_self_eq_true,Bool.true_or,if_true,Option.getD_some,amountOf_cons,amountOf_nil]
          omega
        · rw [if_neg he] at hid
          simp only [any_cons,any_nil,beq_eq_false_iff_ne.mpr he,Bool.or_false,Bool.false_eq_true,if_false]
          omega
end Inputs
end BitfiniteCore
