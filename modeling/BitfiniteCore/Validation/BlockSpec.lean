import BitfiniteCore.Validation.Sequential

/-! # What an accepted block says -/

namespace BitfiniteCore
open Function WriteBack List

theorem CCoinsView.getBestBlock_spec {v : CCoinsView} (h : v.WF) :
    v.getBestBlock.1 = v.bestBlock ∧ v.getBestBlock.2.WF ∧ v.getBestBlock.2.coins = v.coins ∧
      v.getBestBlock.2.bestBlock = v.bestBlock := by
  induction v with
  | map f hashBlock => exact ⟨rfl,trivial,rfl,rfl⟩
  | cache m hashBlock base ih =>
    obtain ⟨h1,h2,h3,h4⟩ := ih h.1
    unfold getBestBlock
    dsimp only [bestBlock]
    split
    · refine ⟨h1,⟨h2,h3 ▸ h.2⟩,congrArg (layer (lines m)) h3,?_⟩
      dsimp only [bestBlock]
      rw [h1,h4]
      exact ite_self _
    · rename_i hne
      exact ⟨rfl,h,rfl,if_neg hne⟩

theorem CCoinsViewCache.getBestBlock_spec {v : CCoinsViewCache} (h : v.WF) :
    v.getBestBlock.1 = v.bestBlock ∧ v.getBestBlock.2.WF ∧ v.getBestBlock.2.coins = v.coins ∧
      v.getBestBlock.2.frame.2 = v.frame.2 := by
  obtain ⟨h1,h2,h3,h4⟩ := CCoinsView.getBestBlock_spec h.1
  unfold getBestBlock bestBlock
  dsimp only [toView,CCoinsView.bestBlock]
  split
  · exact ⟨h1,⟨h2,h3 ▸ h.2⟩,congrArg (layer (lines v.cacheCoins)) h3,Prod.ext h4 h3⟩
  · exact ⟨rfl,h,rfl,rfl⟩

theorem checkBIP30_ok (xs : List COutPoint) {v v' : CCoinsViewCache} (hwf : v.WF) (h : checkBIP30 xs v = .ok v') :
    v'.WF ∧ v'.coins = v.coins ∧ v'.frame = v.frame ∧ ∀ x ∈ xs, v.coins x = none := by
  induction xs generalizing v with
  | nil =>
    cases h
    exact ⟨hwf,rfl,rfl,by simp⟩
  | cons x xs ih =>
    rw [checkBIP30] at h
    split at h
    · cases h
    rename_i hx
    rw [CCoinsViewCache.haveCoin_eq hwf] at hx
    have hc := CCoinsViewCache.fetchCoin_coins hwf x
    obtain ⟨h1,h2,h3,h4⟩ := ih (CCoinsViewCache.fetchCoin_WF hwf x) h
    rw [hc] at h2 h4
    exact ⟨h1,h2,h3.trans (CCoinsViewCache.fetchCoin_frame hwf x),forall_mem_cons.mpr ⟨by simpa using hx,h4⟩⟩

theorem checkBIP30_viewRel {vtx : List CTransaction} {v v' : CCoinsViewCache} (hwf : v.WF)
    (h : checkBIP30 (vtx.map CTransaction.outpoints).flatten v = .ok v') :
    (∀ tx ∈ vtx, ∀ x ∈ tx.outpoints, v.coins x = none) ∧
      ViewRel v.frame (fun x => ∃ tx ∈ vtx, x ∈ tx.outpoints) v' v.coins := by
  obtain ⟨hwf',hcoins,hframe,hnone⟩ := checkBIP30_ok _ hwf h
  have hunspent : ∀ tx ∈ vtx, ∀ x ∈ tx.outpoints, v.coins x = none := fun tx htx x hx =>
    hnone x (mem_flatten.mpr ⟨tx.outpoints,mem_map_of_mem htx,hx⟩)
  refine ⟨hunspent,hwf',hcoins,hframe,fun x hx => .inl ?_⟩
  obtain ⟨tx,htx,hx⟩ := hx
  rw [hcoins]
  exact hunspent tx htx x hx

theorem checkRegularTransactions_ok (txs : List CTransaction) (h : checkRegularTransactions txs = .ok ()) :
    ∀ tx ∈ txs, checkRegularTransaction tx = .ok () := by
  induction txs with
  | nil => simp
  | cons tx txs ih =>
    obtain ⟨⟨⟩,h1,h2⟩ := except_bind_ok.mp h
    exact forall_mem_cons.mpr ⟨h1,ih h2⟩

theorem checkBlockSize_ok {block : CBlock} {nMaxBlockSize : Nat} (h : checkBlockSize block nMaxBlockSize = .ok ()) :
    ∃ size, block.serializeSize = some size ∧ size ≤ nMaxBlockSize := by
  unfold checkBlockSize at h
  split at h
  · cases h
  split at h
  · cases h
  rename_i size hsize
  split at h
  · cases h
  · exact ⟨size,hsize,by omega⟩

/-- What an accepted `CheckBlock` says about a block. -/
structure CheckedBlock (block : CBlock) (cb : CTransaction) (txs : List CTransaction) : Prop where
  vtx : block.vtx = cb::txs
  size : ∃ size, block.serializeSize = some size ∧ size ≤ maxConsensusBlockSize
  coinbase : CheckedCoinbase cb
  regular : ∀ tx ∈ txs, checkRegularTransaction tx = .ok ()

theorem checkBlock_ok {ctx : BlockContext} {block : CBlock} (h : checkBlock ctx block = .ok ()) :
    ∃ cb txs, CheckedBlock block cb txs := by
  unfold checkBlock at h
  split at h
  · cases h
  dsimp only at h
  split at h
  · cases h
  split at h
  · cases h
  split at h
  · cases h
  rename_i cb txs hvtx
  obtain ⟨⟨⟩,hsize,h⟩ := except_bind_ok.mp h
  obtain ⟨⟨⟩,hcb,h⟩ := except_bind_ok.mp h
  exact ⟨cb,txs,hvtx,checkBlockSize_ok hsize,checkCoinbase_ok hcb,checkRegularTransactions_ok txs h⟩

theorem abortOnCorruption_ok {r : Except Stop Unit} (h : abortOnCorruption r = .ok ()) : r = .ok () := by
  cases r with
  | ok u => rfl
  | error e =>
    cases e with
    | invalid r =>
      unfold abortOnCorruption at h
      dsimp only at h
      split at h <;> cases h
    | _ => cases h

/-- The coins that all transactions of a block are checked against. -/
def CoinMap.withBlock (m : CoinMap) (nHeight : Nat) (vtx : List CTransaction) : CoinMap :=
  m.insertAll (blockCreated nHeight vtx)

/-- An accepted block takes the coins `m` to `m'` and collects `undo`. -/
structure Connects (ctx : BlockContext) (block : CBlock) (cb : CTransaction) (txs : List CTransaction)
    (fees : List Int) (m m' : CoinMap) (undo : CBlockUndo) : Prop extends CheckedBlock block cb txs where
  unspent : ∀ tx ∈ cb::txs, ∀ x ∈ tx.outpoints, m x = none
  keys : ((blockCreated ctx.nHeight (cb::txs)).map Prod.fst).Nodup
  accepts : List.Forall₂ (TxAccepts ctx.txCheck ctx.nHeight (m.withBlock ctx.nHeight (cb::txs)))
    (cb::txs) fees
  spent : (blockSpent (cb::txs)).Nodup
  coins : m' = (m.withBlock ctx.nHeight (cb::txs)).remove (blockSpent (cb::txs))
  undo : undo = ⟨(m.withBlock ctx.nHeight (cb::txs)).undosOf (cb::txs)⟩
  reward : outputSum cb.vout ≤ fees.sum+getBlockSubsidy ctx.nHeight ctx.nSubsidyHalvingInterval

section Checked

variable {block : CBlock} {cb : CTransaction} {txs : List CTransaction} (h : CheckedBlock block cb txs)
include h

theorem CheckedBlock.notCoinBase : ∀ tx ∈ txs, tx.isCoinBase = false :=
  fun tx htx => (checkRegularTransaction_ok (h.regular tx htx)).notCoinBase

theorem CheckedBlock.common : ∀ tx ∈ cb::txs, CheckedCommon tx := forall_mem_cons.mpr ⟨h.coinbase.toCheckedCommon,
    fun tx htx => (checkRegularTransaction_ok (h.regular tx htx)).toCheckedCommon⟩

theorem CheckedBlock.prevouts_nodup : ∀ tx ∈ cb::txs, tx.isCoinBase = false → (tx.vin.map CTxIn.prevout).Nodup := by
  intro tx htx hcb
  rcases mem_cons.mp htx with rfl | htx
  · rw [h.coinbase.coinBase] at hcb
    cases hcb
  · exact (checkRegularTransaction_ok (h.regular tx htx)).prevouts

theorem CheckedBlock.spent_nodup : ∀ tx ∈ cb::txs, tx.spent.Nodup :=
  fun tx htx => spent_nodup_of (h.prevouts_nodup tx htx)
end Checked

theorem Connects.created_none {ctx : BlockContext} {block : CBlock} {cb : CTransaction}
    {txs : List CTransaction} {fees : List Int} {m m' : CoinMap} {undo : CBlockUndo}
    (h : Connects ctx block cb txs fees m m' undo) :
    ∀ x ∈ (blockCreated ctx.nHeight (cb::txs)).map Prod.fst, m x = none := by
  intro x hx
  obtain ⟨⟨y,c⟩,hmem,rfl⟩ := mem_map.mp hx
  obtain ⟨t,ht,hc⟩ := mem_flatMap.mp hmem
  exact h.unspent t ht y (created_key (mem_map_of_mem (f := Prod.fst) hc))

theorem connectBlock_ok {ctx : BlockContext} {block : CBlock} {v v' : CCoinsViewCache} {undo : CBlockUndo}
    (hwf : v.WF) (hgen : block.hash ≠ ctx.hashGenesisBlock)
    (hfresh : ctx.fEnforceBIP30 = true ∨ ∀ tx ∈ block.vtx, ∀ x ∈ tx.outpoints, v.coins x = none)
    (h : connectBlock ctx block v = .ok (v',undo)) :
    v'.WF ∧ v'.frame = (block.hash,v.frame.2) ∧ block.hashPrevBlock = v.bestBlock ∧
      ∃ cb txs fees, Connects ctx block cb txs fees v.coins v'.coins undo := by
  obtain ⟨⟨⟩,hcheck,h⟩ := except_bind_ok.mp h
  obtain ⟨⟨⟩,-,h⟩ := except_bind_ok.mp h
  obtain ⟨cb,txs,hblock⟩ := checkBlock_ok (abortOnCorruption_ok hcheck)
  obtain ⟨hbest,hbwf,hbcoins,hbbase⟩ := CCoinsViewCache.getBestBlock_spec hwf
  dsimp only at h
  split at h
  · cases h
  rename_i hprev
  split at h
  · rename_i hg
    exact absurd (by simpa using hg) hgen
  obtain ⟨w,hw,h⟩ := except_bind_ok.mp h
  rw [hblock.vtx] at hw hfresh
  obtain ⟨hunspent,hrel⟩ : (∀ tx ∈ cb::txs, ∀ x ∈ tx.outpoints, v.coins x = none) ∧
      ViewRel v.getBestBlock.2.frame (fun x => ∃ tx ∈ cb::txs, x ∈ tx.outpoints) w v.coins := by
    rw [← hbcoins] at hfresh ⊢
    cases hbip : ctx.fEnforceBIP30 with
    | true =>
      rw [if_pos hbip] at hw
      exact checkBIP30_viewRel hbwf hw
    | false =>
      rw [if_neg (by simp [hbip])] at hw
      cases hw
      have hnone := hfresh.resolve_left (by simp [hbip])
      exact ⟨hnone,hbwf,rfl,rfl,fun x ⟨tx,htx,hx⟩ => .inl (hnone tx htx x hx)⟩
  obtain ⟨r,hr,h⟩ := except_bind_ok.mp h
  obtain ⟨reward,hreward,h⟩ := except_bind_ok.mp h
  obtain ⟨valueOut,hvalue,h⟩ := except_bind_ok.mp h
  split at h
  · cases h
  split at h
  · cases h
  cases h
  rw [hblock.vtx] at hr hvalue
  obtain ⟨⟨m',fees,us⟩,hs,hrs,hrs'⟩ := (connectOutputsThenInputs_ok ctx.txCheck ctx.nHeight hrel
    (fun tx htx x hx => ⟨tx,htx,hx⟩) hblock.prevouts_nodup).1 r hr
  obtain ⟨m1,hm1,hs⟩ := except_bind_ok.mp hs
  obtain ⟨-,hkeys,-,rfl⟩ := (CoinMap.addBlockCoins_coinbase_iff ctx.nHeight hblock.coinbase.coinBase
    hblock.notCoinBase _ _).mp hm1
  obtain ⟨fs,hacc,hspent,-,rfl,rfl,rfl⟩ := (CoinMap.connectTxs_iff _ hblock.spent_nodup moneyRange_zero).mp hs
  obtain ⟨hfees,hus⟩ := Prod.mk.inj hrs'
  refine ⟨hrs.wf,?_,?_,cb,txs,fs,hblock,hunspent,hkeys,hacc,hspent,hrs.coins,by rw [hus]; rfl,?_⟩
  · exact congrArg (Prod.mk block.hash) ((congrArg Prod.snd hrs.frame).trans hbbase)
  · rw [← hbest]
    simpa using hprev
  · have hv : outputSum cb.vout = valueOut := by
      simpa [hblock.coinbase.getValueOut] using hvalue
    have hr' := addAmount_ok hreward
    rw [hfees,zero_add] at hr'
    omega
end BitfiniteCore
