import BitfiniteCore.Consensus.TokenRule
import BitfiniteCore.Validation.Supply
import Mathlib.Data.Set.Card.Arithmetic

/-! # The supply of a token category over a run of blocks -/

namespace BitfiniteCore
open Function WeightedMap TopologicalOrder List Option

section Transfer

def tokenWeight (f : OutputData → Int) (c : Coin) : Int := c.out.tokenData.elim 0 f

def amountIn (id : TokenId) (d : OutputData) : Int := if d.id = id then d.amount else 0

def nftIn (id : TokenId) (d : OutputData) : Int := if d.id = id ∧ d.hasNFT = true then 1 else 0

theorem amountOf_eq_sum (id : TokenId) (ts : List OutputData) : amountOf id ts = (ts.map (amountIn id)).sum := by
  induction ts with
  | nil => rfl
  | cons d ts ih =>
    rw [amountOf_cons,ih,map_cons,sum_cons]
    rfl

theorem nftIn_sum (id : TokenId) (ts : List OutputData) (h : ∀ d ∈ ts, checkTokenData (some d) = .ok ()) :
    (ts.map (nftIn id)).sum = (mintingCount id ts+mutableCount id ts+(immutableCommitments id ts).length : Nat) := by
  induction ts with
  | nil => rfl
  | cons d ts ih =>
    obtain ⟨hd,hts⟩ := forall_mem_cons.mp h
    have hv := (checkTokenData_ok hd).1
    rw [map_cons,sum_cons,ih hts]
    unfold nftIn mintingCount mutableCount immutableCommitments
    by_cases hid : d.id = id
    · cases hn : d.hasNFT with
      | false =>
        obtain ⟨hi,hm,hmint⟩ := nft_none hn
        simp [hi,hm,hmint]
      | true =>
        rcases nft_cases hv hn with ⟨hi,hm,hmint⟩ | ⟨hi,hm,hmint⟩ | ⟨hi,hm,hmint⟩ <;>
          simp [hid,hi,hm,hmint] <;> omega
    · simp [hid]

private theorem count_sum (cs : List NFTCommitment) : ∑ c ∈ cs.toFinset, cs.count c = cs.length := by
  convert sum_toFinset_count_eq_length cs

theorem TokenRule.nfts_le {tx : CTransaction} {accessCoin : COutPoint → Coin} {first : Int}
    (h : TokenRule tx accessCoin first) {id : TokenId} (hgen : ¬GenesisId tx.vin id)
    (hmint : mintingCount id (inputTokens accessCoin tx.vin) = 0) :
    ((outputTokens tx.vout).map (nftIn id)).sum ≤ ((inputTokens accessCoin tx.vin).map (nftIn id)).sum := by
  obtain ⟨hout,hle⟩ := h.nfts id hgen hmint
  rw [nftIn_sum id _ h.outputs_data,nftIn_sum id _ h.inputs_data,hout,hmint]
  generalize immutableCommitments id (outputTokens tx.vout) = outs at hle ⊢
  generalize immutableCommitments id (inputTokens accessCoin tx.vin) = ins at hle ⊢
  have hlen : outs.length ≤ ∑ c ∈ outs.toFinset, (outs.count c-ins.count c)+ins.length := by
    calc outs.length = ∑ c ∈ outs.toFinset, outs.count c := (count_sum outs).symm
      _ ≤ ∑ c ∈ outs.toFinset, ((outs.count c-ins.count c)+ins.count c) :=
        Finset.sum_le_sum fun c _ => by omega
      _ = ∑ c ∈ outs.toFinset, (outs.count c-ins.count c)+∑ c ∈ outs.toFinset, ins.count c :=
        Finset.sum_add_distrib
      _ ≤ _ := by
        apply Nat.add_le_add_left
        calc ∑ c ∈ outs.toFinset, ins.count c ≤ ∑ c ∈ outs.toFinset ∪ ins.toFinset, ins.count c :=
              Finset.sum_le_sum_of_subset Finset.subset_union_left
          _ = ∑ c ∈ ins.toFinset, ins.count c := by
              apply (Finset.sum_subset Finset.subset_union_right _).symm
              intro c _ hc
              exact count_eq_zero.mpr (by simpa using hc)
          _ = ins.length := count_sum ins
  omega

theorem createdFrom_tokens (f : OutputData → Int) (txid : TxId) (cb : Bool) (nHeight i : Nat)
    (vout : List CTxOut) (h : ∀ d ∈ outputTokens vout, 0 ≤ f d) :
    ((createdFrom txid cb nHeight i vout).map fun p => tokenWeight f p.2).sum ≤ ((outputTokens vout).map f).sum := by
  induction vout generalizing i with
  | nil => simp [createdFrom,outputTokens]
  | cons o vout ih =>
    have hcons : ((outputTokens (o::vout)).map f).sum = o.tokenData.elim 0 f+((outputTokens vout).map f).sum := by
      cases ho : o.tokenData <;> simp [outputTokens,ho]
    have hrest := ih (i+1) fun d hd => h d (by
      obtain ⟨o',ho',hd⟩ := mem_filterMap.mp hd
      exact mem_filterMap.mpr ⟨o',mem_cons_of_mem o ho',hd⟩)
    have h0 : 0 ≤ o.tokenData.elim 0 f := by
      cases ho : o.tokenData with
      | none => exact le_refl _
      | some d => exact h d (mem_filterMap.mpr ⟨o,mem_cons_self,ho⟩)
    rw [createdFrom,hcons]
    split
    · omega
    · have hval : tokenWeight f (Coin.ofOutput o nHeight cb) = o.tokenData.elim 0 f := rfl
      rw [map_cons,sum_cons,hval]
      omega

theorem spent_tokens (f : OutputData → Int) {m : CoinMap} {tx : CTransaction} (hcb : tx.isCoinBase = false)
    (hhave : ∀ x ∈ tx.spent, (m x).isSome = true) :
    (tx.spent.map fun x => (m x).elim 0 (tokenWeight f)).sum = ((inputTokens m.access tx.vin).map f).sum := by
  have hspent : tx.spent = tx.vin.map CTxIn.prevout := by
    rw [CTransaction.spent,if_neg (by simp [hcb])]
  rw [hspent] at hhave ⊢
  generalize tx.vin = vin at hhave ⊢
  induction vin with
  | nil => rfl
  | cons i vin ih =>
    obtain ⟨hi,hvin⟩ := forall_mem_cons.mp hhave
    obtain ⟨c,hc⟩ := isSome_iff_exists.mp hi
    have haccess : m.access i.prevout = c := by simp [CoinMap.access,hc]
    rw [map_cons,map_cons,sum_cons,ih hvin,hc]
    unfold inputTokens tokenWeight
    cases hd : c.out.tokenData <;> simp [haccess,hd]
end Transfer

section Block

variable {ctx : BlockContext} {block : CBlock} {cb : CTransaction} {txs : List CTransaction}
  {fees : List Int} {m m' : CoinMap} {undo : CBlockUndo}

/-- No coin carries a token with `Q`. -/
def CoinMap.Lacks (Q : OutputData → Prop) (m : CoinMap) : Prop :=
  ∀ x c d, m x = some c → c.out.tokenData = some d → ¬Q d

theorem CoinMap.Lacks.inputs {Q : OutputData → Prop} (h : m.Lacks Q) {vin : List CTxIn} :
    ∀ d ∈ inputTokens m.access vin, ¬Q d := by
  intro d hd
  obtain ⟨i,-,hi⟩ := mem_filterMap.mp hd
  cases hm : m i.prevout with
  | none =>
    rw [CoinMap.access,hm] at hi
    cases hi
  | some c =>
    rw [CoinMap.access,hm] at hi
    exact h _ c d hm hi

theorem CoinMap.Lacks.weight_eq {f : OutputData → Int} (h : m.Lacks fun d => f d ≠ 0) :
    weight (tokenWeight f) m = 0 := by
  rw [weight]
  apply finsum_eq_zero_of_forall_eq_zero
  intro x
  cases hm : m x with
  | none => rfl
  | some c =>
    cases hd : c.out.tokenData with
    | none => simp [tokenWeight,hd]
    | some d => simpa [tokenWeight,hd] using h x c d hm hd

private theorem accepted {check : TxCheck} {nHeight : Nat} {w : CoinMap}
    (h : List.Forall₂ (TxAccepts check nHeight w) txs fees) :
    ∀ tx ∈ txs, ∃ fee, TxAccepts check nHeight w tx fee := by
  induction h with
  | nil => simp
  | cons hacc _ ih => exact forall_mem_cons.mpr ⟨⟨_,hacc⟩,ih⟩

section Accepted

variable (h : Connects ctx block cb txs fees m m' undo)
include h

theorem Connects.have_spent : ∀ tx ∈ cb::txs, ∀ x ∈ tx.spent,
    (m.withBlock ctx.nHeight (cb::txs) x).isSome = true := by
  intro tx htx
  obtain ⟨fee,hacc⟩ := accepted h.accepts tx htx
  exact hacc.have

theorem Connects.spent_coinbase : cb.spent = [] := by
  rw [CTransaction.spent,if_pos h.coinbase.coinBase]

theorem Connects.tokenRule (hflags : ctx.flags &&& scriptEnableTokens ≠ 0) : ∀ tx ∈ txs,
    TokenRule tx (m.withBlock ctx.nHeight (cb::txs)).access ctx.firstTokenBlockHeight := by
  intro tx htx
  have hcb := h.notCoinBase tx htx
  obtain ⟨fee,hfee,hrun⟩ := accepted h.accepts tx (mem_cons_of_mem cb htx)
  rw [txFee,if_neg (by simp [hcb])] at hfee
  obtain ⟨⟨⟩,htokens,-⟩ := except_bind_ok.mp hrun
  apply (checkTxTokens_rule hflags hcb _ _).mp htokens
  · exact (checkRegularTransaction_ok (h.regular tx htx)).prevouts
  · exact fun i hi => ((checkTxInputs_ok hfee).1 i hi).1

theorem Connects.coinbase_tokens (hflags : ctx.flags &&& scriptEnableTokens ≠ 0) : outputTokens cb.vout = [] := by
  obtain ⟨fee,-,hrun⟩ := accepted h.accepts cb mem_cons_self
  obtain ⟨⟨⟩,htokens,-⟩ := except_bind_ok.mp hrun
  rw [checkTxTokens,if_neg (by simpa using hflags)] at htokens
  split at htokens
  · cases htokens
  rw [if_pos h.coinbase.coinBase] at htokens
  split at htokens
  · cases htokens
  rename_i hnone
  rw [outputTokens,filterMap_eq_nil_iff]
  intro o ho
  by_contra hne
  exact hnone (any_eq_true.mpr ⟨o,ho,isSome_iff_ne_none.mpr hne⟩)

theorem Connects.weight_eq (hfin : (held m).Finite) (w : Coin → Int) :
    weight w m' = weight w m+((blockCreated ctx.nHeight (cb::txs)).map fun p => w p.2).sum-
      ((blockSpent (cb::txs)).map fun x => (m.withBlock ctx.nHeight (cb::txs) x).elim 0 w).sum := by
  have hins := CoinMap.weight_insertAll w hfin _ h.keys h.created_none
  have hrem := CoinMap.weight_remove w (CoinMap.held_insertAll hfin (blockCreated ctx.nHeight (cb::txs)))
    _ h.spent
  rw [h.coins]
  unfold CoinMap.withBlock
  rw [hrem,hins]

theorem Connects.tokens_le (hflags : ctx.flags &&& scriptEnableTokens ≠ 0) (hfin : (held m).Finite)
    {f : OutputData → Int} (h0 : ∀ d, checkTokenData (some d) = .ok () → 0 ≤ f d) {g : CTransaction → Int}
    (hg : ∀ tx ∈ txs, ((outputTokens tx.vout).map f).sum ≤
      ((inputTokens (m.withBlock ctx.nHeight (cb::txs)).access tx.vin).map f).sum+g tx) :
    weight (tokenWeight f) m' ≤ weight (tokenWeight f) m+(txs.map g).sum := by
  have hrule := h.tokenRule hflags
  have hhave := fun tx htx => h.have_spent tx (mem_cons_of_mem cb htx)
  have hcoinbase := createdFrom_tokens f cb.getId cb.isCoinBase ctx.nHeight 0 cb.vout
    (by rw [h.coinbase_tokens hflags]; simp)
  rw [h.coinbase_tokens hflags,map_nil,sum_nil] at hcoinbase
  have hcb := h.notCoinBase
  rw [h.weight_eq hfin,blockCreated_cons]
  have hspent : blockSpent (cb::txs) = blockSpent txs := by
    change cb.spent++blockSpent txs = _
    rw [h.spent_coinbase,nil_append]
  rw [hspent]
  generalize m.withBlock ctx.nHeight (cb::txs) = W at hg hhave hrule ⊢
  have hsum : ((blockCreated ctx.nHeight txs).map fun p => tokenWeight f p.2).sum ≤
      ((blockSpent txs).map fun x => (W x).elim 0 (tokenWeight f)).sum+(txs.map g).sum := by
    clear hspent h hcoinbase
    induction txs with
    | nil => simp [blockCreated,blockSpent]
    | cons tx txs ih =>
      obtain ⟨hgtx,hgtxs⟩ := forall_mem_cons.mp hg
      obtain ⟨hrtx,hrtxs⟩ := forall_mem_cons.mp hrule
      obtain ⟨hhtx,hhtxs⟩ := forall_mem_cons.mp hhave
      obtain ⟨hctx,hctxs⟩ := forall_mem_cons.mp hcb
      have hrest := ih hctxs hgtxs hhtxs hrtxs
      have hout := createdFrom_tokens f tx.getId tx.isCoinBase ctx.nHeight 0 tx.vout
        fun d hd => h0 d (hrtx.outputs_data d hd)
      have hin := spent_tokens f hctx hhtx
      have hflat : blockSpent (tx::txs) = tx.spent++blockSpent txs := rfl
      rw [blockCreated_cons,hflat,map_append,sum_append,map_append,sum_append,map_cons,sum_cons,hin]
      unfold CTransaction.created
      omega
  rw [map_append,sum_append]
  unfold CTransaction.created
  omega

theorem Connects.lacks (hflags : ctx.flags &&& scriptEnableTokens ≠ 0)
    (hacyclic : Acyclic (cb::txs) SpendsFrom) {Q : OutputData → Prop} (hm : m.Lacks Q)
    (hstep : ∀ tx ∈ txs, (∀ d ∈ inputTokens (m.withBlock ctx.nHeight (cb::txs)).access tx.vin, ¬Q d) →
      ∀ d ∈ outputTokens tx.vout, ¬Q d) :
    (m.withBlock ctx.nHeight (cb::txs)).Lacks Q ∧ m'.Lacks Q := by
  have hout : ∀ tx ∈ cb::txs, ∀ d ∈ outputTokens tx.vout, ¬Q d := by
    apply hacyclic.induction (P := fun tx => ∀ d ∈ outputTokens tx.vout, ¬Q d)
    intro tx htx ih
    rcases mem_cons.mp htx with rfl | htx'
    · simp [h.coinbase_tokens hflags]
    apply hstep tx htx'
    intro d hd
    obtain ⟨i,hi,hdata⟩ := mem_filterMap.mp hd
    have hspent : i.prevout ∈ tx.spent := by
      rw [CTransaction.spent,if_neg (by simp [h.notCoinBase tx htx'])]
      exact mem_map_of_mem hi
    obtain ⟨c,hc⟩ := isSome_iff_exists.mp (h.have_spent tx htx i.prevout hspent)
    rw [CoinMap.access,hc,getD_some] at hdata
    rcases CoinMap.insertAll_cases hc with hmem | ⟨-,hmx⟩
    · obtain ⟨t,ht,hct⟩ := mem_flatMap.mp hmem
      have htxid := created_txid (mem_map_of_mem (f := Prod.fst) hct)
      obtain ⟨n,o,hn,-,rfl,-⟩ := createdFrom_mem hct
      exact ih t ht ⟨_,hspent,htxid⟩ d (mem_filterMap.mpr ⟨o,mem_of_getElem? hn,hdata⟩)
    · exact hm _ c d hmx hdata
  have hwith : (m.withBlock ctx.nHeight (cb::txs)).Lacks Q := by
    intro x c d hx hd
    rcases CoinMap.insertAll_cases hx with hmem | ⟨-,hmx⟩
    · obtain ⟨t,ht,hct⟩ := mem_flatMap.mp hmem
      obtain ⟨n,o,hn,-,rfl,-⟩ := createdFrom_mem hct
      exact hout t ht d (mem_filterMap.mpr ⟨o,mem_of_getElem? hn,hd⟩)
    · exact hm x c d hmx hd
  refine ⟨hwith,fun x c d hx => hwith x c d ?_⟩
  rw [h.coins,CoinMap.remove] at hx
  split at hx
  · cases hx
  · exact hx
end Accepted
end Block

section Category

variable {ctx : BlockContext} {block : CBlock} {cb : CTransaction} {txs : List CTransaction}
  {fees : List Int} {m m' : CoinMap} {undo : CBlockUndo} (h : Connects ctx block cb txs fees m m' undo)
  (hflags : ctx.flags &&& scriptEnableTokens ≠ 0) (c : TokenId)

def OutputData.Mints (c : TokenId) (d : OutputData) : Prop := d.id = c ∧ d.isMintingNFT = true

private theorem mintingCount_eq_zero {c : TokenId} {ts : List OutputData} :
    mintingCount c ts = 0 ↔ ∀ d ∈ ts, ¬d.Mints c := by
  rw [mintingCount,countP_eq_zero]
  apply forall₂_congr
  intro d _
  simp [OutputData.Mints]

include h in
theorem Connects.genesisId_iff {tx : CTransaction} (htx : tx ∈ txs) : GenesisId tx.vin c ↔ ⟨c,0⟩ ∈ tx.spent := by
  rw [CTransaction.spent,if_neg (by simp [h.notCoinBase tx htx]),List.mem_map]
  constructor
  · rintro ⟨i,hi,hn,hid⟩
    exact ⟨i,hi,by rw [← hn,← hid]⟩
  · rintro ⟨i,hi,he⟩
    exact ⟨i,hi,by rw [he],by rw [he]⟩

private theorem spenders_le (x : COutPoint) {b : Int} (hb : 0 ≤ b) (txs : List CTransaction)
    (hnd : (blockSpent txs).Nodup) : (txs.map fun tx => if x ∈ tx.spent then b else 0).sum ≤ b := by
  induction txs with
  | nil => simpa using hb
  | cons tx txs ih =>
    obtain ⟨-,hrest,hdisj⟩ := nodup_append.mp (show (tx.spent++blockSpent txs).Nodup from hnd)
    rw [map_cons,sum_cons]
    by_cases hx : x ∈ tx.spent
    · have hzero : (txs.map fun tx => if x ∈ tx.spent then b else 0).sum = 0 := by
        apply sum_eq_zero
        intro a ha
        obtain ⟨t,ht,rfl⟩ := mem_map.mp ha
        exact if_neg fun hxt => hdisj x hx x (mem_flatMap.mpr ⟨t,ht,hxt⟩) rfl
      rw [if_pos hx,hzero]
      omega
    · rw [if_neg hx,zero_add]
      exact ih hrest

include h hflags

theorem Connects.amount_le (hfin : (held m).Finite) :
    weight (tokenWeight (amountIn c)) m' ≤ weight (tokenWeight (amountIn c)) m+
      (txs.map fun tx => if ⟨c,0⟩ ∈ tx.spent then int64Max else 0).sum := by
  have h0 : ∀ id d, checkTokenData (some d) = .ok () → 0 ≤ amountIn id d := by
    intro id d hd
    rw [amountIn]
    split
    · exact (checkTokenData_ok hd).2
    · exact le_refl _
  apply h.tokens_le hflags hfin (h0 c)
  intro tx htx
  have hrule := h.tokenRule hflags tx htx
  rw [← amountOf_eq_sum,← amountOf_eq_sum]
  split
  · rename_i hgen
    have hle := hrule.genesis_amounts c ((h.genesisId_iff c htx).mpr hgen)
    have hnonneg := amountOf_nonneg hrule.inputs_data c
    omega
  · rename_i hgen
    rw [add_zero]
    exact hrule.output_amounts c fun hid => hgen ((h.genesisId_iff c htx).mp hid)

variable {c} (hgen : ∀ tx ∈ txs, ⟨c,0⟩ ∉ tx.spent)
include hgen

theorem Connects.amount_le_of_not_genesis (hfin : (held m).Finite) :
    weight (tokenWeight (amountIn c)) m' ≤ weight (tokenWeight (amountIn c)) m := by
  have hle := h.amount_le hflags c hfin
  have hzero : (txs.map fun tx => if (⟨c,0⟩ : COutPoint) ∈ tx.spent then int64Max else 0).sum = 0 := by
    apply sum_eq_zero
    intro a ha
    obtain ⟨tx,htx,rfl⟩ := mem_map.mp ha
    exact if_neg (hgen tx htx)
  omega

variable (hacyclic : Acyclic (cb::txs) SpendsFrom)
include hacyclic

theorem Connects.lacks_category (hm : m.Lacks fun d => d.id = c) : m'.Lacks fun d => d.id = c := by
  apply (h.lacks hflags hacyclic hm _).2
  intro tx htx hin d hd he
  rcases (h.tokenRule hflags tx htx).category d hd with ⟨⟨t,ht,hid⟩,-⟩ | ⟨hid,-⟩
  · exact hin t ht (hid.trans he)
  · rw [he] at hid
    exact hgen tx htx ((h.genesisId_iff c htx).mp hid)

theorem Connects.lacks_minting (hm : m.Lacks (OutputData.Mints c)) :
    (m.withBlock ctx.nHeight (cb::txs)).Lacks (OutputData.Mints c) ∧ m'.Lacks (OutputData.Mints c) := by
  apply h.lacks hflags hacyclic hm
  intro tx htx hin
  have hid : ¬GenesisId tx.vin c := fun hid => hgen tx htx ((h.genesisId_iff c htx).mp hid)
  have hzero := ((h.tokenRule hflags tx htx).nfts c hid (mintingCount_eq_zero.mpr hin)).1
  exact mintingCount_eq_zero.mp hzero

theorem Connects.nfts_le (hfin : (held m).Finite) (hm : m.Lacks (OutputData.Mints c)) :
    weight (tokenWeight (nftIn c)) m' ≤ weight (tokenWeight (nftIn c)) m := by
  have hlacks := (h.lacks_minting hflags hgen hacyclic hm).1
  have hle := @Connects.tokens_le ctx block cb txs fees m m' undo h hflags hfin (nftIn c) ?_ (fun _ => 0) ?_
  · simpa using hle
  · intro d _
    rw [nftIn]
    split <;> decide
  · intro tx htx
    rw [add_zero]
    apply (h.tokenRule hflags tx htx).nfts_le
    · exact fun hid => hgen tx htx ((h.genesisId_iff c htx).mp hid)
    · exact mintingCount_eq_zero.mpr hlacks.inputs
end Category

section Chain

def BlockContext.connected (ctx : BlockContext) (block : CBlock) : List CTransaction :=
  if block.hash == ctx.hashGenesisBlock then [] else block.vtx

/-- A view after the transactions `txs` of blocks connected to `start` while tokens are enabled. -/
inductive TokenChain (start : CCoinsViewCache) : List CTransaction → CCoinsViewCache → Prop
  | start : TokenChain start [] start
  | upkeep {txs : List CTransaction} {v v' : CCoinsViewCache} {op : CoinsOp} {a : CoinsAnswer}
      (run : TokenChain start txs v) (hop : op.isUpkeep = true) (hstep : stackStep v op = .ok (v',a)) :
      TokenChain start txs v'
  | connect {txs : List CTransaction} {v v' : CCoinsViewCache} {ctx : BlockContext} {block : CBlock}
      {undo : CBlockUndo} (run : TokenChain start txs v)
      (hflags : ctx.flags &&& scriptEnableTokens ≠ 0)
      (haccept : connectBlock ctx block v = .ok (v',undo)) :
      TokenChain start (txs++ctx.connected block) v'

/-- No two transactions have the same txid, and no chain of spends leads back to its start. -/
structure CollisionFree (txs : List CTransaction) : Prop where
  txids : (txs.map CTransaction.getId).Nodup
  acyclic : Acyclic txs SpendsFrom

theorem CollisionFree.left {txs txs' : List CTransaction} (h : CollisionFree (txs++txs')) : CollisionFree txs := by
  constructor
  · have htxids := h.txids
    rw [map_append] at htxids
    exact (nodup_append.mp htxids).1
  · exact h.acyclic.mono fun _ ha => mem_append_left _ ha

/-- The coins are outputs of past transactions, and what one spent was such an output and is gone. -/
structure Ledger (past : List CTransaction) (m : CoinMap) : Prop where
  sane : m.Sane
  known : ∀ x, m x ≠ none → x.txid ∈ past.map CTransaction.getId
  spent : ∀ tx ∈ past, ∀ x ∈ tx.spent, x.txid ∈ past.map CTransaction.getId ∧ m x = none

section Step

variable {ctx : BlockContext} {block : CBlock} {cb : CTransaction} {txs past : List CTransaction}
  {fees : List Int} {m m' : CoinMap} {undo : CBlockUndo}

theorem Ledger.fresh (h : Ledger past m) (hfree : CollisionFree (past++txs)) :
    ∀ tx ∈ txs, ∀ x ∈ tx.outpoints, m x = none := by
  intro tx htx x hx
  by_contra hne
  have htxids := hfree.txids
  rw [map_append] at htxids
  obtain ⟨n,-,rfl⟩ := mem_map.mp hx
  exact (nodup_append.mp htxids).2.2 _ (h.known _ hne) _ (mem_map_of_mem htx) rfl

theorem withBlock_known (h : Ledger past m) (nHeight : Nat) {x : COutPoint}
    (hx : m.withBlock nHeight txs x ≠ none) : x.txid ∈ (past++txs).map CTransaction.getId := by
  obtain ⟨c,hc⟩ := ne_none_iff_exists'.mp hx
  rw [map_append,mem_append]
  rcases CoinMap.insertAll_cases hc with hmem | ⟨-,hmx⟩
  · obtain ⟨t,ht,hct⟩ := mem_flatMap.mp hmem
    rw [created_txid (mem_map_of_mem (f := Prod.fst) hct)]
    exact .inr (mem_map_of_mem ht)
  · exact .inl (h.known x (by rw [hmx]; exact some_ne_none c))

theorem Ledger.unspendable (h : Ledger past m) (hfree : CollisionFree (past++cb::txs))
    (hc : Connects ctx block cb txs fees m m' undo) {tx : CTransaction} (htx : tx ∈ past) {x : COutPoint}
    (hx : x ∈ tx.spent) :
    m.withBlock ctx.nHeight (cb::txs) x = none ∧ ∀ t ∈ cb::txs, x ∉ t.spent := by
  obtain ⟨hid,hnone⟩ := h.spent tx htx x hx
  have htxids := hfree.txids
  rw [map_append] at htxids
  have hwith : m.withBlock ctx.nHeight (cb::txs) x = none := by
    rw [CoinMap.withBlock,CoinMap.insertAll_of_notMem _ m]
    · exact hnone
    · intro hkey
      obtain ⟨⟨y,c⟩,hmem,rfl⟩ := mem_map.mp hkey
      obtain ⟨t,ht,hct⟩ := mem_flatMap.mp hmem
      have hidt := created_txid (mem_map_of_mem (f := Prod.fst) hct)
      exact (nodup_append.mp htxids).2.2 _ hid _ (mem_map_of_mem ht) hidt
  refine ⟨hwith,fun t ht hxt => ?_⟩
  have hsome := hc.have_spent t ht x hxt
  rw [hwith] at hsome
  cases hsome

theorem Ledger.connect (h : Ledger past m) (hfree : CollisionFree (past++cb::txs))
    (hc : Connects ctx block cb txs fees m m' undo) : Ledger (past++cb::txs) m' where
  sane := hc.sane h.sane
  known := by
    intro x hx
    apply withBlock_known h ctx.nHeight
    intro hnone
    rw [hc.coins,CoinMap.remove,hnone,ite_self] at hx
    exact hx rfl
  spent := by
    intro tx htx x hx
    rcases mem_append.mp htx with htx | htx
    · refine ⟨?_,?_⟩
      · rw [map_append]
        exact mem_append_left _ (h.spent tx htx x hx).1
      · rw [hc.coins,CoinMap.remove,(h.unspendable hfree hc htx hx).1,ite_self]
    · refine ⟨withBlock_known h ctx.nHeight ?_,?_⟩
      · exact isSome_iff_ne_none.mp (hc.have_spent tx htx x hx)
      · have hmem : x ∈ blockSpent (cb::txs) := mem_flatMap.mpr ⟨tx,htx,hx⟩
        rw [hc.coins,CoinMap.remove,if_pos hmem]
end Step

theorem TokenChain.invariant {start v : CCoinsViewCache} {past txs : List CTransaction}
    (h : TokenChain start txs v) (hwf : start.WF) (hledger : Ledger past start.coins)
    (hfree : CollisionFree (past++txs)) {P : List CTransaction → CoinMap → Prop} (hP : P past start.coins)
    (hstep : ∀ (ctx : BlockContext) (block : CBlock) (cb : CTransaction) (txs past : List CTransaction)
      (fees : List Int) (m m' : CoinMap) (undo : CBlockUndo), ctx.flags &&& scriptEnableTokens ≠ 0 →
      Ledger past m → CollisionFree (past++cb::txs) → Connects ctx block cb txs fees m m' undo →
      P past m → P (past++cb::txs) m') :
    v.WF ∧ Ledger (past++txs) v.coins ∧ P (past++txs) v.coins := by
  induction h with
  | start =>
    rw [append_nil]
    exact ⟨hwf,hledger,hP⟩
  | @upkeep txs v v' op a _ hop hupkeep ih =>
    obtain ⟨hvwf,hvledger,hvP⟩ := ih hfree
    obtain ⟨hallowed,hmap⟩ := isUpkeep_mapStep hop v.coins
    obtain ⟨w,hw,hwwf,hwcoins⟩ := stackStep_refines hvwf hallowed
    rw [hupkeep] at hw
    obtain ⟨rfl,-⟩ := Prod.mk.inj (Except.ok.inj hw)
    rw [hmap] at hwcoins
    rw [hwcoins]
    exact ⟨hwwf,hvledger,hvP⟩
  | @connect txs v v' ctx block undo _ hflags haccept ih =>
    rw [← append_assoc] at hfree ⊢
    obtain ⟨hvwf,hvledger,hvP⟩ := ih hfree.left
    by_cases hgen : block.hash = ctx.hashGenesisBlock
    · obtain ⟨hwf',hcoins⟩ := connectBlock_genesis hvwf hgen haccept
      rw [BlockContext.connected,if_pos (by simpa using hgen),append_nil,hcoins]
      exact ⟨hwf',hvledger,hvP⟩
    · rw [BlockContext.connected,if_neg (by simpa using hgen)] at hfree ⊢
      obtain ⟨hwf',-,-,cb,ts,fees,hc⟩ :=
        connectBlock_ok hvwf hgen (.inr (hvledger.fresh hfree)) haccept
      rw [hc.vtx] at hfree ⊢
      exact ⟨hwf',hvledger.connect hfree hc,
        hstep ctx block cb ts (past++txs) fees _ _ undo hflags hvledger hfree hc hvP⟩

/-- The fungible amount of a category over all coins that a view answers with. -/
noncomputable def CCoinsViewCache.tokenSupply (v : CCoinsViewCache) (c : TokenId) : Int :=
  ∑ᶠ x, (v.getCoin x).1.elim 0 (tokenWeight (amountIn c))

def CCoinsViewCache.tokenCoins (v : CCoinsViewCache) (Q : OutputData → Prop) : Set COutPoint :=
  {x | ∃ c d, (v.getCoin x).1 = some c ∧ c.out.tokenData = some d ∧ Q d}

variable {v : CCoinsViewCache} (hwf : v.WF)
include hwf

theorem CCoinsViewCache.tokenSupply_eq (c : TokenId) :
    v.tokenSupply c = weight (tokenWeight (amountIn c)) v.coins := by
  rw [weight,← funext (CCoinsViewCache.getCoin_eq hwf)]
  rfl

theorem CCoinsViewCache.tokenCoins_eq_empty {Q : OutputData → Prop} : v.tokenCoins Q = ∅ ↔ v.coins.Lacks Q := by
  rw [Set.eq_empty_iff_forall_notMem,← funext (CCoinsViewCache.getCoin_eq hwf)]
  constructor
  · exact fun h x c d hc hd hQ => h x ⟨c,d,hc,hd,hQ⟩
  · rintro h x ⟨c,d,hc,hd,hQ⟩
    exact h x c d hc hd hQ

theorem CCoinsViewCache.ncard_nfts (hfin : (held v.coins).Finite) (c : TokenId) :
    ((v.tokenCoins fun d => d.id = c ∧ d.hasNFT = true).ncard : Int) = weight (tokenWeight (nftIn c)) v.coins := by
  have hind : ∀ x, (v.coins x).elim 0 (tokenWeight (nftIn c)) =
      ∑ᶠ _ : x ∈ v.tokenCoins fun d => d.id = c ∧ d.hasNFT = true, (1 : Int) := by
    intro x
    unfold CCoinsViewCache.tokenCoins
    rw [Set.mem_ofPred_eq,CCoinsViewCache.getCoin_eq hwf]
    cases hx : v.coins x with
    | none => simp
    | some coin =>
      cases hd : coin.out.tokenData with
      | none => simp [tokenWeight,hd]
      | some d => by_cases hQ : d.id = c ∧ d.hasNFT = true <;> simp [tokenWeight,hd,nftIn,hQ]
  rw [weight,finsum_congr hind]
  have hsub : (v.tokenCoins fun d => d.id = c ∧ d.hasNFT = true) ⊆ held v.coins := by
    rintro x ⟨coin,d,hx,-,-⟩
    rw [CCoinsViewCache.getCoin_eq hwf] at hx
    simp [held,hx]
  rw [← finsum_one,Nat.cast_finsum_mem (hfin.subset hsub)]
  simp

omit hwf

private theorem ledger_empty (hashBlock : BlockHash) (depth : Nat) : (emptyStack (fun _ => none) hashBlock depth).WF ∧
    (emptyStack (fun _ => none) hashBlock depth).coins = (fun _ => none) ∧
    Ledger [] (emptyStack (fun _ => none) hashBlock depth).coins := by
  obtain ⟨hwf,hcoins⟩ := emptyLayers_spec (fun _ => none) hashBlock depth
  have hempty : (emptyStack (fun _ => none) hashBlock depth).coins = fun _ => none :=
    (CCoinsViewCache.ofBase_coins _).trans hcoins
  refine ⟨CCoinsViewCache.ofBase_WF hwf,hempty,?_⟩
  rw [hempty]
  refine ⟨⟨by rw [held_empty]; exact Set.finite_empty,?_⟩,?_,?_⟩
  · exact fun x c hc => nomatch hc
  · exact fun x hx => absurd rfl hx
  · exact fun tx htx => nomatch htx

theorem TokenChain.category {hashBlock : BlockHash} {depth : Nat} {txs : List CTransaction}
    (h : TokenChain (emptyStack (fun _ => none) hashBlock depth) txs v) (hfree : CollisionFree txs) (c : TokenId) :
    v.WF ∧ Ledger txs v.coins ∧ ((∀ tx ∈ txs, ⟨c,0⟩ ∉ tx.spent) → v.coins.Lacks fun d => d.id = c) ∧
      weight (tokenWeight (amountIn c)) v.coins ≤ int64Max := by
  obtain ⟨hwf,hempty,hledger⟩ := ledger_empty hashBlock depth
  apply h.invariant hwf hledger hfree (P := fun past m =>
    ((∀ tx ∈ past, ⟨c,0⟩ ∉ tx.spent) → m.Lacks fun d => d.id = c) ∧ weight (tokenWeight (amountIn c)) m ≤ int64Max)
  · rw [hempty]
    constructor
    · intro _ x coin d hx
      cases hx
    · rw [weight_empty]
      decide
  · intro ctx block cb txs past fees m m' undo hflags hledger hfree hc hP
    obtain ⟨habsent,hamount⟩ := hP
    have hacyclic := hfree.acyclic.mono fun _ ha => mem_append_right past ha
    constructor
    · intro hno
      apply hc.lacks_category hflags _ hacyclic
      · exact habsent fun tx htx => hno tx (mem_append_left _ htx)
      · exact fun tx htx => hno tx (mem_append_right _ (mem_cons_of_mem cb htx))
    · by_cases hgen : ∀ tx ∈ txs, ⟨c,0⟩ ∉ tx.spent
      · exact (hc.amount_le_of_not_genesis hflags hgen hledger.sane.finite).trans hamount
      · -- the genesis of the category is in this block, so no coin carries it yet
        push Not at hgen
        obtain ⟨tx,htx,hx⟩ := hgen
        have hnone : ∀ t ∈ past, ⟨c,0⟩ ∉ t.spent := fun t ht hxt =>
          (hledger.unspendable hfree hc ht hxt).2 tx (mem_cons_of_mem cb htx) hx
        have hzero : weight (tokenWeight (amountIn c)) m = 0 := by
          apply CoinMap.Lacks.weight_eq
          intro x coin d hmx hd hne
          apply habsent hnone x coin d hmx hd
          by_contra hid
          exact hne (if_neg hid)
        have hnd : (blockSpent txs).Nodup :=
          (nodup_append.mp (show (cb.spent++blockSpent txs).Nodup from hc.spent)).2.1
        have hle := hc.amount_le hflags c hledger.sane.finite
        have hone := spenders_le ⟨c,0⟩ (show 0 ≤ int64Max by decide) txs hnd
        omega

theorem TokenChain.shrinks {v' : CCoinsViewCache} {past txs : List CTransaction} {c : TokenId}
    (h : TokenChain v txs v') (hwf : v.WF) (hledger : Ledger past v.coins) (hfree : CollisionFree (past++txs))
    (hgen : ∃ tx ∈ past, ⟨c,0⟩ ∈ tx.spent) :
    v'.WF ∧ Ledger (past++txs) v'.coins ∧ (∃ tx ∈ past++txs, ⟨c,0⟩ ∈ tx.spent) ∧
      weight (tokenWeight (amountIn c)) v'.coins ≤ weight (tokenWeight (amountIn c)) v.coins ∧
      (v.coins.Lacks (OutputData.Mints c) → v'.coins.Lacks (OutputData.Mints c) ∧
        weight (tokenWeight (nftIn c)) v'.coins ≤ weight (tokenWeight (nftIn c)) v.coins) := by
  apply h.invariant hwf hledger hfree (P := fun past m => (∃ tx ∈ past, ⟨c,0⟩ ∈ tx.spent) ∧
    weight (tokenWeight (amountIn c)) m ≤ weight (tokenWeight (amountIn c)) v.coins ∧
    (v.coins.Lacks (OutputData.Mints c) → m.Lacks (OutputData.Mints c) ∧
      weight (tokenWeight (nftIn c)) m ≤ weight (tokenWeight (nftIn c)) v.coins))
  · exact ⟨hgen,le_refl _,fun hlacks => ⟨hlacks,le_refl _⟩⟩
  · intro ctx block cb txs past fees m m' undo hflags hledger hfree hc hP
    obtain ⟨⟨tx,htx,hx⟩,hamount,hnfts⟩ := hP
    have hacyclic := hfree.acyclic.mono fun _ ha => mem_append_right past ha
    have hno : ∀ t ∈ txs, ⟨c,0⟩ ∉ t.spent := fun t ht =>
      (hledger.unspendable hfree hc htx hx).2 t (mem_cons_of_mem cb ht)
    refine ⟨⟨tx,mem_append_left _ htx,hx⟩,?_,fun hlacks => ?_⟩
    · exact (hc.amount_le_of_not_genesis hflags hno hledger.sane.finite).trans hamount
    · obtain ⟨hm,hle⟩ := hnfts hlacks
      exact ⟨(hc.lacks_minting hflags hno hacyclic hm).2,
        (hc.nfts_le hflags hno hacyclic hledger.sane.finite hm).trans hle⟩

/-- No block raises the amount of a category after its genesis, nor, once no coin can mint, the number of its NFTs. -/
theorem tokenSupply_bounded {hashBlock : BlockHash} {depth : Nat} {txs : List CTransaction}
    (h : TokenChain (emptyStack (fun _ => none) hashBlock depth) txs v) (hfree : CollisionFree txs) (c : TokenId) :
    {x | (v.getCoin x).1.isSome = true}.Finite ∧
    ((∀ tx ∈ txs, ⟨c,0⟩ ∉ tx.spent) → v.tokenCoins (fun d => d.id = c) = ∅) ∧
    ((∃ tx ∈ txs, ⟨c,0⟩ ∈ tx.spent) → v.tokenSupply c ≤ int64Max ∧
      ∀ (txs' : List CTransaction) (v' : CCoinsViewCache), TokenChain v txs' v' → CollisionFree (txs++txs') →
        v'.tokenSupply c ≤ v.tokenSupply c ∧
        (v.tokenCoins (fun d => d.id = c ∧ d.isMintingNFT = true) = ∅ →
          v'.tokenCoins (fun d => d.id = c ∧ d.isMintingNFT = true) = ∅ ∧
          (v'.tokenCoins fun d => d.id = c ∧ d.hasNFT = true).ncard ≤
            (v.tokenCoins fun d => d.id = c ∧ d.hasNFT = true).ncard)) := by
  obtain ⟨hwf,hledger,habsent,hamount⟩ := h.category hfree c
  have hfin := hledger.sane.finite
  refine ⟨?_,fun hno => (CCoinsViewCache.tokenCoins_eq_empty hwf).mpr (habsent hno),fun hgen => ⟨?_,?_⟩⟩
  · rw [← funext (CCoinsViewCache.getCoin_eq hwf)] at hfin
    exact hfin
  · rw [CCoinsViewCache.tokenSupply_eq hwf]
    exact hamount
  · intro txs' v' hlater hfree'
    obtain ⟨hwf',hledger',-,hle,hnfts⟩ := hlater.shrinks hwf hledger hfree' hgen
    refine ⟨?_,fun hnone => ?_⟩
    · rw [CCoinsViewCache.tokenSupply_eq hwf,CCoinsViewCache.tokenSupply_eq hwf']
      exact hle
    · obtain ⟨hlacks,hcount⟩ := hnfts ((CCoinsViewCache.tokenCoins_eq_empty hwf).mp hnone)
      refine ⟨(CCoinsViewCache.tokenCoins_eq_empty hwf').mpr hlacks,?_⟩
      rw [← CCoinsViewCache.ncard_nfts hwf hfin,← CCoinsViewCache.ncard_nfts hwf' hledger'.sane.finite] at hcount
      exact_mod_cast hcount

private def rewardAt (id : TxId) : CTransaction :=
  ⟨[⟨⟨0,outPointNullIndex⟩,[1,2],0⟩],[⟨50*coinUnit,[0x51],none⟩],2,0,id⟩

private def genesisTx : CTransaction := ⟨[⟨⟨20,0⟩,[],0⟩],[⟨1000,[0x51],some ⟨20,0x32,700,[]⟩⟩],2,0,22⟩

private def tokenContext (nHeight : Nat) : BlockContext :=
  { BlockContext.lenient nHeight with fEnforceBIP30 := false, flags := scriptEnableTokens }

theorem tokenSupply_bounded_sample :
    ∃ v, TokenChain (emptyStack (fun _ => none) 1 1) [rewardAt 20,rewardAt 21,genesisTx] v ∧
      (v.getCoin ⟨22,0⟩).1.isSome = true ∧ v.tokenSupply 20 ≤ int64Max := by
  obtain ⟨r,s,hr,hs,hcoin⟩ : ∃ r s,
      connectBlock (tokenContext 1) ⟨⟨1,1,5,0,0,0,2⟩,[rewardAt 20]⟩ (emptyStack (fun _ => none) 1 1) = .ok r ∧
      connectBlock (tokenContext 200) ⟨⟨1,2,5,0,0,0,3⟩,[rewardAt 21,genesisTx]⟩ r.1 = .ok s ∧
      (s.1.getCoin ⟨22,0⟩).1.isSome = true := ⟨_,_,rfl,rfl,rfl⟩
  have hrun : TokenChain (emptyStack (fun _ => none) 1 1) [rewardAt 20,rewardAt 21,genesisTx] s.1 :=
    .connect (.connect .start (by decide) hr) (by decide) hs
  have hfree : CollisionFree [rewardAt 20,rewardAt 21,genesisTx] := by
    refine ⟨by decide,acyclic_of_rank _ (fun tx => tx.getId.toNat) ?_⟩
    unfold SpendsFrom
    decide
  exact ⟨s.1,hrun,hcoin,((tokenSupply_bounded hrun hfree 20).2.2 ⟨genesisTx,by simp,by decide⟩).1⟩
end Chain
end BitfiniteCore
