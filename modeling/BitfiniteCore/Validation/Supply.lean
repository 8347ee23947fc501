import BitfiniteCore.Lib.WeightedMap
import BitfiniteCore.Validation.BlockSpec
import Mathlib.Tactic.Linarith

/-! # The money supply over a run of blocks -/

namespace BitfiniteCore
open Function WeightedMap List

section Totals

noncomputable def CoinMap.supply (m : CoinMap) : Int := weight (fun c : Coin => c.out.nValue) m

structure CoinMap.Sane (m : CoinMap) : Prop where
  finite : (held m).Finite
  money : ∀ x c, m x = some c → moneyRange c.out.nValue = true

variable {m : CoinMap}

def coinValue (m : CoinMap) (x : COutPoint) : Int := (m x).elim 0 fun c => c.out.nValue

theorem CoinMap.held_insertAll (hfin : (held m).Finite) (ps : List (COutPoint × Coin)) :
    (held (m.insertAll ps)).Finite := by
  induction ps generalizing m with
  | nil => exact hfin
  | cons p ps ih => exact ih (held_update hfin _ _)

theorem CoinMap.weight_insertAll (w : Coin → Int) (hfin : (held m).Finite) (ps : List (COutPoint × Coin))
    (hnd : (ps.map Prod.fst).Nodup) (hnone : ∀ x ∈ ps.map Prod.fst, m x = none) :
    weight w (m.insertAll ps) = weight w m+(ps.map fun p => w p.2).sum := by
  induction ps generalizing m with
  | nil => simp [CoinMap.insertAll]
  | cons p ps ih =>
    obtain ⟨hp,hps⟩ := nodup_cons.mp hnd
    obtain ⟨hp0,hps0⟩ := forall_mem_cons.mp hnone
    have hrest : ∀ x ∈ ps.map Prod.fst, update m p.1 (some p.2) x = none := by
      intro x hx
      rw [update_of_ne (fun he : x = p.1 => hp (he ▸ hx))]
      exact hps0 x hx
    rw [CoinMap.insertAll,ih (held_update hfin _ _) hps hrest,weight_update _ hfin,hp0,map_cons,sum_cons]
    simp only [Option.elim]
    omega

theorem CoinMap.weight_remove (w : Coin → Int) (hfin : (held m).Finite) (xs : List COutPoint)
    (hnd : xs.Nodup) : weight w (m.remove xs) = weight w m-(xs.map fun x => (m x).elim 0 w).sum := by
  induction xs generalizing m with
  | nil => simp [CoinMap.remove_nil]
  | cons x xs ih =>
    obtain ⟨hx,hxs⟩ := nodup_cons.mp hnd
    have hsame : xs.map (fun y => (update m x none y).elim 0 w) = xs.map fun y => (m y).elim 0 w := by
      apply map_congr_left
      intro y hy
      rw [update_of_ne (fun he : y = x => hx (he ▸ hy))]
    rw [CoinMap.remove_cons,ih (held_update hfin _ _) hxs,hsame,weight_update _ hfin,map_cons,sum_cons]
    simp only [Option.elim_none]
    omega

theorem createdFrom_value (txid : TxId) (cb : Bool) (nHeight i : Nat) (vout : List CTxOut)
    (h : ∀ o ∈ vout, moneyRange o.nValue = true) :
    ((createdFrom txid cb nHeight i vout).map fun p => p.2.out.nValue).sum ≤ outputSum vout := by
  induction vout generalizing i with
  | nil => simp [createdFrom,outputSum]
  | cons o vout ih =>
    obtain ⟨ho,hvout⟩ := forall_mem_cons.mp h
    have hrest := ih (i+1) hvout
    have h0 := ((moneyRange_iff _).mp ho).1
    have hcons : outputSum (o::vout) = o.nValue+outputSum vout := by simp [outputSum]
    rw [createdFrom,hcons]
    split
    · omega
    · have hval : (Coin.ofOutput o nHeight cb).out.nValue = o.nValue := rfl
      rw [map_cons,sum_cons,hval]
      omega

theorem blockCreated_value (nHeight : Nat) (txs : List CTransaction)
    (h : ∀ tx ∈ txs, ∀ o ∈ tx.vout, moneyRange o.nValue = true) :
    ((blockCreated nHeight txs).map fun p => p.2.out.nValue).sum ≤ (txs.map fun tx => outputSum tx.vout).sum := by
  induction txs with
  | nil => simp [blockCreated]
  | cons tx txs ih =>
    obtain ⟨htx,htxs⟩ := forall_mem_cons.mp h
    have h1 := createdFrom_value tx.getId tx.isCoinBase nHeight 0 tx.vout htx
    have h2 := ih htxs
    rw [blockCreated_cons,map_append,sum_append,map_cons,sum_cons]
    unfold CTransaction.created
    omega

theorem inputSum_eq {tx : CTransaction} (hcb : tx.isCoinBase = false) (hhave : ∀ x ∈ tx.spent, (m x).isSome = true) :
    inputSum m.access tx.vin = (tx.spent.map (coinValue m)).sum := by
  have hspent : tx.spent = tx.vin.map CTxIn.prevout := by
    rw [CTransaction.spent,if_neg (by simp [hcb])]
  rw [hspent] at hhave ⊢
  rw [inputSum,map_map]
  congr 1
  apply map_congr_left
  intro i hi
  obtain ⟨c,hc⟩ := Option.isSome_iff_exists.mp (hhave _ (mem_map_of_mem hi))
  simp [CoinMap.access,coinValue,hc]

theorem fees_eq {check : TxCheck} {nHeight : Nat} {txs : List CTransaction} {fees : List Int}
    (h : List.Forall₂ (TxAccepts check nHeight m) txs fees) (hcb : ∀ tx ∈ txs, tx.isCoinBase = false) :
    fees.sum = ((blockSpent txs).map (coinValue m)).sum-(txs.map fun tx => outputSum tx.vout).sum := by
  induction h with
  | nil => simp [blockSpent]
  | @cons tx fee txs fees hacc _ ih =>
    obtain ⟨htx,htxs⟩ := forall_mem_cons.mp hcb
    have hfee : fee = inputSum m.access tx.vin-outputSum tx.vout := by
      have hok := hacc.1
      rw [txFee,if_neg (by simp [htx])] at hok
      exact (checkTxInputs_ok hok).2.1
    rw [inputSum_eq htx hacc.have] at hfee
    have hflat : blockSpent (tx::txs) = tx.spent++blockSpent txs := rfl
    rw [hflat,map_append,sum_append,map_cons,sum_cons,sum_cons,hfee,ih htxs]
    omega
end Totals

section Block

variable {ctx : BlockContext} {block : CBlock} {cb : CTransaction} {txs : List CTransaction}
  {fees : List Int} {m m' : CoinMap} {undo : CBlockUndo}

theorem Connects.supply_le (h : Connects ctx block cb txs fees m m' undo) (hm : m.Sane) :
    m'.supply ≤ m.supply+getBlockSubsidy ctx.nHeight ctx.nSubsidyHalvingInterval := by
  have hmoney : ∀ tx ∈ cb::txs, ∀ o ∈ tx.vout, moneyRange o.nValue = true :=
    fun tx htx => (h.common tx htx).money
  have hcreated := blockCreated_value ctx.nHeight (cb::txs) hmoney
  have hfin := CoinMap.held_insertAll hm.finite (blockCreated ctx.nHeight (cb::txs))
  have hins := CoinMap.weight_insertAll (fun c => c.out.nValue) hm.finite _ h.keys h.created_none
  have hcb : cb.spent = [] := by rw [CTransaction.spent,if_pos h.coinbase.coinBase]
  have hspent : blockSpent (cb::txs) = blockSpent txs := by
    change cb.spent++blockSpent txs = _
    rw [hcb,nil_append]
  have hrem := CoinMap.weight_remove (fun c => c.out.nValue) hfin _ h.spent
  rw [hspent] at hrem
  have hreward := h.reward
  obtain ⟨fee,fs,hfee,hfs,rfl⟩ := forall₂_cons_left_iff.mp h.accepts
  have hfee0 : fee = 0 := by
    have hok := hfee.1
    rw [txFee,if_pos h.coinbase.coinBase] at hok
    exact (Except.ok.inj hok).symm
  have hsum := fees_eq hfs h.notCoinBase
  rw [h.coins,hspent]
  unfold CoinMap.withBlock at hsum ⊢
  unfold CoinMap.supply
  unfold coinValue at hsum
  rw [map_cons,sum_cons] at hcreated
  rw [sum_cons] at hreward
  omega

theorem withBlock_money {nHeight : Nat} (hblock : CheckedBlock block cb txs) (hm : m.Sane) {x : COutPoint}
    {c : Coin} (hx : m.withBlock nHeight (cb::txs) x = some c) : moneyRange c.out.nValue = true := by
  rcases CoinMap.insertAll_cases hx with hmem | ⟨-,hmx⟩
  · obtain ⟨tx,htx,hc⟩ := mem_flatMap.mp hmem
    obtain ⟨n,o,hn,-,rfl,-⟩ := createdFrom_mem hc
    exact (hblock.common tx htx).money o (mem_of_getElem? hn)
  · exact hm.money x c hmx

theorem Connects.sane (h : Connects ctx block cb txs fees m m' undo) (hm : m.Sane) : m'.Sane := by
  rw [h.coins]
  refine ⟨?_,fun x c hx => ?_⟩
  · refine (CoinMap.held_insertAll hm.finite (blockCreated ctx.nHeight (cb::txs))).subset fun x hx => ?_
    by_cases hmem : x ∈ blockSpent (cb::txs)
    · simp [held,CoinMap.remove,hmem] at hx
    · simpa [held,CoinMap.remove,hmem,CoinMap.withBlock] using hx
  · by_cases hmem : x ∈ blockSpent (cb::txs)
    · simp [CoinMap.remove,hmem] at hx
    · exact withBlock_money h.toCheckedBlock hm (by simpa [CoinMap.remove,hmem] using hx)
end Block

section Overflow

theorem checkTokenData_ne_overflow (o : Option OutputData) : checkTokenData o ≠ .error .overflow := by
  unfold checkTokenData
  repeat' split
  all_goals simp

theorem safeAmount_ne_overflow (v : Int) : safeAmount v ≠ .error .overflow := by
  unfold safeAmount
  split <;> simp

theorem addInputToken_ne_overflow (st : TokenTallies) (d : OutputData) : st.addInputToken d ≠ .error .overflow := by
  refine bind_ne_overflow (checkTokenData_ne_overflow _) fun _ _ =>
    bind_ne_overflow (safeAmount_ne_overflow _) fun _ _ => ?_
  unfold TokenTallies.addNFT
  repeat' split
  all_goals simp

theorem spendToken_ne_overflow (st : TokenTallies) (d : OutputData) : st.spendToken d ≠ .error .overflow := by
  refine bind_ne_overflow (checkTokenData_ne_overflow _) fun _ _ => ?_
  split
  · simp
  · simp
  · refine bind_ne_overflow (safeAmount_ne_overflow _) fun _ _ => ?_
    split <;> simp
  · refine bind_ne_overflow (safeAmount_ne_overflow _) fun _ _ => ?_
    split
    · simp
    split
    · unfold TokenTallies.spendNFT
      dsimp only
      repeat' split
      all_goals simp
    · simp

theorem scanInputs_ne_overflow (f : COutPoint → Coin) (first : Int) (vin : List CTxIn) (st : TokenTallies) :
    scanInputs f first st vin ≠ .error .overflow := by
  induction vin generalizing st with
  | nil => simp [scanInputs]
  | cons i vin ih =>
    rw [scanInputs]
    split
    · simp
    split
    · simp
    split
    · simp
    refine bind_ne_overflow ?_ fun st' _ => ?_
    · unfold TokenTallies.addGenesisId
      repeat' split
      all_goals simp
    · split
      · exact ih st'
      · exact bind_ne_overflow (addInputToken_ne_overflow _ _) fun st' _ => ih st'

theorem scanOutputs_ne_overflow (vout : List CTxOut) (st : TokenTallies) :
    scanOutputs st vout ≠ .error .overflow := by
  induction vout generalizing st with
  | nil => simp [scanOutputs]
  | cons o vout ih =>
    rw [scanOutputs]
    split
    · exact ih st
    · exact bind_ne_overflow (spendToken_ne_overflow _ _) fun st' _ => ih st'

theorem checkPreActivationSanity_ne_overflow (f : COutPoint → Coin) (vin : List CTxIn) :
    checkPreActivationSanity f vin ≠ .error .overflow := by
  induction vin with
  | nil => simp [checkPreActivationSanity]
  | cons i vin ih =>
    rw [checkPreActivationSanity]
    split
    · simp
    · exact ih

theorem checkTxContext_ne_overflow (ctx : BlockContext) (tx : CTransaction) (f : COutPoint → Coin) :
    checkTxContext ctx tx f ≠ .error .overflow := by
  refine bind_ne_overflow ?_ fun _ _ => ?_
  · unfold checkTxTokens
    split
    · split
      · simp
      · exact checkPreActivationSanity_ne_overflow f tx.vin
    split
    · simp
    split
    · split <;> simp
    · exact bind_ne_overflow (scanInputs_ne_overflow _ _ _ _) fun st _ => scanOutputs_ne_overflow _ st
  · repeat' split
    all_goals simp

variable {m : CoinMap}

theorem CoinMap.addCoinsFrom_ne_overflow (txid : TxId) (cb : Bool) (nHeight : Nat) (check : Bool)
    (i : Nat) (vout : List CTxOut) :
    CoinMap.addCoinsFrom txid cb nHeight check i vout m ≠ .error .overflow := by
  induction vout generalizing i m with
  | nil => simp [CoinMap.addCoinsFrom]
  | cons o vout ih =>
    refine bind_ne_overflow ?_ fun _ _ => ih (i+1)
    unfold CoinMap.addCoin
    repeat' split
    all_goals simp

theorem CoinMap.addBlockCoins_ne_overflow (nHeight : Nat) (txs : List CTransaction) :
    CoinMap.addBlockCoins nHeight txs m ≠ .error .overflow := by
  induction txs generalizing m with
  | nil => simp [CoinMap.addBlockCoins]
  | cons tx txs ih => exact bind_ne_overflow (CoinMap.addCoinsFrom_ne_overflow _ _ _ _ _ _) fun _ _ => ih

theorem addFee_ne_overflow {n fee : Int} (hn : moneyRange n = true) (hf : moneyRange fee = true) :
    addFee n fee ≠ .error .overflow := by
  refine bind_ne_overflow (addAmount_ne_overflow hn hf) fun _ _ => ?_
  split <;> simp

theorem addFee_money {n fee n' : Int} (h : addFee n fee = .ok n') : moneyRange n' = true := by
  obtain ⟨s,-,h⟩ := except_bind_ok.mp h
  split at h
  · cases h
  · rename_i hs
    cases h
    simpa using hs

theorem txFee_ne_overflow {tx : CTransaction} {nHeight : Nat} (htx : CheckedCommon tx)
    (hm : ∀ x c, m x = some c → moneyRange c.out.nValue = true) :
    txFee tx m.access nHeight ≠ .error .overflow := by
  unfold txFee
  split
  · simp
  · refine checkTxInputs_ne_overflow htx fun i _ hspent => ?_
    cases hc : m i.prevout with
    | some c => simpa [CoinMap.access,hc] using hm _ c hc
    | none =>
      rw [CoinMap.access,hc] at hspent
      cases hspent

theorem CoinMap.connectTxs_ne_overflow {check : TxCheck} {nHeight : Nat}
    (hcheck : ∀ tx f, check.run tx f ≠ .error .overflow) (txs : List CTransaction)
    (htxs : ∀ tx ∈ txs, CheckedCommon tx) (hm : ∀ x c, m x = some c → moneyRange c.out.nValue = true)
    {n : Int} (hn : moneyRange n = true) :
    CoinMap.connectTxs check nHeight txs m n ≠ .error .overflow := by
  induction txs generalizing m n with
  | nil => simp [CoinMap.connectTxs]
  | cons tx txs ih =>
    obtain ⟨htx,htxs⟩ := forall_mem_cons.mp htxs
    refine bind_ne_overflow (txFee_ne_overflow htx hm) fun fee hfee =>
      bind_ne_overflow (addFee_ne_overflow hn (txFee_money hfee)) fun n' hn' =>
        bind_ne_overflow (hcheck tx _) fun _ _ => ?_
    split
    · exact ih htxs hm (addFee_money hn')
    · have hrest : ∀ x c, m.spend tx.vin x = some c → moneyRange c.out.nValue = true := by
        intro x c hx
        rw [spend_apply] at hx
        split at hx
        · cases hx
        · exact hm x c hx
      have hih := ih htxs hrest (addFee_money hn')
      cases hr : CoinMap.connectTxs check nHeight txs (m.spend tx.vin) n' with
      | error e => simpa [Except.map,hr] using hih
      | ok s => simp [Except.map]

theorem checkBlockSize_ne_overflow (block : CBlock) (nMaxBlockSize : Nat) :
    checkBlockSize block nMaxBlockSize ≠ .error .overflow := by
  unfold checkBlockSize
  repeat' split
  all_goals simp

theorem checkRegularTransactions_ne_overflow (txs : List CTransaction) :
    checkRegularTransactions txs ≠ .error .overflow := by
  induction txs with
  | nil => simp [checkRegularTransactions]
  | cons tx txs ih => exact bind_ne_overflow (checkRegularTransaction_ne_overflow tx) fun _ _ => ih

theorem checkBlock_ne_overflow (ctx : BlockContext) (block : CBlock) : checkBlock ctx block ≠ .error .overflow := by
  unfold checkBlock
  split
  · simp
  dsimp only
  split
  · simp
  split
  · simp
  split
  · simp
  · exact bind_ne_overflow (checkBlockSize_ne_overflow _ _) fun _ _ =>
      bind_ne_overflow (checkCoinbase_ne_overflow _) fun _ _ => checkRegularTransactions_ne_overflow _

theorem abortOnCorruption_ne_overflow {r : Except Stop Unit} (h : r ≠ .error .overflow) :
    abortOnCorruption r ≠ .error .overflow := by
  cases r with
  | ok u => simp [abortOnCorruption]
  | error e =>
    cases e with
    | invalid r =>
      unfold abortOnCorruption
      dsimp only
      split <;> simp
    | overflow => exact absurd rfl h
    | _ => simp [abortOnCorruption]

theorem checkBIP30_ne_overflow (xs : List COutPoint) (v : CCoinsViewCache) : checkBIP30 xs v ≠ .error .overflow := by
  induction xs generalizing v with
  | nil => simp [checkBIP30]
  | cons x xs ih =>
    rw [checkBIP30]
    split
    · simp
    · exact ih _

theorem getBlockSubsidy_money (nHeight nSubsidyHalvingInterval : Nat) :
    moneyRange (getBlockSubsidy nHeight nSubsidyHalvingInterval) = true := by
  rw [moneyRange_iff]
  unfold getBlockSubsidy
  dsimp only
  split
  · decide
  · constructor
    · exact Int.ediv_nonneg (by decide) (by positivity)
    · exact (Int.ediv_le_self _ (by decide)).trans (by decide)

section View

variable {frame : ViewFrame} {v : CCoinsViewCache} {block : CBlock} {cb : CTransaction} {txs : List CTransaction}
  {ctx : BlockContext}

theorem outputsThenInputs_ne_overflow (hrel : ViewRel frame (fun x => ∃ tx ∈ cb::txs, x ∈ tx.outpoints) v m)
    (hblock : CheckedBlock block cb txs) (hm : m.Sane) :
    connectOutputsThenInputs ctx.txCheck ctx.nHeight (cb::txs) v ≠ .error .overflow := by
  have hadd := addBlockCoins_simulates ctx.nHeight (cb::txs) hrel fun tx htx x hx => ⟨tx,htx,hx⟩
  refine bind_ne_overflow ?_ fun w hw => ?_
  · cases hv : addBlockCoins ctx.nHeight (cb::txs) v with
    | ok w => simp [catchDuplicate]
    | error e =>
      have hne := (CoinMap.addBlockCoins_ne_overflow ctx.nHeight (cb::txs)) ∘ (hadd.error_iff _).mp
      rw [hv] at hne
      cases e with
      | overflow => exact absurd rfl hne
      | _ => simp [catchDuplicate]
  · obtain ⟨m1,hm1,hrel1⟩ := hadd.ok_left (catchDuplicate_ok.mp hw)
    obtain ⟨-,-,-,rfl⟩ := (CoinMap.addBlockCoins_coinbase_iff ctx.nHeight hblock.coinbase.coinBase
      hblock.notCoinBase _ _).mp hm1
    have hsim := connectTxs_simulates ctx.txCheck ctx.nHeight (cb::txs) 0 hrel1 hblock.prevouts_nodup
    refine fun herr => CoinMap.connectTxs_ne_overflow (checkTxContext_ne_overflow ctx) (cb::txs)
      hblock.common ?_ moneyRange_zero ((hsim.error_iff _).mp herr)
    exact fun x c hx => withBlock_money hblock hm hx

theorem outputsThenInputs_fees_money {r : CCoinsViewCache × Int × List CTxUndo}
    (hrel : ViewRel frame (fun x => ∃ tx ∈ cb::txs, x ∈ tx.outpoints) v m) (hblock : CheckedBlock block cb txs)
    (hr : connectOutputsThenInputs ctx.txCheck ctx.nHeight (cb::txs) v = .ok r) :
    moneyRange r.2.1 = true := by
  obtain ⟨⟨m',n,us⟩,hs,-,hrs⟩ := (connectOutputsThenInputs_ok ctx.txCheck ctx.nHeight hrel
    (fun tx htx x hx => ⟨tx,htx,hx⟩) hblock.prevouts_nodup).1 r hr
  obtain ⟨m1,-,hs⟩ := except_bind_ok.mp hs
  obtain ⟨fees,hacc,-,hmax,-,rfl,-⟩ := (CoinMap.connectTxs_iff _ hblock.spent_nodup moneyRange_zero).mp hs
  have h0 := fees_nonneg hacc
  rw [zero_add] at hmax hrs
  rw [hrs,moneyRange_iff]
  exact ⟨h0,hmax⟩
end View

theorem connectBlock_ne_overflow {ctx : BlockContext} (block : CBlock) {v : CCoinsViewCache} (hwf : v.WF)
    (hbip : ctx.fEnforceBIP30 = true) (hm : v.coins.Sane) :
    connectBlock ctx block v ≠ .error .overflow := by
  obtain ⟨-,hbwf,hbcoins,-⟩ := CCoinsViewCache.getBestBlock_spec hwf
  refine bind_ne_overflow (abortOnCorruption_ne_overflow (checkBlock_ne_overflow _ _)) fun _ hcheck =>
    bind_ne_overflow (checkBlockSize_ne_overflow _ _) fun _ _ => ?_
  obtain ⟨cb,txs,hblock⟩ := checkBlock_ok (abortOnCorruption_ok hcheck)
  dsimp only
  split
  · simp
  split
  · simp
  rw [hblock.vtx]
  refine bind_ne_overflow (checkBIP30_ne_overflow _ _) fun w hw => ?_
  obtain ⟨-,hrel⟩ := checkBIP30_viewRel hbwf hw
  rw [hbcoins] at hrel
  refine bind_ne_overflow (outputsThenInputs_ne_overflow hrel hblock hm) fun r hr => ?_
  have hfees := outputsThenInputs_fees_money hrel hblock hr
  refine bind_ne_overflow (addAmount_ne_overflow hfees (getBlockSubsidy_money _ _)) fun _ _ =>
    bind_ne_overflow ?_ fun _ _ => ?_
  · simp [hblock.coinbase.getValueOut]
  · repeat' split
    all_goals simp
end Overflow

section Subsidy

def halvingInterval : Nat := 210000

private theorem subsidy_eq (nHeight : Nat) :
    getBlockSubsidy nHeight halvingInterval = 50*coinUnit/2^(nHeight/halvingInterval) := by
  unfold getBlockSubsidy
  dsimp only
  split
  · rename_i h
    symm
    apply Int.ediv_eq_zero_of_lt (by decide)
    calc 50*coinUnit < 2^64 := by decide
      _ ≤ 2^(nHeight/halvingInterval) := pow_le_pow_right₀ (by decide) h
  · rfl

private theorem subsidy_halves (q : Nat) : 2*(50*coinUnit/2^(q+1)) ≤ 50*coinUnit/2^q := by
  rw [pow_succ,← Int.ediv_ediv_of_nonneg (by positivity)]
  omega

private theorem subsidy_sum (n : Nat) : ((List.range n).map fun h => getBlockSubsidy h halvingInterval).sum+
      (2*halvingInterval-(n%halvingInterval : Nat))*(50*coinUnit/2^(n/halvingInterval)) ≤
      2*halvingInterval*(50*coinUnit) := by
  induction n with
  | zero => simp
  | succ n ih =>
    rw [range_succ,map_append,sum_append,map_singleton,sum_singleton,subsidy_eq]
    have hhalf := subsidy_halves (n/halvingInterval)
    unfold halvingInterval at ih hhalf ⊢
    by_cases hr : n%210000+1 < 210000
    · rw [show (n+1)/210000 = n/210000 by omega,show (n+1)%210000 = n%210000+1 by omega]
      push_cast at ih ⊢
      linarith
    · have hlast : n%210000 = 209999 := by omega
      rw [hlast] at ih
      rw [show (n+1)/210000 = n/210000+1 by omega,show (n+1)%210000 = 0 by omega]
      push_cast at ih ⊢
      linarith

theorem subsidies_le_maxMoney (n : Nat) :
    ((List.range n).map fun h => getBlockSubsidy (h+1) halvingInterval).sum ≤ maxMoney := by
  have hsum := subsidy_sum (n+1)
  rw [range_succ_eq_map,map_cons,sum_cons,map_map] at hsum
  have h0 := ((moneyRange_iff _).mp (getBlockSubsidy_money 0 halvingInterval)).1
  have hlt : (n+1)%halvingInterval < halvingInterval := Nat.mod_lt _ (by decide)
  have hleft : 0 ≤ (2*(halvingInterval : Int)-((n+1)%halvingInterval : Nat))*
      (50*coinUnit/2^((n+1)/halvingInterval)) :=
    mul_nonneg (by omega) (Int.ediv_nonneg (by decide) (by positivity))
  have hmax : 2*(halvingInterval : Int)*(50*coinUnit) = maxMoney := by decide
  have hcomp : ((fun h => getBlockSubsidy h halvingInterval) ∘ Nat.succ) =
      fun h => getBlockSubsidy (h+1) halvingInterval := rfl
  rw [hcomp] at hsum
  omega
end Subsidy

section Run

def CoinsOp.isUpkeep : CoinsOp → Bool
  | .addCoin .. => false
  | .spendCoin _ => false
  | _ => true

/-- A view after `n` blocks.  Between blocks the caches may be flushed, trimmed, stacked and dropped. -/
inductive ChainRun : Nat → CCoinsViewCache → Prop
  | genesis (hashBlock : BlockHash) (depth : Nat) : ChainRun 0 (emptyStack (fun _ => none) hashBlock depth)
  | upkeep {n : Nat} {v v' : CCoinsViewCache} {op : CoinsOp} {a : CoinsAnswer} (run : ChainRun n v)
      (hop : op.isUpkeep = true) (hstep : stackStep v op = .ok (v',a)) : ChainRun n v'
  | connect {n : Nat} {v v' : CCoinsViewCache} {ctx : BlockContext} {block : CBlock} {undo : CBlockUndo}
      (run : ChainRun n v) (hheight : ctx.nHeight = n+1) (hbip30 : ctx.fEnforceBIP30 = true)
      (hinterval : ctx.nSubsidyHalvingInterval = halvingInterval)
      (haccept : connectBlock ctx block v = .ok (v',undo)) : ChainRun (n+1) v'

def subsidies (n : Nat) : Int := ((List.range n).map fun h => getBlockSubsidy (h+1) halvingInterval).sum

theorem subsidies_succ (n : Nat) : subsidies (n+1) = subsidies n+getBlockSubsidy (n+1) halvingInterval := by
  rw [subsidies,range_succ,map_append,sum_append,map_singleton,sum_singleton]
  rfl

theorem isUpkeep_mapStep {op : CoinsOp} (hop : op.isUpkeep = true) (m : CoinMap) :
    op.Allowed m ∧ (mapStep m op).1 = m := by
  cases op <;> simp_all [CoinsOp.isUpkeep,CoinsOp.Allowed,mapStep]

theorem connectBlock_genesis {ctx : BlockContext} {block : CBlock} {v v' : CCoinsViewCache}
    {undo : CBlockUndo} (hwf : v.WF) (hgen : block.hash = ctx.hashGenesisBlock)
    (h : connectBlock ctx block v = .ok (v',undo)) : v'.WF ∧ v'.coins = v.coins := by
  obtain ⟨-,hbwf,hbcoins,-⟩ := CCoinsViewCache.getBestBlock_spec hwf
  obtain ⟨⟨⟩,-,h⟩ := except_bind_ok.mp h
  obtain ⟨⟨⟩,-,h⟩ := except_bind_ok.mp h
  dsimp only at h
  split at h
  · cases h
  rw [if_pos (by simpa using hgen)] at h
  obtain ⟨rfl,-⟩ := Prod.mk.inj (Except.ok.inj h)
  exact ⟨hbwf,hbcoins⟩

theorem ChainRun.invariant {n : Nat} {v : CCoinsViewCache} (h : ChainRun n v) :
    v.WF ∧ v.coins.Sane ∧ v.coins.supply ≤ subsidies n := by
  induction h with
  | genesis hashBlock depth =>
    obtain ⟨hwf,hcoins⟩ := emptyLayers_spec (fun _ => none) hashBlock depth
    have hempty : (emptyStack (fun _ => none) hashBlock depth).coins = fun _ => none :=
      (CCoinsViewCache.ofBase_coins _).trans hcoins
    refine ⟨CCoinsViewCache.ofBase_WF hwf,?_,?_⟩
    · rw [hempty]
      exact ⟨by rw [held_empty]; exact Set.finite_empty,(fun x c hc => nomatch hc)⟩
    · rw [hempty,CoinMap.supply,weight_empty]
      decide
  | @upkeep n v v' op a _ hop hstep ih =>
    obtain ⟨hwf,hsane,hsupply⟩ := ih
    obtain ⟨hallowed,hmap⟩ := isUpkeep_mapStep hop v.coins
    obtain ⟨w,hw,hwwf,hwcoins⟩ := stackStep_refines hwf hallowed
    rw [hstep] at hw
    obtain ⟨rfl,-⟩ := Prod.mk.inj (Except.ok.inj hw)
    rw [hmap] at hwcoins
    rw [hwcoins]
    exact ⟨hwwf,hsane,hsupply⟩
  | @connect n v v' ctx block undo _ hheight hbip30 hinterval haccept ih =>
    obtain ⟨hwf,hsane,hsupply⟩ := ih
    have h0 := ((moneyRange_iff _).mp (getBlockSubsidy_money (n+1) halvingInterval)).1
    rw [subsidies_succ]
    by_cases hgen : block.hash = ctx.hashGenesisBlock
    · obtain ⟨hwf',hcoins⟩ := connectBlock_genesis hwf hgen haccept
      rw [hcoins]
      exact ⟨hwf',hsane,by omega⟩
    · obtain ⟨hwf',-,-,cb,txs,fees,hc⟩ := connectBlock_ok hwf hgen (.inl hbip30) haccept
      have hle := hc.supply_le hsane
      rw [hheight,hinterval] at hle
      exact ⟨hwf',hc.sane hsane,by omega⟩

noncomputable def CCoinsViewCache.supply (v : CCoinsViewCache) : Int :=
  ∑ᶠ x, (v.getCoin x).1.elim 0 fun c => c.out.nValue

/-- The unspent coins are worth at most the subsidies so far, and no amount leaves the 64-bit range. -/
theorem supply_bounded {n : Nat} {v : CCoinsViewCache} (h : ChainRun n v) :
    {x | (v.getCoin x).1.isSome = true}.Finite ∧
    v.supply ≤ ((List.range n).map fun i => getBlockSubsidy (i+1) halvingInterval).sum ∧
    ((List.range n).map fun i => getBlockSubsidy (i+1) halvingInterval).sum ≤ 21000000*coinUnit ∧
    ∀ (ctx : BlockContext) (block : CBlock), ctx.fEnforceBIP30 = true →
      connectBlock ctx block v ≠ .error .overflow := by
  obtain ⟨hwf,hsane,hsupply⟩ := h.invariant
  have hcoins : (fun x => (v.getCoin x).1) = v.coins := funext (CCoinsViewCache.getCoin_eq hwf)
  have hsum : v.supply = v.coins.supply := by
    rw [CoinMap.supply,weight,← hcoins]
    rfl
  refine ⟨?_,hsum ▸ hsupply,subsidies_le_maxMoney n,fun ctx block hbip =>
    connectBlock_ne_overflow block hwf hbip hsane⟩
  have hfin := hsane.finite
  rw [← hcoins] at hfin
  exact hfin

private def minedReward (id : Nat) (nValue : Int) (scriptPubKey : List UInt8) : CTransaction :=
  ⟨[⟨⟨0,outPointNullIndex⟩,[1,2],0⟩],[⟨nValue,scriptPubKey,none⟩],2,0,id⟩

/-- The first block pays its miner; block 101, in which that coin is mature, spends it with a fee of 7. -/
private def minedVtx (n : Nat) : List CTransaction :=
  if n = 0 then [minedReward 20 (50*coinUnit) [0x51]]
  else if n = 100 then
    [minedReward 500 (50*coinUnit+7) [0x51],⟨[⟨⟨20,0⟩,[],0⟩],[⟨50*coinUnit-7,[0x51],none⟩],2,0,501⟩]
  else [minedReward (20+n) 0 [0x6a]]

private def minedChain : Nat → Except Stop CCoinsViewCache
  | 0 => .ok (emptyStack (fun _ => none) 1 1)
  | n+1 => (minedChain n).bind fun v =>
    (connectBlock (.lenient (n+1)) ⟨⟨1,n+1,5,0,0,0,n+2⟩,minedVtx n⟩ v).map Prod.fst

private theorem minedChain_run {n : Nat} {v : CCoinsViewCache} (h : minedChain n = .ok v) : ChainRun n v := by
  induction n generalizing v with
  | zero => exact Except.ok.inj h ▸ .genesis 1 1
  | succ n ih =>
    obtain ⟨u,hu,h⟩ := except_bind_ok.mp h
    obtain ⟨r,hr,rfl⟩ := except_map_ok.mp h
    exact .connect (ih hu) rfl rfl rfl hr

theorem supply_bounded_sample : ∃ v, ChainRun 101 v ∧ (v.getCoin ⟨20,0⟩).1.isSome = false ∧
    (v.getCoin ⟨501,0⟩).1.isSome = true ∧
    v.supply ≤ ((List.range 101).map fun i => getBlockSubsidy (i+1) halvingInterval).sum := by
  have heval : ((minedChain 101).toOption.map fun v =>
      ((v.getCoin ⟨20,0⟩).1.isSome,(v.getCoin ⟨501,0⟩).1.isSome)) = some (false,true) := by
    decide +kernel
  obtain ⟨v,hv,hcoins⟩ := Option.map_eq_some_iff.mp heval
  have hrun : ChainRun 101 v := minedChain_run (by
    cases h : minedChain 101 <;> simp_all [Except.toOption])
  exact ⟨v,hrun,(Prod.mk.inj hcoins).1,(Prod.mk.inj hcoins).2,(supply_bounded hrun).2.1⟩
end Run
end BitfiniteCore
