import BitfiniteCore.Lib.GuardedRun
import BitfiniteCore.Mempool.Pool
import Mathlib.Data.List.Sort

/-! # Unwinding blocks while the pool is open -/

namespace BitfiniteCore
open GuardedRun List

section Queue

structure QueueLimits where
  usage : List CTransaction → Nat
  maxUsage : Nat

/-- The elements of a `std::set<TxId>`, in the order in which it is walked. -/
def txidSet (ids : List TxId) : List TxId := ids.dedup.insertionSort fun a b => a ≤ b

theorem mem_txidSet {ids : List TxId} {txid : TxId} : txid ∈ txidSet ids ↔ txid ∈ ids := by
  rw [txidSet,mem_insertionSort,mem_dedup]

def requeueParents : Nat → List TxId → List CTransaction → List CTransaction
  | 0, _, queue => queue
  | fuel+1, parents, queue =>
    match parents with
    | [] => queue
    | _ =>
      let r := (txidSet parents).foldl (fun (r : List CTransaction × List TxId) txid =>
        match r.1.find? fun tx => tx.getId == txid with
        | none => r
        | some ptx => (r.1.filter (fun tx => tx.getId != txid)++[ptx],
            r.2++ptx.vin.map fun txin => txin.prevout.txid)) (queue,[])
      requeueParents fuel r.2 r.1

def addQueued (queue : List CTransaction) (tx : CTransaction) : List CTransaction :=
  if queue.any fun q => q.getId == tx.getId then queue
  else requeueParents (queue.length+1) (tx.vin.map fun txin => txin.prevout.txid) (queue++[tx])

variable (limits : QueueLimits)

def dropOverflow : List CTransaction → List CTransaction → List CTransaction × List CTransaction
  | [], pool => ([],pool)
  | tx::queue, pool =>
    if limits.usage (tx::queue) > limits.maxUsage then dropOverflow queue (removeRecursive [tx.getId] pool)
    else (tx::queue,pool)

def addForBlock (vtx queue pool : List CTransaction) : List CTransaction × List CTransaction :=
  dropOverflow limits (vtx.reverse.foldl addQueued queue) pool

def importMempool (pool queue : List CTransaction) : List CTransaction :=
  (dropOverflow limits ((addForBlock limits pool.reverse [] []).1++queue) []).1
end Queue

section Machine

structure ConnectedBlock where
  block : CBlock
  undo : CBlockUndo
  nHeight : Nat

def CoinMap.disconnect (coins : CoinMap) (b : ConnectedBlock) : CoinMap :=
  (coins.insertAll (restored b.block.vtx.tail b.undo.vtxundo)).remove
    ((blockCreated b.nHeight b.block.vtx).map Prod.fst)

inductive UnwindPhase | unwinding | leaving | returned
deriving DecidableEq, Repr

/-- The chain from its tip, its coins, the pool, and the variables of `UnwindBlock`. -/
structure UnwindState where
  chain : List ConnectedBlock
  coins : CoinMap
  pool : List CTransaction
  queuedTx : List CTransaction
  disconnected : Nat
  ret : Bool
  phase : UnwindPhase

/-- How `DisconnectTip` ends. -/
inductive TipOutcome | disconnected | readFailed | flushFailed
deriving DecidableEq, Repr

/-- The critical sections of `UnwindBlock`, and calls of `AcceptToMemoryPool` by other threads. -/
inductive UnwindEvent
  | accept (tx : CTransaction) (trimmed : List TxId)
  | disconnect (outcome : TipOutcome)
  | shutdown
  | updateMempool (trimmed : List TxId)

structure UnwindParams where
  policy : PoolPolicy
  limits : QueueLimits
  target : BlockHash
  rewindsUpgrade : CBlock → Bool

def maxDisconnectPoolBlocks : Nat := 10

variable (params : UnwindParams)

def contains (chain : List ConnectedBlock) : Bool := chain.any fun b => b.block.hash == params.target

namespace UnwindState

def importPool (s : UnwindState) : UnwindState :=
  { s with queuedTx := importMempool params.limits s.pool s.queuedTx, pool := [] }

def usesQueue (s : UnwindState) : Bool := decide (s.disconnected ≤ maxDisconnectPoolBlocks)

def rewindUpgrade (b : ConnectedBlock) (s : UnwindState) : UnwindState :=
  if !params.rewindsUpgrade b.block then s
  else if s.usesQueue then s.importPool params else { s with pool := [] }

def queueBlock (b : ConnectedBlock) (s : UnwindState) : UnwindState :=
  if s.usesQueue then
    { s with
      queuedTx := (addForBlock params.limits b.block.vtx s.queuedTx s.pool).1
      pool := (addForBlock params.limits b.block.vtx s.queuedTx s.pool).2 }
  else s

def disconnectTip (outcome : TipOutcome) (s : UnwindState) : UnwindState :=
  match s.chain, outcome with
  | [], _ => s
  | _::_, .readFailed => { s with disconnected := s.disconnected+1, ret := false, phase := .leaving }
  | b::_, .flushFailed =>
    { s with coins := s.coins.disconnect b, disconnected := s.disconnected+1, ret := false, phase := .leaving }
  | b::chain, .disconnected =>
    let s := ({ s with coins := s.coins.disconnect b }.rewindUpgrade params b).queueBlock params b
    { s with chain := chain, disconnected := s.disconnected+1, ret := true }

/-- A turn of the loop; the first one takes the whole pool. -/
def unwindSection (outcome : TipOutcome) (s : UnwindState) : UnwindState :=
  if !contains params s.chain then { s with phase := .leaving }
  else (if s.disconnected = 0 then s.importPool params else s).disconnectTip params outcome
end UnwindState

def updateMempoolForReorg (fAddToMempool : Bool) (trimmed : List TxId) (s : UnwindState) : List CTransaction :=
  removeRecursive trimmed (if fAddToMempool then
    s.queuedTx.reverse.foldl (fun pool tx => acceptToMemoryPool params.policy s.coins tx [] pool) s.pool
  else s.pool)

def unwindNext (s : UnwindState) : UnwindEvent → Option UnwindState
  | .accept tx trimmed => some { s with pool := acceptToMemoryPool params.policy s.coins tx trimmed s.pool }
  | .disconnect outcome => if s.phase = .unwinding then some (s.unwindSection params outcome) else none
  | .shutdown => if s.phase = .unwinding then some { s with phase := .leaving } else none
  | .updateMempool trimmed =>
    if s.phase = .leaving then
      some { s with
        pool := if s.queuedTx.isEmpty then s.pool else updateMempoolForReorg params s.ret trimmed s
        queuedTx := []
        phase := .returned }
    else none

def UnwindStep (s : UnwindState) (e : UnwindEvent) (s' : UnwindState) : Prop := unwindNext params s e = some s'

/-- The call of `UnwindBlock`. -/
def unwindStart (chain : List ConnectedBlock) (coins : CoinMap) (pool : List CTransaction) : UnwindState :=
  ⟨chain,coins,pool,[],0,false,.unwinding⟩
end Machine

section Invariant

variable {params : UnwindParams} {s s' : UnwindState} {coins : CoinMap}

def pendingBlocks (params : UnwindParams) : List ConnectedBlock → List ConnectedBlock
  | [] => []
  | b::chain => if contains params (b::chain) then b::pendingBlocks params chain else []

def SpendsNothingOf (tx : CTransaction) (b : ConnectedBlock) : Prop :=
  ∀ txin ∈ tx.vin, ∀ t ∈ b.block.vtx, txin.prevout.txid ≠ t.getId

/-- Between two sections nothing that depends on blocks still to be disconnected is let in. -/
def unwindGuard (params : UnwindParams) (s : UnwindState) (e : UnwindEvent) : Prop :=
  match e with
  | .accept tx _ => s.phase = .unwinding → 0 < s.disconnected →
      ∀ b ∈ pendingBlocks params s.chain, SpendsNothingOf tx b
  | _ => True

structure UnwindInvariant (params : UnwindParams) (s : UnwindState) : Prop where
  consistent : PoolConsistent s.coins s.pool
  detached : s.phase = .unwinding → 0 < s.disconnected →
    ∀ tx ∈ s.pool, ∀ b ∈ pendingBlocks params s.chain, SpendsNothingOf tx b

theorem insertAll_isSome (ps : List (COutPoint × Coin)) {x : COutPoint} (h : (coins x).isSome = true) :
    (coins.insertAll ps x).isSome = true := by
  induction ps generalizing coins with
  | nil => exact h
  | cons p ps ih =>
    apply ih
    by_cases hx : x = p.1
    · rw [hx,Function.update_self]
      rfl
    · rw [Function.update_of_ne hx]
      exact h

theorem disconnect_isSome {b : ConnectedBlock} {x : COutPoint} (h : (coins x).isSome = true)
    (hx : ∀ t ∈ b.block.vtx, x.txid ≠ t.getId) : (coins.disconnect b x).isSome = true := by
  have hnot : x ∉ (blockCreated b.nHeight b.block.vtx).map Prod.fst := by
    intro hmem
    obtain ⟨p,hp,rfl⟩ := mem_map.mp hmem
    obtain ⟨t,ht,hpt⟩ := mem_flatMap.mp hp
    exact hx t ht (created_txid (mem_map_of_mem hpt))
  unfold CoinMap.disconnect CoinMap.remove
  rw [if_neg hnot]
  exact insertAll_isSome _ h

theorem PoolConsistent.disconnect {pool : List CTransaction} {b : ConnectedBlock} (h : PoolConsistent coins pool)
    (hdetached : ∀ tx ∈ pool, SpendsNothingOf tx b) : PoolConsistent (coins.disconnect b) pool :=
  h.of_coins fun tx hmem txin hi hcoin => disconnect_isSome hcoin (hdetached tx hmem txin hi)

theorem dropOverflow_subset (limits : QueueLimits) (queue pool : List CTransaction) :
    (dropOverflow limits queue pool).2 ⊆ pool := by
  induction queue generalizing pool with
  | nil => exact List.Subset.refl _
  | cons tx queue ih =>
    unfold dropOverflow
    split
    · exact List.Subset.trans (ih _) (removeRecursive_subset _ _)
    · exact List.Subset.refl _

theorem PoolConsistent.dropOverflow {pool : List CTransaction} (h : PoolConsistent coins pool) (limits : QueueLimits)
    (queue : List CTransaction) : PoolConsistent coins (dropOverflow limits queue pool).2 := by
  induction queue generalizing pool with
  | nil => exact h
  | cons tx queue ih =>
    unfold BitfiniteCore.dropOverflow
    split
    · exact ih (h.removeRecursive [tx.getId])
    · exact h

/-- A change of the queue and of the pool that only removes entries, with what depends on them. -/
structure Shrinks (s s' : UnwindState) : Prop where
  coins : s'.coins = s.coins
  chain : s'.chain = s.chain
  pool : s'.pool ⊆ s.pool
  consistent : PoolConsistent s.coins s.pool → PoolConsistent s.coins s'.pool

theorem Shrinks.refl (s : UnwindState) : Shrinks s s := ⟨rfl,rfl,List.Subset.refl _,id⟩

theorem Shrinks.trans {s'' : UnwindState} (h : Shrinks s s') (h' : Shrinks s' s'') : Shrinks s s'' :=
  ⟨h'.coins.trans h.coins,h'.chain.trans h.chain,List.Subset.trans h'.pool h.pool,
    fun hc => h.coins ▸ h'.consistent (h.coins ▸ h.consistent hc)⟩

theorem importPool_shrinks (s : UnwindState) : Shrinks s (s.importPool params) :=
  ⟨rfl,rfl,nil_subset _,fun _ => trivial⟩

theorem rewindUpgrade_shrinks (b : ConnectedBlock) (s : UnwindState) : Shrinks s (s.rewindUpgrade params b) := by
  unfold UnwindState.rewindUpgrade
  split_ifs
  · exact .refl s
  · exact importPool_shrinks s
  · exact ⟨rfl,rfl,nil_subset _,fun _ => trivial⟩

theorem queueBlock_shrinks (b : ConnectedBlock) (s : UnwindState) : Shrinks s (s.queueBlock params b) := by
  unfold UnwindState.queueBlock
  split
  · exact ⟨rfl,rfl,dropOverflow_subset _ _ _,fun hc => hc.dropOverflow _ _⟩
  · exact .refl s

theorem contains_of_tail {b : ConnectedBlock} {chain : List ConnectedBlock} (h : contains params chain = true) :
    contains params (b::chain) = true := by
  rw [contains,any_cons,Bool.or_eq_true]
  exact .inr h

theorem pendingBlocks_tail (b : ConnectedBlock) (chain : List ConnectedBlock) :
    pendingBlocks params chain ⊆ pendingBlocks params (b::chain) := by
  cases chain with
  | nil => exact nil_subset _
  | cons c chain =>
    by_cases h : contains params (c::chain) = true
    · conv => rhs; rw [pendingBlocks,if_pos (contains_of_tail h)]
      exact subset_cons_self _ _
    · conv => lhs; rw [pendingBlocks,if_neg h]
      exact nil_subset _

theorem disconnectTip_invariant (outcome : TipOutcome) (hin : contains params s.chain = true)
    (hc : PoolConsistent s.coins s.pool)
    (hd : ∀ tx ∈ s.pool, ∀ b ∈ pendingBlocks params s.chain, SpendsNothingOf tx b) :
    UnwindInvariant params (s.disconnectTip params outcome) := by
  unfold UnwindState.disconnectTip
  split
  · exact ⟨hc,fun _ _ => hd⟩
  · exact ⟨hc,nofun⟩
  · rename_i b chain hchain
    refine ⟨hc.disconnect fun tx hmem => hd tx hmem b ?_,nofun⟩
    rw [hchain] at hin ⊢
    rw [pendingBlocks,if_pos hin]
    exact mem_cons_self
  · rename_i b chain hchain
    have hb : b ∈ pendingBlocks params s.chain := by
      rw [hchain] at hin ⊢
      rw [pendingBlocks,if_pos hin]
      exact mem_cons_self
    have hshrink := (@rewindUpgrade_shrinks params b { s with coins := s.coins.disconnect b }).trans
      (@queueBlock_shrinks params b _)
    constructor
    · rw [hshrink.coins]
      exact hshrink.consistent (hc.disconnect fun tx hmem => hd tx hmem b hb)
    · intro _ _ tx hmem c hpending
      apply hd tx (hshrink.pool hmem) c
      rw [hchain]
      exact pendingBlocks_tail b chain hpending

theorem unwindSection_invariant (outcome : TipOutcome) (h : UnwindInvariant params s) (hphase : s.phase = .unwinding) :
    UnwindInvariant params (s.unwindSection params outcome) := by
  unfold UnwindState.unwindSection
  split_ifs with hout hfirst
  · exact ⟨h.consistent,nofun⟩
  · -- the first section goes on with an empty pool
    have hin : contains params s.chain = true := by simpa using hout
    exact disconnectTip_invariant outcome hin trivial fun tx hmem => nomatch hmem
  · exact disconnectTip_invariant outcome (by simpa using hout) h.consistent (h.detached hphase (Nat.pos_of_ne_zero hfirst))

theorem PoolConsistent.readd {pool : List CTransaction} (h : PoolConsistent coins pool) (policy : PoolPolicy)
    (queue : List CTransaction) :
    PoolConsistent coins (queue.foldl (fun pool tx => acceptToMemoryPool policy coins tx [] pool) pool) := by
  induction queue generalizing pool with
  | nil => exact h
  | cons tx queue ih => exact ih (h.accept policy tx [])

theorem updateMempoolForReorg_consistent (ret : Bool) (trimmed : List TxId) (h : PoolConsistent s.coins s.pool) :
    PoolConsistent s.coins (updateMempoolForReorg params ret trimmed s) := by
  apply PoolConsistent.removeRecursive
  split
  · exact h.readd params.policy _
  · exact h

theorem unwindStep_invariant {e : UnwindEvent} (h : UnwindInvariant params s) (hguard : unwindGuard params s e)
    (hstep : UnwindStep params s e s') : UnwindInvariant params s' := by
  unfold UnwindStep at hstep
  cases e with
  | accept tx trimmed =>
    cases hstep
    refine ⟨h.consistent.accept params.policy tx trimmed,fun hp hn t ht => ?_⟩
    obtain rfl | ht := mem_cons.mp (accept_subset params.policy tx trimmed ht)
    · exact hguard hp hn
    · exact h.detached hp hn t ht
  | disconnect outcome =>
    dsimp only [unwindNext] at hstep
    split at hstep
    · rename_i hphase
      cases hstep
      exact unwindSection_invariant outcome h hphase
    · cases hstep
  | shutdown =>
    dsimp only [unwindNext] at hstep
    split at hstep
    · cases hstep
      exact ⟨h.consistent,nofun⟩
    · cases hstep
  | updateMempool trimmed =>
    dsimp only [unwindNext] at hstep
    split at hstep
    · cases hstep
      refine ⟨?_,nofun⟩
      split
      · exact h.consistent
      · exact updateMempoolForReorg_consistent s.ret trimmed h.consistent
    · cases hstep

/-- The pool is consistent at every moment, and so when `UnwindBlock` has returned. -/
theorem unwindBlock_consistent {chain : List ConnectedBlock} {pool : List CTransaction}
    (hstart : PoolConsistent coins pool)
    (run : Reaches (UnwindStep params) (unwindGuard params) (unwindStart chain coins pool) s) :
    ∀ tx ∈ s.pool, ∀ txin ∈ tx.vin, (∃ parent ∈ s.pool, parent.getId ≠ tx.getId ∧ parent.getId = txin.prevout.txid ∧
        txin.prevout.n < parent.vout.length) ∨ (s.coins txin.prevout).isSome = true := by
  have hinv : UnwindInvariant params s := by
    apply run.invariant
    · exact ⟨hstart,fun _ hn => absurd hn (Nat.lt_irrefl 0)⟩
    · exact fun h hguard hstep => unwindStep_invariant h hguard hstep
  exact hinv.consistent.inputs
end Invariant

section Dangling

private def cbTx (n : Nat) : CTransaction := ⟨[⟨⟨0,2^32-1⟩,[],0⟩],[⟨5,[0x51],none⟩],1,0,BitVec.ofNat 256 n⟩

private def paidTx : CTransaction := ⟨[⟨⟨7,0⟩,[],0⟩],[⟨3,[0x51],none⟩],1,0,20⟩

private def spendTx : CTransaction := ⟨[⟨⟨20,0⟩,[],0⟩],[⟨2,[0x51],none⟩],1,0,30⟩

private def otherTx : CTransaction := ⟨[⟨⟨8,0⟩,[],0⟩],[⟨2,[0x51],none⟩],1,0,31⟩

private def lowerBlock : ConnectedBlock := ⟨⟨⟨1,100,0,0,0,0,101⟩,[cbTx 1,paidTx]⟩,⟨[⟨[⟨⟨4,[0x51],none⟩,20⟩]⟩]⟩,101⟩

private def upperBlock : ConnectedBlock := ⟨⟨⟨1,101,0,0,0,0,102⟩,[cbTx 2]⟩,⟨[]⟩,102⟩

private def olderCoins : CoinMap := fun x => if x = ⟨8,0⟩ then some ⟨⟨4,[0x51],none⟩,20⟩ else none

private def unwindCoins : CoinMap :=
  (olderCoins.withBlock 101 lowerBlock.block.vtx).withBlock 102 upperBlock.block.vtx

private def unwindParams : UnwindParams := ⟨fun _ _ _ => true,⟨fun _ => 0,1⟩,101,fun _ => false⟩

private def unwindCall : UnwindState := unwindStart [upperBlock,lowerBlock] unwindCoins []

private theorem reaches_run {params : UnwindParams} {guard : UnwindState → UnwindEvent → Prop}
    {start s s' : UnwindState} (events : List UnwindEvent) (run : Reaches (UnwindStep params) guard start s)
    (hguard : ∀ s, ∀ e ∈ events, guard s e) (h : events.foldlM (unwindNext params) s = some s') :
    Reaches (UnwindStep params) guard start s' := by
  induction events generalizing s with
  | nil =>
    cases h
    exact run
  | cons e events ih =>
    rw [foldlM_cons] at h
    obtain ⟨s1,h1,h⟩ := Option.bind_eq_some_iff.mp h
    exact ih (run.tail (hguard s e mem_cons_self) h1) (fun s f hf => hguard s f (mem_cons_of_mem _ hf)) h

theorem unwindBlock_dangling : ∃ s, Reaches (UnwindStep unwindParams) (fun _ _ => True) unwindCall s ∧
    s.phase = .returned ∧ ∃ tx ∈ s.pool, ∃ txin ∈ tx.vin,
      (∀ parent ∈ s.pool, parent.getId ≠ txin.prevout.txid) ∧ s.coins txin.prevout = none := by
  have hrun : ∃ s, [UnwindEvent.disconnect .disconnected,.accept spendTx [],.disconnect .disconnected,
      .disconnect .disconnected,.updateMempool []].foldlM (unwindNext unwindParams) unwindCall = some s ∧
      s.phase = .returned ∧ s.pool = [spendTx] ∧ s.coins ⟨20,0⟩ = none := ⟨_,rfl,rfl,rfl,rfl⟩
  obtain ⟨s,hs,hphase,hpool,hcoin⟩ := hrun
  refine ⟨s,reaches_run _ .refl (fun _ _ _ => trivial) hs,hphase,spendTx,?_,⟨⟨20,0⟩,[],0⟩,?_,?_,hcoin⟩
  · rw [hpool]
    exact mem_singleton_self _
  · exact mem_singleton_self _
  · rw [hpool]
    decide

theorem unwindBlock_consistent_sample : ∃ s : UnwindState, s.phase = .returned ∧ s.pool = [paidTx,otherTx] ∧
    ∀ tx ∈ s.pool, ∀ txin ∈ tx.vin, (∃ parent ∈ s.pool, parent.getId ≠ tx.getId ∧ parent.getId = txin.prevout.txid ∧
        txin.prevout.n < parent.vout.length) ∨ (s.coins txin.prevout).isSome = true := by
  have hrun : ∃ s1 s2 s3 : UnwindState, unwindNext unwindParams unwindCall (.disconnect .disconnected) = some s1 ∧
      s1.chain = [lowerBlock] ∧ unwindNext unwindParams s1 (.accept otherTx []) = some s2 ∧
      [UnwindEvent.disconnect .disconnected,.disconnect .disconnected,.updateMempool []].foldlM
        (unwindNext unwindParams) s2 = some s3 ∧ s3.phase = .returned ∧ s3.pool = [paidTx,otherTx] :=
    ⟨_,_,_,rfl,rfl,rfl,rfl,rfl,rfl⟩
  obtain ⟨s1,s2,s3,h1,hchain,h2,h3,hphase,hpool⟩ := hrun
  have hguard : unwindGuard unwindParams s1 (.accept otherTx []) := by
    intro _ _
    rw [hchain]
    show ∀ b ∈ [lowerBlock], ∀ txin ∈ otherTx.vin, ∀ t ∈ b.block.vtx, txin.prevout.txid ≠ t.getId
    decide
  have hrest : ∀ s, ∀ e ∈ [UnwindEvent.disconnect .disconnected,.disconnect .disconnected,.updateMempool []],
      unwindGuard unwindParams s e := by
    simp [unwindGuard]
  have run := reaches_run _ ((Reaches.refl.tail trivial h1).tail hguard h2) hrest h3
  exact ⟨s3,hphase,hpool,@unwindBlock_consistent unwindParams s3 unwindCoins [upperBlock,lowerBlock] [] trivial run⟩
end Dangling
end BitfiniteCore
