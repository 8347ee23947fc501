import BitfiniteCore.Mempool.Blocks

/-! # What the pool asserts of itself -/

namespace BitfiniteCore
open GuardedRun List

section Machine

structure TxInfo where
  time : Int
  feeDelta : Int
deriving DecidableEq, Repr

structure ActivationState where
  coins : CoinMap
  pool : CTxMemPool
  queuedTx : List CTransaction
  txInfo : List (TxId × TxInfo)

/-- How `ConnectTip` ends; `flushFailed` comes after the coins of the block were written to the tip's view. -/
inductive ConnectOutcome | connected | invalid | systemError | flushFailed
deriving DecidableEq, Repr

/-- The blocks that `ActivateBestChainStep` meets, and what the re-adding of transactions looks up. -/
structure ChainStep where
  disconnects : List (ConnectedBlock × TipOutcome)
  connects : List (ConnectedBlock × ConnectOutcome)
  nSpendHeight : Nat
  now : Int
  limit : Nat
  time : Int

variable (params : MempoolParams) (changesFlags : CBlock → Bool)

namespace ActivationState

def importMempool (s : ActivationState) : ActivationState :=
  { s with
    pool := s.pool.clear
    queuedTx := BitfiniteCore.importMempool params.limits s.pool.txs s.queuedTx
    txInfo := s.txInfo++s.pool.mapTx.map fun e => (e.txid,⟨e.nTime,e.feeDelta⟩) }

def disconnectTip (b : ConnectedBlock) (s : ActivationState) : ActivationState :=
  let s := { s with coins := s.coins.disconnect b }
  let s := if changesFlags b.block then s.importMempool params else s
  let r := CTxMemPool.addForBlock params b.block.vtx s.queuedTx s.pool
  { s with queuedTx := r.1, pool := r.2 }

def connectTip (b : ConnectedBlock) (s : ActivationState) : ActivationState :=
  let s := { s with
    coins := s.coins.connect b.nHeight b.block.vtx
    pool := s.pool.removeForBlock params b.block.vtx
    queuedTx := s.queuedTx.filter fun q => !b.block.vtx.any fun tx => tx.getId == q.getId }
  if changesFlags b.block then s.importMempool params else s

def disconnectLoop : List (ConnectedBlock × TipOutcome) → ActivationState → ActivationState × Bool
  | [], s => (s,true)
  | (b,outcome)::bs, s =>
    match outcome with
    | .disconnected => disconnectLoop bs (s.disconnectTip params changesFlags b)
    | .readFailed => (s,false)
    | .flushFailed => ({ s with coins := s.coins.disconnect b },false)

def connectLoop : List (ConnectedBlock × ConnectOutcome) → ActivationState → ActivationState × Bool
  | [], s => (s,true)
  | (b,outcome)::bs, s =>
    match outcome with
    | .connected => connectLoop bs (s.connectTip params changesFlags b)
    | .invalid => (s,true)
    | .systemError => (s,false)
    | .flushFailed => ({ s with coins := s.coins.connect b.nHeight b.block.vtx },false)

def readd (step : ChainStep) (s : ActivationState) (tx : CTransaction) : ActivationState :=
  if tx.isCoinBase then s
  else
    let saved := s.txInfo.lookup tx.getId
    let feeDelta := (saved.map TxInfo.feeDelta).getD 0
    let p := if feeDelta = 0 then s.pool
      else { s.pool with mapDeltas := (tx.getId,feeDelta)::(s.pool.clearPrioritisation tx.getId).mapDeltas }
    let r := p.acceptToMemoryPool params s.coins step.nSpendHeight tx ((saved.map TxInfo.time).getD step.now) none
    { s with pool := if r.2 || decide (feeDelta = 0) then r.1 else r.1.clearPrioritisation tx.getId }

def updateMempoolForReorg (step : ChainStep) (fAddToMempool : Bool) (s : ActivationState) : ActivationState :=
  let s := if fAddToMempool then s.queuedTx.reverse.foldl (readd params step) s else s
  { s with queuedTx := [], txInfo := [], pool := s.pool.limitSize params.unit params.size step.limit step.time }
end ActivationState

structure MempoolState where
  coins : CoinMap
  pool : CTxMemPool

namespace MempoolState

def activateBestChainStep (step : ChainStep) (s : MempoolState) : MempoolState :=
  let s : ActivationState := ⟨s.coins,s.pool,[],[]⟩
  let s := if step.disconnects.isEmpty then s else s.importMempool params
  let r := s.disconnectLoop params changesFlags step.disconnects
  let s := if !r.2 then r.1.updateMempoolForReorg params step false
    else
      let r := r.1.connectLoop params changesFlags step.connects
      if !r.2 then r.1.updateMempoolForReorg params step false
      else if !step.disconnects.isEmpty || !r.1.queuedTx.isEmpty then r.1.updateMempoolForReorg params step true
      else r.1
  ⟨s.coins,s.pool⟩
end MempoolState

inductive MempoolEvent
  | accept (nSpendHeight : Nat) (tx : CTransaction) (nAcceptTime : Int) (limits : CTxMemPool.AcceptLimits)
  | activate (step : ChainStep)
  | trimToSize (sizelimit : Nat)
  | expire (time : Int) (fast : Bool)
  | removeRecursive (txid : TxId)
  | prioritise (txid : TxId) (nFeeDelta : Int)

def mempoolNext (s : MempoolState) : MempoolEvent → MempoolState
  | .accept nSpendHeight tx nAcceptTime limits =>
    { s with pool := (s.pool.acceptToMemoryPool params s.coins nSpendHeight tx nAcceptTime limits).1 }
  | .activate step => s.activateBestChainStep params changesFlags step
  | .trimToSize sizelimit => { s with pool := s.pool.trimToSize params.unit params.size sizelimit }
  | .expire time fast => { s with pool := s.pool.expire params.unit time fast }
  | .removeRecursive txid => { s with pool := s.pool.removeRecursive params.unit txid }
  | .prioritise txid nFeeDelta => { s with pool := s.pool.prioritiseTransaction txid nFeeDelta }

def MempoolEvent.txs : MempoolEvent → List CTransaction
  | .accept _ tx _ _ => [tx]
  | .activate step => (step.disconnects.flatMap fun b => b.1.block.vtx)++step.connects.flatMap fun b => b.1.block.vtx
  | _ => []

def MempoolStep (U : Set CTransaction) (s : MempoolState) (e : MempoolEvent) (s' : MempoolState) : Prop :=
  (∀ tx ∈ e.txs, tx ∈ U) ∧ mempoolNext params changesFlags s e = s'

/-- A block that is connected without a reorganisation fits the queue that sorts its transactions, and its flush works. -/
def mempoolGuard (_ : MempoolState) : MempoolEvent → Prop
  | .activate step => step.disconnects = [] →
      ∀ b ∈ step.connects, FitsQueue params.limits b.1.block.vtx ∧ b.2 ≠ .flushFailed
  | _ => True
end Machine

section Invariant

variable {params : MempoolParams} {changesFlags : CBlock → Bool} {U : Set CTransaction} {s s' : ActivationState}

structure ChainInvariant (params : MempoolParams) (U : Set CTransaction) (s : ActivationState) : Prop where
  sound : s.pool.Sound params.unit s.coins
  known : ∀ e ∈ s.pool.mapTx, e.tx ∈ U
  queued : ∀ tx ∈ s.queuedTx, tx ∈ U

theorem dropOverflow_queue (limits : QueueLimits) (queue pool : List CTransaction) :
    (dropOverflow limits queue pool).1 ⊆ queue := by
  induction queue generalizing pool with
  | nil => exact List.Subset.refl _
  | cons tx queue ih =>
    unfold dropOverflow
    split
    · exact List.Subset.trans (ih _) (subset_cons_self tx queue)
    · exact List.Subset.refl _

theorem CTxMemPool.dropOverflow_queue (queue : List CTransaction) (p : CTxMemPool) :
    (CTxMemPool.dropOverflow params queue p).1 ⊆ queue := by
  induction queue generalizing p with
  | nil => exact List.Subset.refl _
  | cons tx queue ih =>
    unfold CTxMemPool.dropOverflow
    split
    · exact List.Subset.trans (ih _) (subset_cons_self tx queue)
    · exact List.Subset.refl _

section

variable (hU : DistinctIds U)

include hU

theorem importMempool_mem {limits : QueueLimits} {pool queue : List CTransaction}
    (hpool : ∀ tx ∈ pool, tx ∈ U) (hqueue : ∀ tx ∈ queue, tx ∈ U) :
    ∀ tx ∈ importMempool limits pool queue, tx ∈ U := by
  intro tx htx
  obtain htx | htx := mem_append.mp (dropOverflow_queue limits _ _ htx)
  · have hmem := dropOverflow_queue limits _ _ htx
    rw [foldl_addQueued_mem hU _ (by simpa using hpool) (forall_mem_nil _)] at hmem
    obtain hmem | hmem := hmem
    · cases hmem
    · exact hpool tx (by simpa using hmem)
  · exact hqueue tx htx

theorem ChainInvariant.importMempool (h : ChainInvariant params U s) :
    ChainInvariant params U (s.importMempool params) := by
  refine ⟨CTxMemPool.clear_sound s.pool,forall_mem_nil _,importMempool_mem hU ?_ h.queued⟩
  exact forall_mem_map.mpr h.known

omit hU in
theorem ChainInvariant.withCoins (h : ChainInvariant params U s) (hempty : s.pool.mapTx = []) (coins : CoinMap) :
    ChainInvariant params U { s with coins := coins } :=
  ⟨h.sound.of_coins (by simp [hempty]),h.known,h.queued⟩

theorem ChainInvariant.addForBlock (h : ChainInvariant params U s) {vtx : List CTransaction}
    (hvtx : ∀ tx ∈ vtx, tx ∈ U) : ChainInvariant params U { s with
      queuedTx := (CTxMemPool.addForBlock params vtx s.queuedTx s.pool).1
      pool := (CTxMemPool.addForBlock params vtx s.queuedTx s.pool).2 } := by
  have hred := h.sound.dropOverflow (vtx.reverse.foldl addQueued s.queuedTx)
  refine ⟨hred.toSound,fun e he => h.known e (hred.subset he),fun tx htx => ?_⟩
  have hmem := CTxMemPool.dropOverflow_queue _ _ htx
  rw [foldl_addQueued_mem hU _ (by simpa using hvtx) h.queued,mem_reverse] at hmem
  exact hmem.elim (h.queued tx) (hvtx tx)

theorem ChainInvariant.disconnectTip (h : ChainInvariant params U s) (hempty : s.pool.mapTx = [])
    {b : ConnectedBlock} (hb : ∀ tx ∈ b.block.vtx, tx ∈ U) :
    ChainInvariant params U (s.disconnectTip params changesFlags b) ∧
      (s.disconnectTip params changesFlags b).pool.mapTx = [] := by
  have hcoins := h.withCoins hempty (s.coins.disconnect b)
  unfold ActivationState.disconnectTip
  split
  · have himp := hcoins.importMempool hU
    exact ⟨himp.addForBlock hU hb,subset_nil.mp (himp.sound.dropOverflow _).subset⟩
  · exact ⟨hcoins.addForBlock hU hb,subset_nil.mp (hempty ▸ (hcoins.sound.dropOverflow _).subset)⟩

theorem ChainInvariant.disconnectLoop (bs : List (ConnectedBlock × TipOutcome))
    (hbs : ∀ b ∈ bs, ∀ tx ∈ b.1.block.vtx, tx ∈ U) (h : ChainInvariant params U s) (hempty : s.pool.mapTx = []) :
    ChainInvariant params U (s.disconnectLoop params changesFlags bs).1 ∧
      (s.disconnectLoop params changesFlags bs).1.pool.mapTx = [] := by
  induction bs generalizing s with
  | nil => exact ⟨h,hempty⟩
  | cons b bs ih =>
    rw [forall_mem_cons] at hbs
    obtain ⟨b,outcome⟩ := b
    cases outcome with
    | disconnected =>
      obtain ⟨h1,h2⟩ := h.disconnectTip hU hempty hbs.1
      exact ih hbs.2 h1 h2
    | readFailed => exact ⟨h,hempty⟩
    | flushFailed => exact ⟨h.withCoins hempty _,hempty⟩

theorem ChainInvariant.connectTip (h : ChainInvariant params U s) {b : ConnectedBlock}
    (hb : ∀ tx ∈ b.block.vtx, tx ∈ U) (hfits : s.pool.mapTx ≠ [] → FitsQueue params.limits b.block.vtx) :
    ChainInvariant params U (s.connectTip params changesFlags b) ∧
      (s.connectTip params changesFlags b).pool.mapTx ⊆ s.pool.mapTx := by
  have hred := h.sound.removeForBlock b.nHeight hU h.known hb hfits
  have hinv : ChainInvariant params U { s with
      coins := s.coins.connect b.nHeight b.block.vtx
      pool := s.pool.removeForBlock params b.block.vtx
      queuedTx := s.queuedTx.filter fun q => !b.block.vtx.any fun tx => tx.getId == q.getId } :=
    ⟨hred.toSound,fun e he => h.known e (hred.subset he),fun tx htx => h.queued tx (mem_filter.mp htx).1⟩
  unfold ActivationState.connectTip
  split
  · exact ⟨hinv.importMempool hU,nil_subset _⟩
  · exact ⟨hinv,hred.subset⟩

theorem ChainInvariant.connectLoop (bs : List (ConnectedBlock × ConnectOutcome))
    (hbs : ∀ b ∈ bs, ∀ tx ∈ b.1.block.vtx, tx ∈ U) (h : ChainInvariant params U s)
    (hfits : s.pool.mapTx ≠ [] → ∀ b ∈ bs, FitsQueue params.limits b.1.block.vtx ∧ b.2 ≠ .flushFailed) :
    ChainInvariant params U (s.connectLoop params changesFlags bs).1 := by
  induction bs generalizing s with
  | nil => exact h
  | cons b bs ih =>
    rw [forall_mem_cons] at hbs
    obtain ⟨b,outcome⟩ := b
    cases outcome with
    | connected =>
      obtain ⟨h1,h2⟩ := @ChainInvariant.connectTip params changesFlags U s hU h b hbs.1
        fun hne => (hfits hne _ mem_cons_self).1
      apply ih hbs.2 h1
      intro hne c hc
      apply hfits _ c (mem_cons_of_mem _ hc)
      intro hempty
      exact hne (subset_nil.mp (hempty ▸ h2))
    | invalid => exact h
    | systemError => exact h
    | flushFailed =>
      by_cases hempty : s.pool.mapTx = []
      · exact h.withCoins hempty _
      · exact absurd rfl (hfits hempty _ mem_cons_self).2
end

theorem ChainInvariant.withPool (h : ChainInvariant params U s) {p : CTxMemPool} (hs : p.Sound params.unit s.coins)
    (hp : ∀ e ∈ p.mapTx, e.tx ∈ U) : ChainInvariant params U { s with pool := p } :=
  ⟨hs,hp,h.queued⟩

theorem ChainInvariant.readd (h : ChainInvariant params U s) (step : ChainStep) {tx : CTransaction} (htx : tx ∈ U) :
    ChainInvariant params U (s.readd params step tx) := by
  unfold ActivationState.readd
  split
  · exact h
  · extract_lets saved feeDelta _ p r
    have hp : p.Sound params.unit s.coins ∧ p.mapTx = s.pool.mapTx := by
      unfold p
      split
      · exact ⟨h.sound,rfl⟩
      · exact ⟨h.sound.withDeltas _,rfl⟩
    obtain ⟨h1,h2⟩ := hp.1.acceptToMemoryPool step.nSpendHeight tx ((saved.map TxInfo.time).getD step.now) none
    have hknown : ∀ e ∈ r.1.mapTx, e.tx ∈ U := by
      intro e he
      obtain hold | hnew := h2 e he
      · exact h.known e (hp.2 ▸ hold)
      · exact hnew ▸ htx
    split
    · exact h.withPool h1 hknown
    · exact h.withPool (h1.withDeltas _) hknown

theorem ChainInvariant.foldl_readd (step : ChainStep) (txs : List CTransaction) (htxs : ∀ tx ∈ txs, tx ∈ U)
    (h : ChainInvariant params U s) : ChainInvariant params U (txs.foldl (ActivationState.readd params step) s) := by
  induction txs generalizing s with
  | nil => exact h
  | cons tx txs ih =>
    rw [forall_mem_cons] at htxs
    exact ih htxs.2 (h.readd step htxs.1)

theorem ChainInvariant.updateMempoolForReorg (h : ChainInvariant params U s) (step : ChainStep) (fAddToMempool : Bool) :
    ChainInvariant params U (s.updateMempoolForReorg params step fAddToMempool) := by
  have hadd : ChainInvariant params U
      (if fAddToMempool then s.queuedTx.reverse.foldl (ActivationState.readd params step) s else s) := by
    split
    · exact h.foldl_readd step _ (by simpa using h.queued)
    · exact h
  have hred := hadd.sound.limitSize params.size step.limit step.time
  exact ⟨hred.toSound,fun e he => hadd.known e (hred.subset he),forall_mem_nil _⟩

structure MempoolInvariant (params : MempoolParams) (U : Set CTransaction) (s : MempoolState) : Prop where
  sound : s.pool.Sound params.unit s.coins
  known : ∀ e ∈ s.pool.mapTx, e.tx ∈ U

variable {m m' : MempoolState}

theorem MempoolInvariant.reduces (h : MempoolInvariant params U m) {p : CTxMemPool}
    (hred : CTxMemPool.Reduces params.unit m.coins m.pool p) : MempoolInvariant params U { m with pool := p } :=
  ⟨hred.toSound,fun e he => h.known e (hred.subset he)⟩

theorem ChainInvariant.outside (h : ChainInvariant params U s) : MempoolInvariant params U ⟨s.coins,s.pool⟩ :=
  ⟨h.sound,h.known⟩

theorem MempoolInvariant.activateBestChainStep (hU : DistinctIds U) (h : MempoolInvariant params U m) {step : ChainStep}
    (hin : ∀ tx ∈ (MempoolEvent.activate step).txs, tx ∈ U)
    (hfits : step.disconnects = [] →
      ∀ b ∈ step.connects, FitsQueue params.limits b.1.block.vtx ∧ b.2 ≠ .flushFailed) :
    MempoolInvariant params U (m.activateBestChainStep params changesFlags step) := by
  have hdis : ∀ b ∈ step.disconnects, ∀ tx ∈ b.1.block.vtx, tx ∈ U := fun b hb tx htx =>
    hin tx (mem_append_left _ (mem_flatMap.mpr ⟨b,hb,htx⟩))
  have hcon : ∀ b ∈ step.connects, ∀ tx ∈ b.1.block.vtx, tx ∈ U := fun b hb tx htx =>
    hin tx (mem_append_right _ (mem_flatMap.mpr ⟨b,hb,htx⟩))
  have hstart : ChainInvariant params U ⟨m.coins,m.pool,[],[]⟩ := ⟨h.sound,h.known,forall_mem_nil _⟩
  unfold MempoolState.activateBestChainStep
  extract_lets s0 s1 r1 r2 s2
  have h1 : ChainInvariant params U r1.1 ∧
      (r1.1.pool.mapTx ≠ [] → ∀ b ∈ step.connects, FitsQueue params.limits b.1.block.vtx ∧ b.2 ≠ .flushFailed) := by
    by_cases hnone : step.disconnects = []
    · refine ⟨?_,fun _ => hfits hnone⟩
      unfold r1 s1
      rw [hnone]
      exact hstart
    · have hs1 : s1 = s0.importMempool params := if_neg (by simp [hnone])
      have hloop := @ChainInvariant.disconnectLoop params changesFlags U s1 hU step.disconnects hdis
        (hs1 ▸ hstart.importMempool hU) (hs1 ▸ rfl)
      exact ⟨hloop.1,fun hne => absurd hloop.2 hne⟩
  have h2 : ChainInvariant params U r2.1 := h1.1.connectLoop hU step.connects hcon h1.2
  apply ChainInvariant.outside
  unfold s2
  split
  · exact h1.1.updateMempoolForReorg step false
  split
  · exact h2.updateMempoolForReorg step false
  split
  · exact h2.updateMempoolForReorg step true
  · exact h2

theorem mempoolStep_invariant (hU : DistinctIds U) {e : MempoolEvent} (h : MempoolInvariant params U m)
    (hguard : mempoolGuard params m e) (hstep : MempoolStep params changesFlags U m e m') :
    MempoolInvariant params U m' := by
  obtain ⟨hin,rfl⟩ := hstep
  cases e with
  | accept nSpendHeight tx nAcceptTime limits =>
    obtain ⟨h1,h2⟩ := h.sound.acceptToMemoryPool nSpendHeight tx nAcceptTime limits
    refine ⟨h1,fun e he => ?_⟩
    obtain hold | hnew := h2 e he
    · exact h.known e hold
    · exact hnew ▸ hin tx mem_cons_self
  | activate step => exact h.activateBestChainStep hU hin hguard
  | trimToSize sizelimit => exact h.reduces (h.sound.trimLoop params.size sizelimit _)
  | expire time fast => exact h.reduces (h.sound.expire time fast)
  | removeRecursive txid => exact h.reduces (h.sound.removeRecursive txid)
  | prioritise txid nFeeDelta =>
    refine ⟨h.sound.prioritiseTransaction txid nFeeDelta,fun e he => ?_⟩
    obtain ⟨f,hf,htx,-⟩ := CTxMemPool.mem_prioritise he
    exact htx ▸ h.known f hf
end Invariant

section Assertions

namespace CTxMemPool

variable {unit : Nat} {coins : CoinMap} {p : CTxMemPool}

theorem Sound.inputs (h : Sound unit coins p) : ∀ e ∈ p.mapTx, ∀ x ∈ e.prevouts,
    (∃ f ∈ p.mapTx, f.txid = x.txid ∧ x.n < f.tx.vout.length ∧ f.entryId < e.entryId) ∨ (coins x).isSome = true := by
  have hc := h.consistent
  have ho := h.order
  unfold txs at hc
  generalize p.mapTx = es at hc ho
  induction es with
  | nil => exact forall_mem_nil _
  | cons a es ih =>
    obtain ⟨hin,-,hold⟩ := hc
    rw [pairwise_cons] at ho
    intro e he x hx
    obtain rfl | he := mem_cons.mp he
    · obtain ⟨txin,hi,rfl⟩ := mem_map.mp hx
      obtain ⟨t,ht,hid,hn⟩ | hcoin := hin txin hi
      · obtain ⟨f,hf,rfl⟩ := mem_map.mp ht
        exact .inl ⟨f,mem_cons_of_mem _ hf,hid,hn,ho.1 f hf⟩
      · exact .inr hcoin
    · obtain ⟨f,hf,hrest⟩ | hcoin := ih hold ho.2 e he x hx
      · exact .inl ⟨f,mem_cons_of_mem _ hf,hrest⟩
      · exact .inr hcoin
end CTxMemPool

/-- What `CTxMemPool::check` asserts of the pool over the coins of the tip. -/
structure Checked (unit : Nat) (coins : CoinMap) (p : CTxMemPool) : Prop where
  inputs : ∀ e ∈ p.mapTx, ∀ x ∈ e.prevouts,
    (∃ f ∈ p.mapTx, f.txid = x.txid ∧ x.n < f.tx.vout.length ∧ f.entryId < e.entryId) ∨ (coins x).isSome = true
  mapNextTx : ∀ x r, p.mapNextTx x = some r ↔ ∃ e ∈ p.mapTx, e.txid = r ∧ x ∈ e.prevouts
  spender : ∀ e ∈ p.mapTx, ∀ f ∈ p.mapTx, ∀ x ∈ e.prevouts, x ∈ f.prevouts → e = f
  parents : ∀ e ∈ p.mapTx, ∀ r, r ∈ p.mapLinks .parents e.txid ↔
    ∃ f ∈ p.mapTx, f.txid = r ∧ ∃ x ∈ e.prevouts, x.txid = f.txid
  children : ∀ e ∈ p.mapTx, ∀ r, r ∈ p.mapLinks .children e.txid ↔
    ∃ f ∈ p.mapTx, f.txid = r ∧ ∃ x ∈ f.prevouts, x.txid = e.txid
  totalTxSize : p.totalTxSize = (p.mapTx.map fun e => (e.nTxSize : Int)).sum
  cachedInnerUsage : p.cachedInnerUsage = p.innerUsage unit

theorem CTxMemPool.Sound.checked {unit : Nat} {coins : CoinMap} {p : CTxMemPool} (h : p.Sound unit coins) :
    Checked unit coins p := by
  refine ⟨h.inputs,h.spends,fun e he f hf x hx hx' => h.spender_unique he hf hx hx',?_,?_,h.size,h.usage⟩
  · intro e he r
    rw [h.parents]
    constructor
    · rintro ⟨e',he',hid,hr,hmem⟩
      obtain rfl := CTxMemPool.eq_of_txid h.nodup he' he hid
      obtain ⟨x,hx,rfl⟩ := mem_map.mp (mem_dedup.mp hr)
      obtain ⟨f,hf,hfx⟩ := mem_map.mp hmem
      exact ⟨f,hf,hfx,x,hx,hfx.symm⟩
    · rintro ⟨f,hf,rfl,x,hx,hfx⟩
      exact ⟨e,he,rfl,mem_dedup.mpr (hfx ▸ mem_map_of_mem hx),mem_map_of_mem hf⟩
  · intro e he r
    rw [h.children]
    constructor
    · rintro ⟨f,hf,rfl,hr,-⟩
      obtain ⟨x,hx,hxe⟩ := mem_map.mp (mem_dedup.mp hr)
      exact ⟨f,hf,rfl,x,hx,hxe⟩
    · rintro ⟨f,hf,rfl,x,hx,hxe⟩
      exact ⟨f,hf,rfl,mem_dedup.mpr (hxe ▸ mem_map_of_mem hx),mem_map_of_mem he⟩

/-- `check` passes as long as no block overflows the queue that `removeForBlock` sorts it with and no flush fails
before that call. -/
theorem mempool_checked (params : MempoolParams) (changesFlags : CBlock → Bool) {U : Set CTransaction}
    (hU : DistinctIds U) {coins : CoinMap} {s : MempoolState}
    (run : Reaches (MempoolStep params changesFlags U) (mempoolGuard params) ⟨coins,CTxMemPool.empty⟩ s) :
    Checked params.unit s.coins s.pool := by
  have hinv : MempoolInvariant params U s := by
    apply run.invariant
    · exact ⟨CTxMemPool.clear_sound CTxMemPool.empty,forall_mem_nil _⟩
    · exact fun h hguard hstep => mempoolStep_invariant hU h hguard hstep
  exact hinv.sound.checked
end Assertions

section Overflow

namespace CTxMemPool

variable {params : MempoolParams} {unit : Nat} {p : CTxMemPool}

/-- A transaction has nothing to do with the pool. -/
structure Unrelated (p : CTxMemPool) (tx : CTransaction) : Prop where
  absent : tx.getId ∉ p.txids
  childless : ∀ e ∈ p.mapTx, ∀ x ∈ e.prevouts, x.txid ≠ tx.getId

theorem Unrelated.removeRecursive {tx : CTransaction} (h : Unrelated p tx) : p.removeRecursive unit tx.getId = p := by
  have hnone : p.spentKeys.filter (fun x => x.txid == tx.getId) = [] := by
    rw [filter_eq_nil_iff]
    intro x hx heq
    obtain ⟨e,he,hxe⟩ := mem_flatMap.mp (mem_filter.mp hx).1
    exact h.childless e he x hxe (beq_iff_eq.mp heq)
  unfold CTxMemPool.removeRecursive
  rw [if_neg h.absent,hnone]
  rfl

theorem dropOverflow_unrelated (queue : List CTransaction) (h : ∀ tx ∈ queue, Unrelated p tx) :
    (dropOverflow params queue p).2 = p := by
  induction queue with
  | nil => rfl
  | cons tx queue ih =>
    rw [forall_mem_cons] at h
    unfold dropOverflow
    split
    · rw [h.1.removeRecursive]
      exact ih h.2
    · rfl

theorem Indexed.removeForBlockTx_unrelated (hi : Indexed params.unit p) {tx : CTransaction} (h : Unrelated p tx)
    (hfree : ∀ e ∈ p.mapTx, ∀ x ∈ tx.vin.map CTxIn.prevout, x ∉ e.prevouts) : p.removeForBlockTx params tx = p := by
  unfold CTxMemPool.removeForBlockTx
  rw [if_neg h.absent]
  unfold CTxMemPool.removeConflicts
  generalize tx.vin.map CTxIn.prevout = xs at hfree
  induction xs with
  | nil => rfl
  | cons x xs ih =>
    have hnone : p.mapNextTx x = none := by
      rw [Option.eq_none_iff_forall_ne_some]
      intro r hr
      obtain ⟨e,he,-,hx⟩ := (hi.spends x r).mp hr
      exact hfree e he x mem_cons_self hx
    have hstep : p.removeConflict params.unit tx.getId x = p := by
      unfold CTxMemPool.removeConflict
      rw [hnone]
    rw [foldl_cons,hstep]
    exact ih fun e he y hy => hfree e he y (mem_cons_of_mem _ hy)

theorem Indexed.removeForBlock_overflow (hi : Indexed params.unit p) {vtx rest : List CTransaction} {tx : CTransaction}
    (hqueue : blockQueue vtx = tx::rest) (hover : params.limits.maxUsage < params.limits.usage (tx::rest))
    (hunrelated : ∀ t ∈ tx::rest, Unrelated p t)
    (hfree : ∀ t ∈ rest, ∀ e ∈ p.mapTx, ∀ x ∈ t.vin.map CTxIn.prevout, x ∉ e.prevouts) :
    (p.removeForBlock params vtx).mapTx = p.mapTx := by
  unfold CTxMemPool.removeForBlock
  split
  · rfl
  · have hadd : CTxMemPool.addForBlock params vtx [] p = dropOverflow params rest p := by
      change dropOverflow params (blockQueue vtx) p = _
      rw [hqueue,dropOverflow,if_pos hover,(hunrelated tx mem_cons_self).removeRecursive]
    have hpool := @dropOverflow_unrelated params p rest fun t ht => hunrelated t (mem_cons_of_mem _ ht)
    have hsub := @dropOverflow_queue params rest p
    rw [hadd]
    generalize dropOverflow params rest p = r at hpool hsub
    obtain ⟨queue,q⟩ := r
    dsimp only at hpool hsub ⊢
    subst hpool
    have hfold : ∀ txs : List CTransaction, txs ⊆ rest → txs.foldl (removeForBlockTx params) q = q := by
      intro txs
      induction txs with
      | nil => exact fun _ => rfl
      | cons t txs ih =>
        intro hts
        rw [cons_subset] at hts
        rw [foldl_cons,hi.removeForBlockTx_unrelated (hunrelated t (mem_cons_of_mem _ hts.1))
          (hfree t hts.1)]
        exact ih hts.2
    rw [hfold _ fun t ht => hsub (mem_reverse.mp ht)]
end CTxMemPool

theorem requeueFold_unrelated (ids : List TxId) {queue : List CTransaction} (h : ∀ t ∈ queue, t.getId ∉ ids) :
    ids.foldl requeueParent (queue,[]) = (queue,[]) := by
  induction ids with
  | nil => rfl
  | cons txid ids ih =>
    have hnone : queue.find? (fun tx => tx.getId == txid) = none := by
      rw [find?_eq_none]
      intro t ht heq
      exact h t ht (beq_iff_eq.mp heq ▸ mem_cons_self)
    have hstep : requeueParent (queue,[]) txid = (queue,[]) := by
      unfold requeueParent
      rw [hnone]
    rw [foldl_cons,hstep]
    exact ih fun t ht hmem => h t ht (mem_cons_of_mem _ hmem)

theorem requeueParents_unrelated (fuel : Nat) (parents : List TxId) {queue : List CTransaction}
    (h : ∀ t ∈ queue, t.getId ∉ parents) : requeueParents fuel parents queue = queue := by
  cases fuel with
  | zero => rfl
  | succ fuel =>
    by_cases hne : parents = []
    · rw [hne]
      rfl
    · rw [requeueParents_succ fuel hne,requeueFold_unrelated _ fun t ht hmem => h t ht (mem_txidSet.mp hmem)]
      cases fuel <;> rfl

theorem foldl_addQueued_unrelated (txs queue : List CTransaction) (hids : ((queue++txs).map CTransaction.getId).Nodup)
    (h : ∀ tx ∈ txs, ∀ t ∈ queue++txs, t.getId ∉ tx.vin.map fun txin => txin.prevout.txid) :
    txs.foldl addQueued queue = queue++txs := by
  induction txs generalizing queue with
  | nil => simp
  | cons tx txs ih =>
    have happ : queue++tx::txs = (queue++[tx])++txs := by simp
    rw [forall_mem_cons] at h
    have hnew : ¬(queue.any fun q => q.getId == tx.getId) = true := by
      intro hany
      obtain ⟨q,hq,heq⟩ := any_eq_true.mp hany
      rw [map_append,nodup_append'] at hids
      exact hids.2.2 (mem_map_of_mem hq) (beq_iff_eq.mp heq ▸ mem_cons_self)
    have hstep : addQueued queue tx = queue++[tx] := by
      unfold addQueued
      rw [if_neg hnew]
      apply requeueParents_unrelated
      intro t ht
      apply h.1 t
      rw [happ]
      exact mem_append_left _ ht
    rw [happ] at hids h ⊢
    rw [foldl_cons,hstep]
    exact ih (queue++[tx]) hids h.2

theorem blockQueue_unrelated {vtx : List CTransaction} (hids : (vtx.map CTransaction.getId).Nodup)
    (h : ∀ tx ∈ vtx, ∀ t ∈ vtx, t.getId ∉ tx.vin.map fun txin => txin.prevout.txid) :
    blockQueue vtx = vtx.reverse := by
  apply foldl_addQueued_unrelated
  · rw [nil_append,map_reverse]
    exact nodup_reverse.mpr hids
  · simpa using h

def mallocUsage (alloc : Nat) : Nat := if alloc = 0 then 0 else (alloc+31)/16*16

def vectorUsage (bytes : Bytes) : Nat := if bytes.length ≤ 28 then 0 else mallocUsage bytes.length

def outputUsage (out : CTxOut) : Nat :=
  vectorUsage out.scriptPubKey+out.tokenData.elim 0 fun token => mallocUsage 80+vectorUsage token.commitment

def transactionUsage (tx : CTransaction) : Nat :=
  mallocUsage 88+mallocUsage 24+mallocUsage (72*tx.vin.length)+mallocUsage (48*tx.vout.length)+
    (tx.vin.map fun txin => vectorUsage txin.scriptSig).sum+(tx.vout.map outputUsage).sum

def queueUsage (queue : List CTransaction) : Nat :=
  mallocUsage 64*queue.length+mallocUsage 8+(queue.map transactionUsage).sum

def nodeLimits : QueueLimits := ⟨queueUsage,max (20*32000000) 320000000⟩

theorem le_transactionUsage (tx : CTransaction) : 48*tx.vout.length ≤ transactionUsage tx := by
  have hmalloc : 48*tx.vout.length ≤ mallocUsage (48*tx.vout.length) := by
    unfold mallocUsage
    split <;> omega
  unfold transactionUsage
  omega

private def coinInput (n : Nat) : CTxIn := ⟨⟨BitVec.ofNat 256 n,0⟩,[],0⟩

private def wideTx (width n : Nat) : CTransaction :=
  ⟨[coinInput (2000+n)],replicate width ⟨0,[],none⟩,1,0,BitVec.ofNat 256 (3000+n)⟩

private def pooledTx : CTransaction := ⟨[coinInput 7],[⟨2,[0x51],none⟩],1,0,20⟩

private def minedTx : CTransaction := ⟨[coinInput 7],[⟨3,[0x51],none⟩],1,0,4000⟩

private def rewardTx : CTransaction := ⟨[⟨⟨0,2^32-1⟩,[0x51,0x51],0⟩],[⟨5,[0x51],none⟩],1,0,10⟩

private def wideBlock (width count : Nat) : List CTransaction :=
  rewardTx::((List.range count).map (wideTx width)++[minedTx])

private def wideRest (width count : Nat) : List CTransaction :=
  ((List.range count).map (wideTx width)).reverse++[rewardTx]

private def tipCoins : CoinMap := fun x =>
  if x.n = 0 ∧ (x.txid.toNat = 7 ∨ (2000 ≤ x.txid.toNat ∧ x.txid.toNat < 3000)) then some ⟨⟨5,[0x51],none⟩,20⟩
  else none

private def nodeParams : MempoolParams :=
  ⟨48,fun _ => 100,transactionUsage,fun _ _ _ => true,⟨fun _ => 0,fun _ _ => false⟩,nodeLimits⟩

private def wideStep (width count : Nat) : ChainStep :=
  ⟨[],[(⟨⟨⟨1,100,0,0,0,0,101⟩,wideBlock width count⟩,⟨[]⟩,101⟩,.connected)],102,0,320000000,0⟩

private def pooledState : MempoolState :=
  mempoolNext nodeParams (fun _ => false) ⟨tipCoins,CTxMemPool.empty⟩ (.accept 101 pooledTx 0 none)

private theorem pooledState_mapTx : pooledState.pool.mapTx.map CTxMemPoolEntry.tx = [pooledTx] := by
  decide +kernel

variable {width count : Nat}

private theorem wideStep_next (s : MempoolState) : mempoolNext nodeParams (fun _ => false) s
    (.activate (wideStep width count)) = ⟨s.coins.connect 101 (wideBlock width count),
      s.pool.removeForBlock nodeParams (wideBlock width count)⟩ :=
  rfl

private theorem toNat_small {n : Nat} (h : n < 5000) : (BitVec.ofNat 256 n).toNat = n := by
  rw [BitVec.toNat_ofNat]
  exact Nat.mod_eq_of_lt (by omega)

private theorem wideTx_facts {n : Nat} (h : n < 1000) : (wideTx width n).getId.toNat = 3000+n ∧
    ∀ txin ∈ (wideTx width n).vin, txin.prevout.n = 0 ∧ txin.prevout.txid.toNat = 2000+n := by
  refine ⟨toNat_small (by omega),forall_mem_singleton.mpr ⟨rfl,toNat_small (by omega)⟩⟩

private theorem wideBlock_facts (hcount : count ≤ 1000) : ∀ t ∈ wideBlock width count,
    (t.getId.toNat = 10 ∨ 3000 ≤ t.getId.toNat) ∧ ∀ txin ∈ t.vin, txin.prevout.txid.toNat < 3000 ∧
      txin.prevout.txid.toNat ≠ 10 := by
  intro t ht
  obtain rfl | ht := mem_cons.mp ht
  · decide
  obtain ht | ht := mem_append.mp ht
  · obtain ⟨n,hn,rfl⟩ := mem_map.mp ht
    have hn := mem_range.mp hn
    obtain ⟨hid,hin⟩ := @wideTx_facts width n (by omega)
    exact ⟨by omega,fun txin hi => by have := (hin txin hi).2; omega⟩
  · obtain rfl := mem_singleton.mp ht
    decide

private theorem wideBlock_nodup (hcount : count ≤ 1000) :
    ((pooledTx::wideBlock width count).map CTransaction.getId).Nodup := by
  have hwide : (List.range count).map (fun n => (wideTx width n).getId.toNat) = (List.range count).map (3000+·) := by
    apply map_congr_left
    intro n hn
    exact (wideTx_facts (by have := mem_range.mp hn; omega)).1
  have hids : ((pooledTx::wideBlock width count).map CTransaction.getId).map BitVec.toNat =
      20::10::((List.range count).map (3000+·)++[4000]) := by
    simp [wideBlock,← hwide]
    decide
  have hrange : ((List.range count).map (3000+·)).Nodup := nodup_range.map (add_right_injective 3000)
  apply List.Nodup.of_map BitVec.toNat
  rw [hids]
  simp only [nodup_cons,nodup_append',mem_append,mem_cons,mem_map,mem_range,disjoint_singleton,hrange]
  grind

private theorem wideBlock_queue (hcount : count ≤ 1000) :
    blockQueue (wideBlock width count) = minedTx::wideRest width count := by
  have hfacts := @wideBlock_facts width count hcount
  rw [blockQueue_unrelated (wideBlock_nodup hcount).of_cons]
  · rw [wideBlock,reverse_cons,reverse_append]
    rfl
  · intro tx htx t ht hmem
    obtain ⟨txin,hi,heq⟩ := mem_map.mp hmem
    have h1 := (hfacts t ht).1
    have h2 := (hfacts tx htx).2 txin hi
    rw [heq] at h2
    omega

private theorem wideRest_subset : minedTx::wideRest width count ⊆ wideBlock width count := by
  intro t ht
  unfold wideBlock
  unfold wideRest at ht
  simp only [mem_cons,mem_append,mem_reverse] at ht ⊢
  tauto

private theorem wideBlock_usage : count*(48*width) ≤ queueUsage (minedTx::wideRest width count) := by
  have hwide : count*(48*width) ≤ (((List.range count).map (wideTx width)).reverse.map transactionUsage).sum := by
    have hsum := card_nsmul_le_sum (((List.range count).map (wideTx width)).reverse.map transactionUsage)
      (48*width) (by
        intro u hu
        obtain ⟨t,ht,rfl⟩ := mem_map.mp hu
        obtain ⟨n,-,rfl⟩ := mem_map.mp (mem_reverse.mp ht)
        have hle := le_transactionUsage (wideTx width n)
        rwa [wideTx,length_replicate] at hle)
    simpa using hsum
  unfold queueUsage wideRest
  rw [map_cons,sum_cons,map_append,sum_append]
  omega

private theorem wideBlock_kept (hcount : count ≤ 1000) (hover : nodeLimits.maxUsage < count*(48*width)) :
    (pooledState.pool.removeForBlock nodeParams (wideBlock width count)).mapTx = pooledState.pool.mapTx := by
  have hsound : pooledState.pool.Sound nodeParams.unit tipCoins :=
    ((CTxMemPool.clear_sound CTxMemPool.empty).acceptToMemoryPool 101 pooledTx 0 none).1
  obtain ⟨e,he,htx⟩ := map_eq_singleton_iff.mp pooledState_mapTx
  have hfacts := @wideBlock_facts width count hcount
  apply hsound.toIndexed.removeForBlock_overflow (wideBlock_queue hcount) (hover.trans_le wideBlock_usage)
  · intro t ht
    have hid := (hfacts t (wideRest_subset ht)).1
    refine ⟨?_,?_⟩
    · rw [CTxMemPool.txids,he,map_singleton,CTxMemPoolEntry.txid,htx,mem_singleton]
      intro heq
      rw [heq] at hid
      exact absurd hid (by decide)
    · rw [he]
      intro f hf x hx heq
      rw [mem_singleton.mp hf,CTxMemPoolEntry.prevouts,htx] at hx
      rw [← heq,mem_singleton.mp hx] at hid
      exact absurd hid (by decide)
  · intro t ht f hf x hx hxf
    rw [he] at hf
    rw [mem_singleton.mp hf,CTxMemPoolEntry.prevouts,htx] at hxf
    obtain ⟨txin,hi,rfl⟩ := mem_map.mp hx
    have h7 : txin.prevout.txid.toNat = 7 := by
      rw [mem_singleton.mp hxf]
      rfl
    obtain ht | ht := mem_append.mp ht
    · obtain ⟨n,hn,rfl⟩ := mem_map.mp (mem_reverse.mp ht)
      have hn := mem_range.mp hn
      have := ((@wideTx_facts width n (by omega)).2 txin hi).2
      omega
    · rw [mem_singleton.mp ht] at hi
      rw [mem_singleton.mp hi] at h7
      exact absurd h7 (by decide)

theorem mempool_overflow_dangling : DistinctIds {tx | tx ∈ pooledTx::wideBlock 110000 122} ∧
    (∀ tx ∈ (wideBlock 110000 122).tail, ∀ txin ∈ tx.vin, (tipCoins txin.prevout).isSome = true) ∧
    ∃ s : MempoolState, Reaches (MempoolStep nodeParams (fun _ => false) {tx | tx ∈ pooledTx::wideBlock 110000 122})
      (fun _ _ => True) ⟨tipCoins,CTxMemPool.empty⟩ s ∧ ∃ e ∈ s.pool.mapTx, ∃ x ∈ e.prevouts,
        (∀ f ∈ s.pool.mapTx, f.txid ≠ x.txid) ∧ s.coins x = none := by
  have hkept := @wideBlock_kept 110000 122 (by decide) (by decide)
  obtain ⟨e,he,htx⟩ := map_eq_singleton_iff.mp pooledState_mapTx
  refine ⟨?_,?_,?_⟩
  · exact fun a ha b hb h => inj_on_of_nodup_map (wideBlock_nodup (by decide)) ha hb h
  · intro tx htx txin hi
    obtain ht | ht := mem_append.mp htx
    · obtain ⟨n,hn,rfl⟩ := mem_map.mp ht
      have hn := mem_range.mp hn
      obtain ⟨h0,hid⟩ := (@wideTx_facts 110000 n (by omega)).2 txin hi
      have hcond : txin.prevout.n = 0 ∧ (txin.prevout.txid.toNat = 7 ∨
          (2000 ≤ txin.prevout.txid.toNat ∧ txin.prevout.txid.toNat < 3000)) := ⟨h0,by omega⟩
      rw [tipCoins,if_pos hcond]
      rfl
    · rw [mem_singleton.mp ht] at hi
      rw [mem_singleton.mp hi]
      rfl
  · have hfirst : MempoolStep nodeParams (fun _ => false) {tx | tx ∈ pooledTx::wideBlock 110000 122}
        ⟨tipCoins,CTxMemPool.empty⟩ (.accept 101 pooledTx 0 none) pooledState :=
      ⟨fun tx htx => mem_singleton.mp htx ▸ mem_cons_self,rfl⟩
    have hsecond : MempoolStep nodeParams (fun _ => false) {tx | tx ∈ pooledTx::wideBlock 110000 122} pooledState
        (.activate (wideStep 110000 122)) ⟨tipCoins.connect 101 (wideBlock 110000 122),
          pooledState.pool.removeForBlock nodeParams (wideBlock 110000 122)⟩ := by
      refine ⟨fun tx htx => mem_cons_of_mem _ ?_,?_⟩
      · simpa only [MempoolEvent.txs,wideStep,flatMap_nil,flatMap_cons,append_nil,nil_append] using htx
      · exact wideStep_next pooledState
    refine ⟨_,(Reaches.refl.tail trivial hfirst).tail trivial hsecond,e,?_,⟨7,0⟩,?_,?_,?_⟩
    · rw [hkept,he]
      exact mem_singleton_self e
    · rw [CTxMemPoolEntry.prevouts,htx]
      exact mem_singleton_self _
    · rw [hkept,he]
      intro f hf
      rw [mem_singleton.mp hf,CTxMemPoolEntry.txid,htx]
      decide
    · have hspent : (⟨7,0⟩ : COutPoint) ∈ blockSpent (wideBlock 110000 122) := by
        apply mem_flatMap.mpr
        refine ⟨minedTx,?_,by decide⟩
        exact wideRest_subset mem_cons_self
      have hnone : tipCoins.connect 101 (wideBlock 110000 122) ⟨7,0⟩ = none := by
        unfold CoinMap.connect CoinMap.remove
        rw [if_pos hspent]
      exact hnone

private def childTx : CTransaction := ⟨[⟨⟨20,0⟩,[],0⟩],[⟨1,[0x51],none⟩],1,0,21⟩

private def smallStep : ChainStep :=
  ⟨[],[(⟨⟨⟨1,100,0,0,0,0,101⟩,[rewardTx,pooledTx]⟩,⟨[]⟩,101⟩,.connected)],102,0,320000000,0⟩

/-- A parent and its child are accepted, and a block takes the parent: the child stays and spends a coin of the tip. -/
theorem mempool_checked_sample : ∃ s : MempoolState, s.pool.mapTx.map CTxMemPoolEntry.tx = [childTx] ∧
    (s.coins ⟨20,0⟩).isSome = true ∧ Checked nodeParams.unit s.coins s.pool := by
  have hids : ([pooledTx,rewardTx,childTx].map CTransaction.getId).Nodup := by decide
  let next := mempoolNext nodeParams (fun _ => false)
  have hstep : ∀ s e, (∀ tx ∈ e.txs, tx ∈ [pooledTx,rewardTx,childTx]) →
      MempoolStep nodeParams (fun _ => false) {tx | tx ∈ [pooledTx,rewardTx,childTx]} s e (next s e) :=
    fun s e h => ⟨h,rfl⟩
  have hguard : mempoolGuard nodeParams (next pooledState (.accept 101 childTx 0 none)) (.activate smallStep) := by
    intro _ b hb
    rw [mem_singleton.mp hb]
    refine ⟨?_,by decide⟩
    show queueUsage (blockQueue [rewardTx,pooledTx]) ≤ _
    decide +kernel
  have run := ((Reaches.refl.tail trivial (hstep ⟨tipCoins,CTxMemPool.empty⟩ (.accept 101 pooledTx 0 none) (by decide))).tail
    trivial (hstep pooledState (.accept 101 childTx 0 none) (by decide))).tail hguard
    (hstep _ (.activate smallStep) (by decide))
  exact ⟨_,by decide +kernel,by decide +kernel,
    mempool_checked nodeParams (fun _ => false) (fun a ha b hb h => inj_on_of_nodup_map hids ha hb h) run⟩
end Overflow
end BitfiniteCore
