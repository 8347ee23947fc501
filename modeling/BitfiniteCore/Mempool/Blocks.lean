import BitfiniteCore.Mempool.Operations
import BitfiniteCore.Mempool.Unwind

/-! # The pool and the chain -/

namespace BitfiniteCore
open List

section Definitions

/-- The constants of the pool and the checks that look at one transaction only. -/
structure MempoolParams where
  unit : Nat
  txSize : CTransaction → Nat
  txUsage : CTransaction → Nat
  accepts : CoinMap → CTxMemPool → CTransaction → Bool
  size : CTxMemPool.SizePolicy
  limits : QueueLimits

def memPoolHeight : Nat := 2^31-1

namespace CTxMemPool

/-- `CCoinsViewMemPool::GetCoin` -/
def getCoin (coins : CoinMap) (p : CTxMemPool) (x : COutPoint) : Option Coin :=
  match p.mapTx.find? fun e => e.txid == x.txid with
  | some e => e.tx.vout[x.n]?.map fun out => Coin.ofOutput out memPoolHeight false
  | none => coins x

variable (params : MempoolParams)

def entryOf (tx : CTransaction) (nAcceptTime : Int) : CTxMemPoolEntry :=
  ⟨tx,0,nAcceptTime,params.txSize tx,params.txUsage tx,0⟩

/-- The size limit and the oldest time allowed, unless limits are bypassed. -/
abbrev AcceptLimits := Option (Nat × Int)

def acceptToMemoryPool (coins : CoinMap) (nSpendHeight : Nat) (tx : CTransaction) (nAcceptTime : Int)
    (limits : AcceptLimits) (p : CTxMemPool) : CTxMemPool × Bool :=
  match checkRegularTransaction tx with
  | .error _ => (p,false)
  | .ok _ =>
    if tx.getId ∈ p.txids then (p,false)
    else if tx.vin.any fun txin => (p.mapNextTx txin.prevout).isSome then (p,false)
    else if !tx.vin.all fun txin => (p.getCoin coins txin.prevout).isSome then (p,false)
    else match checkTxInputs tx (fun x => (p.getCoin coins x).getD Coin.null) nSpendHeight with
    | .error _ => (p,false)
    | .ok _ =>
      if !params.accepts coins p tx then (p,false)
      -- no children before parents
      else if p.spentKeys.any fun x => x.txid == tx.getId then (p,false)
      else
        let p := p.addUnchecked params.unit (entryOf params tx nAcceptTime)
        match limits with
        | none => (p,true)
        | some (limit,time) =>
          let p := p.limitSize params.unit params.size limit time
          (p,decide (tx.getId ∈ p.txids))

def dropOverflow : List CTransaction → CTxMemPool → List CTransaction × CTxMemPool
  | [], p => ([],p)
  | tx::queue, p =>
    if params.limits.usage (tx::queue) > params.limits.maxUsage then
      dropOverflow queue (p.removeRecursive params.unit tx.getId)
    else (tx::queue,p)

def addForBlock (vtx queue : List CTransaction) (p : CTxMemPool) : List CTransaction × CTxMemPool :=
  dropOverflow params (vtx.reverse.foldl addQueued queue) p

def removeForBlockTx (p : CTxMemPool) (tx : CTransaction) : CTxMemPool :=
  if tx.getId ∈ p.txids then p.removeStaged params.unit [tx.getId] else p.removeConflicts params.unit tx

def removeForBlock (vtx : List CTransaction) (p : CTxMemPool) : CTxMemPool :=
  if p.mapTx.isEmpty && p.mapDeltas.isEmpty then p
  else
    let (queuedTx,p) := addForBlock params vtx [] p
    let p := queuedTx.reverse.foldl (removeForBlockTx params) p
    { p with mapDeltas := p.mapDeltas.filter fun kv => !queuedTx.any fun tx => tx.getId == kv.1 }
end CTxMemPool

/-- What `ConnectBlock` leaves of the coins. -/
def CoinMap.connect (coins : CoinMap) (nHeight : Nat) (vtx : List CTransaction) : CoinMap :=
  (coins.withBlock nHeight vtx).remove (blockSpent vtx)

def blockQueue (vtx : List CTransaction) : List CTransaction := vtx.reverse.foldl addQueued []

def FitsQueue (limits : QueueLimits) (vtx : List CTransaction) : Prop := limits.usage (blockQueue vtx) ≤ limits.maxUsage
end Definitions

section Queue

def DistinctIds (U : Set CTransaction) : Prop := Set.InjOn CTransaction.getId U

variable {U : Set CTransaction} {queue : List CTransaction}

def requeueParent (r : List CTransaction × List TxId) (txid : TxId) : List CTransaction × List TxId :=
  match r.1.find? fun tx => tx.getId == txid with
  | none => r
  | some ptx => (r.1.filter (fun tx => tx.getId != txid)++[ptx],r.2++ptx.vin.map fun txin => txin.prevout.txid)

theorem requeueParents_succ (fuel : Nat) {parents : List TxId} (hne : parents ≠ []) (queue : List CTransaction) :
    requeueParents (fuel+1) parents queue = requeueParents fuel ((txidSet parents).foldl requeueParent (queue,[])).2
      ((txidSet parents).foldl requeueParent (queue,[])).1 := by
  cases parents with
  | nil => exact absurd rfl hne
  | cons txid parents => rfl

section

variable (hU : DistinctIds U)

include hU

theorem requeue_mem {ptx : CTransaction} {txid : TxId} (hq : ∀ tx ∈ queue, tx ∈ U)
    (hfind : queue.find? (fun tx => tx.getId == txid) = some ptx) (tx : CTransaction) :
    tx ∈ queue.filter (fun tx => tx.getId != txid)++[ptx] ↔ tx ∈ queue := by
  have hid : ptx.getId = txid := by simpa using find?_some hfind
  have hmem := mem_of_find?_eq_some hfind
  rw [mem_append,mem_singleton,mem_filter,bne_iff_ne]
  constructor
  · rintro (h | rfl)
    · exact h.1
    · exact hmem
  · intro h
    by_cases htx : tx.getId = txid
    · exact .inr (hU (hq tx h) (hq ptx hmem) (htx.trans hid.symm))
    · exact .inl ⟨h,htx⟩

theorem requeueFold_mem (ids : List TxId) (r : List CTransaction × List TxId)
    (hq : ∀ tx ∈ r.1, tx ∈ U) (tx : CTransaction) :
    tx ∈ (ids.foldl requeueParent r).1 ↔ tx ∈ r.1 := by
  induction ids generalizing r with
  | nil => exact Iff.rfl
  | cons txid ids ih =>
    rw [foldl_cons,requeueParent]
    split
    · exact ih r hq
    · rename_i ptx hfind
      have hmem := requeue_mem hU hq hfind
      exact (ih _ fun t ht => hq t ((hmem t).mp ht)).trans (hmem tx)

theorem requeueParents_mem (fuel : Nat) (parents : List TxId) (hq : ∀ tx ∈ queue, tx ∈ U)
    (tx : CTransaction) : tx ∈ requeueParents fuel parents queue ↔ tx ∈ queue := by
  induction fuel generalizing parents queue with
  | zero => exact Iff.rfl
  | succ fuel ih =>
    by_cases hne : parents = []
    · rw [hne]
      exact Iff.rfl
    · have hmem := requeueFold_mem hU (txidSet parents) (queue,[]) hq
      rw [requeueParents_succ fuel hne]
      exact (ih _ fun t ht => hq t ((hmem t).mp ht)).trans (hmem tx)

theorem addQueued_mem (hq : ∀ tx ∈ queue, tx ∈ U) {tx : CTransaction} (htx : tx ∈ U)
    (t : CTransaction) : t ∈ addQueued queue tx ↔ t ∈ queue ∨ t = tx := by
  unfold addQueued
  split
  · rename_i hany
    obtain ⟨q,hmem,hid⟩ := any_eq_true.mp hany
    obtain rfl := hU (hq q hmem) htx (by simpa using hid)
    exact ⟨.inl,fun h => h.elim id fun h => h ▸ hmem⟩
  · have hq' : ∀ t ∈ queue++[tx], t ∈ U := by
      intro t ht
      obtain ht | ht := mem_append.mp ht
      · exact hq t ht
      · exact mem_singleton.mp ht ▸ htx
    rw [requeueParents_mem hU _ _ hq',mem_append,mem_singleton]

theorem foldl_addQueued_mem (txs : List CTransaction) (htxs : ∀ tx ∈ txs, tx ∈ U)
    (hq : ∀ tx ∈ queue, tx ∈ U) (t : CTransaction) : t ∈ txs.foldl addQueued queue ↔ t ∈ queue ∨ t ∈ txs := by
  induction txs generalizing queue with
  | nil => simp
  | cons tx txs ih =>
    rw [forall_mem_cons] at htxs
    have hmem := addQueued_mem hU hq htxs.1
    rw [foldl_cons,ih htxs.2 (fun t ht => ((hmem t).mp ht).elim (hq t) fun h => h ▸ htxs.1),hmem,mem_cons,or_assoc]

theorem blockQueue_mem {vtx : List CTransaction} (hvtx : ∀ tx ∈ vtx, tx ∈ U) (t : CTransaction) :
    t ∈ blockQueue vtx ↔ t ∈ vtx := by
  unfold blockQueue
  rw [foldl_addQueued_mem hU _ (fun tx h => hvtx tx (mem_reverse.mp h)) (forall_mem_nil _),mem_reverse]
  exact or_iff_right nofun
end

end Queue

section RemoveForBlock

namespace CTxMemPool

variable {params : MempoolParams} {coins : CoinMap} {p p' : CTxMemPool} {U : Set CTransaction}

theorem isSome_insertAll {ps : List (COutPoint × Coin)} {x : COutPoint} (hx : x ∈ ps.map Prod.fst) (m : CoinMap) :
    (m.insertAll ps x).isSome = true := by
  induction ps generalizing m with
  | nil => cases hx
  | cons q ps ih =>
    obtain hx | hx := mem_cons.mp hx
    · apply @insertAll_isSome (Function.update m q.1 (some q.2)) ps
      rw [hx,Function.update_self]
      rfl
    · exact ih hx _

theorem mem_createdFrom {txid : TxId} {cb : Bool} {nHeight i n : Nat} {vout : List CTxOut} {out : CTxOut}
    (hn : vout[n]? = some out) (hu : out.scriptPubKey.isUnspendable = false) :
    (⟨txid,i+n⟩ : COutPoint) ∈ (createdFrom txid cb nHeight i vout).map Prod.fst := by
  induction vout generalizing i n with
  | nil => simp at hn
  | cons o vout ih =>
    unfold createdFrom
    cases n with
    | zero =>
      obtain rfl : o = out := by simpa using hn
      rw [if_neg (by simp [hu])]
      exact mem_cons_self
    | succ n =>
      have hrest := @ih (i+1) n (by simpa using hn)
      rw [show i+1+n = i+(n+1) by omega] at hrest
      split
      · exact hrest
      · exact mem_cons_of_mem _ hrest

theorem withBlock_isSome {nHeight : Nat} {vtx : List CTransaction} {tx : CTransaction} (htx : tx ∈ vtx) {x : COutPoint}
    (hid : tx.getId = x.txid) {out : CTxOut} (hn : tx.vout[x.n]? = some out)
    (hu : out.scriptPubKey.isUnspendable = false) : (coins.withBlock nHeight vtx x).isSome = true := by
  apply isSome_insertAll
  have hmem := @mem_createdFrom tx.getId tx.isCoinBase nHeight 0 x.n tx.vout out hn hu
  obtain ⟨q,hq,hqx⟩ := mem_map.mp hmem
  refine mem_map.mpr ⟨q,mem_flatMap.mpr ⟨tx,htx,hq⟩,hqx.trans ?_⟩
  rw [Nat.zero_add,hid]

def ConflictFree (tx : CTransaction) (p : CTxMemPool) : Prop := ∀ e ∈ p.mapTx, ∀ x ∈ tx.spent, x ∉ e.prevouts

theorem spent_subset (tx : CTransaction) : tx.spent ⊆ tx.vin.map CTxIn.prevout := by
  unfold CTransaction.spent
  split
  · exact nil_subset _
  · exact List.Subset.refl _

theorem Sound.removeForBlockTx {nHeight : Nat} {vtx : List CTransaction}
    (h : Sound params.unit (coins.withBlock nHeight vtx) p) (hU : DistinctIds U) (hp : ∀ e ∈ p.mapTx, e.tx ∈ U)
    {tx : CTransaction} (htx : tx ∈ vtx) (hin : tx ∈ U) :
    Reduces params.unit (coins.withBlock nHeight vtx) p (p.removeForBlockTx params tx) ∧
      ConflictFree tx (p.removeForBlockTx params tx) := by
  unfold CTxMemPool.removeForBlockTx
  split
  · rename_i hmem
    obtain ⟨f,hf,hid⟩ := mem_map.mp hmem
    have hftx : f.tx = tx := hU (hp f hf) hin hid
    have hmap := h.removeStaged_mapTx [tx.getId]
    refine ⟨⟨h.removeStaged (fun _ _ _ _ _ hc => hc) ?_,?_⟩,?_⟩
    · intro e he hk x hx g hg hgx hgone
      -- the outputs of the removed entry are outputs of the block
      obtain ⟨out,hn,hu⟩ := h.outputs e he x hx g hg hgx fun heg => hk (heg ▸ hgone)
      have hgtx : g.tx = tx := hU (hp g hg) hin (mem_singleton.mp hgone)
      rw [hgtx] at hn
      exact withBlock_isSome htx ((mem_singleton.mp hgone).symm.trans hgx) hn hu
    · rw [hmap]
      exact filter_subset_self _
    · intro e he x hx hxe
      rw [hmap] at he
      obtain ⟨he,hk⟩ := mem_filter.mp he
      have hxf : x ∈ f.prevouts := by
        unfold CTxMemPoolEntry.prevouts
        rw [hftx]
        exact spent_subset tx hx
      rw [h.spender_unique he hf hxe hxf] at hk
      exact of_decide_eq_true hk (mem_singleton.mpr hid)
  · rename_i hnot
    obtain ⟨h1,h2⟩ := h.removeConflicts hnot
    exact ⟨h1,fun e he x hx => h2 e he x (spent_subset tx hx)⟩

theorem ConflictFree.reduces {tx : CTransaction} (h : ConflictFree tx p) (hr : p'.mapTx ⊆ p.mapTx) :
    ConflictFree tx p' :=
  fun e he => h e (hr he)

theorem Sound.foldl_removeForBlockTx {nHeight : Nat} {vtx : List CTransaction} (txs : List CTransaction)
    (h : Sound params.unit (coins.withBlock nHeight vtx) p) (hU : DistinctIds U) (hp : ∀ e ∈ p.mapTx, e.tx ∈ U)
    (htxs : ∀ tx ∈ txs, tx ∈ vtx ∧ tx ∈ U) :
    Reduces params.unit (coins.withBlock nHeight vtx) p (txs.foldl (CTxMemPool.removeForBlockTx params) p) ∧
      ∀ tx ∈ txs, ConflictFree tx (txs.foldl (CTxMemPool.removeForBlockTx params) p) := by
  induction txs generalizing p with
  | nil => exact ⟨h.reduces,fun _ h => nomatch h⟩
  | cons tx txs ih =>
    rw [forall_mem_cons] at htxs
    obtain ⟨h1,h2⟩ := h.removeForBlockTx hU hp htxs.1.1 htxs.1.2
    obtain ⟨i1,i2⟩ := ih h1.toSound (fun e he => hp e (h1.subset he)) htxs.2
    exact ⟨h1.trans i1,forall_mem_cons.mpr ⟨h2.reduces i1.subset,i2⟩⟩

theorem dropOverflow_of_fits {queue : List CTransaction} (h : params.limits.usage queue ≤ params.limits.maxUsage)
    (p : CTxMemPool) : dropOverflow params queue p = (queue,p) := by
  cases queue with
  | nil => rfl
  | cons tx queue => exact if_neg (Nat.not_lt.mpr h)

section

variable (h : Sound params.unit coins p)

include h

theorem Sound.of_coins {coins' : CoinMap}
    (hkeep : ∀ e ∈ p.mapTx, ∀ x ∈ e.prevouts, (coins x).isSome = true → (coins' x).isSome = true) :
    Sound params.unit coins' p := by
  refine { h with consistent := h.consistent.of_coins ?_ }
  intro tx htx txin hi
  obtain ⟨e,he,rfl⟩ := mem_map.mp htx
  exact hkeep e he _ (mem_map_of_mem hi)

theorem Sound.dropOverflow (queue : List CTransaction) :
    Reduces params.unit coins p (dropOverflow params queue p).2 := by
  induction queue generalizing p with
  | nil => exact h.reduces
  | cons tx queue ih =>
    unfold CTxMemPool.dropOverflow
    split
    · have hred := h.removeRecursive tx.getId
      exact hred.trans (ih hred.toSound)
    · exact h.reduces

theorem Sound.foldl_empty (hempty : p.mapTx = []) (txs : List CTransaction) :
    Reduces params.unit coins p (txs.foldl (CTxMemPool.removeForBlockTx params) p) := by
  induction txs generalizing p with
  | nil => exact h.reduces
  | cons tx txs ih =>
    have hnot : tx.getId ∉ p.txids := by simp [txids,hempty]
    have hstep : p.removeForBlockTx params tx = p.removeConflicts params.unit tx := if_neg hnot
    have hred := (h.removeConflicts hnot).1
    rw [foldl_cons,hstep]
    exact hred.trans (ih hred.toSound (subset_nil.mp (hempty ▸ hred.subset)))

theorem Sound.removeForBlock_empty (hempty : p.mapTx = []) (vtx : List CTransaction) :
    Reduces params.unit coins p (p.removeForBlock params vtx) := by
  unfold CTxMemPool.removeForBlock
  split
  · exact h.reduces
  · have h1 := h.dropOverflow (vtx.reverse.foldl addQueued [])
    have h2 := h1.toSound.foldl_empty (subset_nil.mp (hempty ▸ h1.subset))
      (CTxMemPool.dropOverflow params (vtx.reverse.foldl addQueued []) p).1.reverse
    exact ⟨h2.toSound.withDeltas _,(h1.trans h2).subset⟩

omit h in
theorem connect_isSome {nHeight : Nat} {vtx : List CTransaction} {x : COutPoint}
    (h : (coins.withBlock nHeight vtx x).isSome = true) (hx : ∀ tx ∈ vtx, x ∉ tx.spent) :
    (coins.connect nHeight vtx x).isSome = true := by
  have hnot : x ∉ blockSpent vtx := by
    intro hmem
    obtain ⟨tx,htx,hxs⟩ := mem_flatMap.mp hmem
    exact hx tx htx hxs
  unfold CoinMap.connect CoinMap.remove
  rw [if_neg hnot]
  exact h

theorem Sound.removeForBlock (nHeight : Nat) {vtx : List CTransaction}
    (hU : DistinctIds U) (hp : ∀ e ∈ p.mapTx, e.tx ∈ U) (hvtx : ∀ tx ∈ vtx, tx ∈ U)
    (hfits : p.mapTx ≠ [] → FitsQueue params.limits vtx) :
    Reduces params.unit (coins.connect nHeight vtx) p (p.removeForBlock params vtx) := by
  by_cases hempty : p.mapTx = []
  · have hcoins : Sound params.unit (coins.connect nHeight vtx) p := h.of_coins (by simp [hempty])
    exact hcoins.removeForBlock_empty hempty vtx
  · have hblock : Sound params.unit (coins.withBlock nHeight vtx) p :=
      h.of_coins fun _ _ _ _ hc => insertAll_isSome _ hc
    have hmem := fun t => blockQueue_mem hU hvtx t
    obtain ⟨h1,h2⟩ := hblock.foldl_removeForBlockTx (blockQueue vtx).reverse hU hp
      (fun tx htx => ⟨(hmem tx).mp (mem_reverse.mp htx),hvtx tx ((hmem tx).mp (mem_reverse.mp htx))⟩)
    have hspent : Sound params.unit (coins.connect nHeight vtx)
        ((blockQueue vtx).reverse.foldl (CTxMemPool.removeForBlockTx params) p) := by
      apply h1.toSound.of_coins
      intro e he x hx hc
      exact connect_isSome hc fun tx htx hxs =>
        h2 tx (mem_reverse.mpr ((hmem tx).mpr htx)) e he x hxs hx
    have hadd : CTxMemPool.addForBlock params vtx [] p = (blockQueue vtx,p) := dropOverflow_of_fits (hfits hempty) p
    unfold CTxMemPool.removeForBlock
    rw [if_neg (by simp [hempty]),hadd]
    exact ⟨hspent.withDeltas _,h1.subset⟩
end

end CTxMemPool
end RemoveForBlock

section Accept

namespace CTxMemPool

variable {params : MempoolParams} {coins : CoinMap} {p : CTxMemPool} {tx : CTransaction}

theorem checkInputValues_spendable {accessCoin : COutPoint → Coin} {nSpendHeight : Nat} (vin : List CTxIn) {n v : Int}
    (h : checkInputValues accessCoin nSpendHeight n vin = .ok v) :
    ∀ txin ∈ vin, (accessCoin txin.prevout).out.scriptPubKey.isUnspendable = false := by
  induction vin generalizing n with
  | nil => exact forall_mem_nil _
  | cons txin vin ih =>
    rw [checkInputValues] at h
    split at h
    · cases h
    split at h
    · cases h
    split at h
    · cases h
    rename_i hu
    obtain ⟨m,-,h⟩ := except_bind_ok.mp h
    split at h
    · cases h
    exact forall_mem_cons.mpr ⟨Bool.eq_false_iff.mpr hu,ih h⟩

theorem checkTxInputs_spendable {accessCoin : COutPoint → Coin} {nSpendHeight : Nat} {fee : Int}
    (h : checkTxInputs tx accessCoin nSpendHeight = .ok fee) :
    ∀ txin ∈ tx.vin, (accessCoin txin.prevout).out.scriptPubKey.isUnspendable = false := by
  unfold checkTxInputs at h
  split at h
  · cases h
  obtain ⟨v,hv,-⟩ := except_bind_ok.mp h
  exact checkInputValues_spendable tx.vin hv

theorem available_of_getCoin {x : COutPoint} (h : (p.getCoin coins x).isSome = true) : Available coins p.txs x := by
  unfold getCoin at h
  split at h
  · rename_i e hfind
    have hid : e.txid = x.txid := by simpa using List.find?_some hfind
    rw [Option.isSome_map,Option.isSome_iff_exists] at h
    obtain ⟨out,hout⟩ := h
    exact .inl ⟨e.tx,mem_map_of_mem (List.mem_of_find?_eq_some hfind),hid,(List.getElem?_eq_some_iff.mp hout).1⟩
  · exact .inr h

theorem getCoin_entry {unit : Nat} (h : Indexed unit p) {f : CTxMemPoolEntry} (hf : f ∈ p.mapTx) {x : COutPoint}
    (hfx : f.txid = x.txid) :
    p.getCoin coins x = f.tx.vout[x.n]?.map fun out => Coin.ofOutput out memPoolHeight false := by
  unfold getCoin
  rw [← hfx,find_entry h.nodup hf]

/-- A transaction that passes the checks of `AcceptToMemoryPool`. -/
structure Acceptable (coins : CoinMap) (p : CTxMemPool) (tx : CTransaction) : Prop where
  fresh : tx.getId ∉ p.txids
  unspent : ∀ txin ∈ tx.vin, p.mapNextTx txin.prevout = none
  childless : ∀ x ∈ p.spentKeys, x.txid ≠ tx.getId
  available : ∀ txin ∈ tx.vin, (p.getCoin coins txin.prevout).isSome = true
  spendable : ∀ txin ∈ tx.vin, ((p.getCoin coins txin.prevout).getD Coin.null).out.scriptPubKey.isUnspendable = false

theorem Acceptable.insertable {e : CTxMemPoolEntry} (ha : Acceptable coins p e.tx) {unit : Nat} (h : Indexed unit p) :
    Insertable p e := by
  refine ⟨ha.fresh,forall_mem_map.mpr ha.unspent,fun x hx => ?_⟩
  by_contra hne
  exact ha.childless x (h.mem_spentKeys.mpr (Option.isSome_iff_ne_none.mpr hne)) hx

theorem Sound.addUnchecked {unit : Nat} (h : Sound unit coins p) {e : CTxMemPoolEntry} (ha : Acceptable coins p e.tx) :
    Sound unit coins (p.addUnchecked unit e) := by
  have hi := ha.insertable h.toIndexed
  have hsame := (addUnchecked_spec hi h.toIndexed).1
  refine { h.toIndexed.addUnchecked hi with consistent := ?_, outputs := ?_ }
  · have htxs : (p.addUnchecked unit e).txs = e.tx::p.txs := congrArg (List.map _) hsame.mapTx
    rw [htxs]
    refine ⟨fun txin hin => available_of_getCoin (ha.available txin hin),fun t ht heq => ?_,h.consistent⟩
    obtain ⟨f,hf,rfl⟩ := mem_map.mp ht
    exact ha.fresh (heq ▸ mem_map_of_mem hf)
  · unfold SpendsOutputs
    rw [hsame.mapTx]
    intro a hamem x hx f hf hfx hne
    obtain rfl | hold := mem_cons.mp hamem
    · obtain rfl | hfold := mem_cons.mp hf
      · exact absurd rfl hne
      · -- the coin that was checked is the output of the parent
        obtain ⟨txin,hin,rfl⟩ := mem_map.mp hx
        have hcoin := ha.available txin hin
        have hspend := ha.spendable txin hin
        rw [getCoin_entry h.toIndexed hfold hfx] at hcoin hspend
        rw [Option.isSome_map,Option.isSome_iff_exists] at hcoin
        obtain ⟨out,hout⟩ := hcoin
        rw [hout] at hspend
        exact ⟨out,hout,hspend⟩
    · obtain rfl | hfold := mem_cons.mp hf
      · refine absurd (mem_dedup.mpr ?_) (hi.notMem_prevouts h.toIndexed hold)
        have hmem := mem_map_of_mem (f := COutPoint.txid) hx
        rw [← hfx] at hmem
        exact hmem
      · exact h.outputs a hold x hx f hfold hfx hne

theorem Sound.acceptToMemoryPool (h : Sound params.unit coins p) (nSpendHeight : Nat) (tx : CTransaction)
    (nAcceptTime : Int) (limits : AcceptLimits) :
    Sound params.unit coins (p.acceptToMemoryPool params coins nSpendHeight tx nAcceptTime limits).1 ∧
      ∀ e ∈ (p.acceptToMemoryPool params coins nSpendHeight tx nAcceptTime limits).1.mapTx,
        e ∈ p.mapTx ∨ e.tx = tx := by
  have hsame : Sound params.unit coins p ∧ ∀ e ∈ p.mapTx, e ∈ p.mapTx ∨ e.tx = tx := ⟨h,fun _ => .inl⟩
  unfold CTxMemPool.acceptToMemoryPool
  split
  · exact hsame
  split
  · exact hsame
  rename_i hknown
  split
  · exact hsame
  rename_i hconflict
  split
  · exact hsame
  rename_i hcoins
  split
  · exact hsame
  rename_i hinputs
  split
  · exact hsame
  split
  · exact hsame
  rename_i hchildren
  have ha : Acceptable coins p (entryOf params tx nAcceptTime).tx := by
    refine ⟨hknown,?_,?_,?_,checkTxInputs_spendable hinputs⟩
    · intro txin hin
      by_contra hne
      exact hconflict (any_eq_true.mpr ⟨txin,hin,Option.isSome_iff_ne_none.mpr hne⟩)
    · intro x hx heq
      exact hchildren (any_eq_true.mpr ⟨x,hx,beq_iff_eq.mpr heq⟩)
    · rw [Bool.not_eq_true,Bool.not_eq_false'] at hcoins
      exact all_eq_true.mp hcoins
  have hadd := h.addUnchecked ha
  have hmem : ∀ e ∈ (p.addUnchecked params.unit (entryOf params tx nAcceptTime)).mapTx, e ∈ p.mapTx ∨ e.tx = tx := by
    rw [(addUnchecked_spec (ha.insertable h.toIndexed) h.toIndexed).1.mapTx]
    exact forall_mem_cons.mpr ⟨.inr rfl,fun _ => .inl⟩
  cases limits with
  | none => exact ⟨hadd,hmem⟩
  | some l =>
    obtain ⟨limit,time⟩ := l
    have hred := hadd.limitSize params.size limit time
    exact ⟨hred.toSound,fun e he => hmem e (hred.subset he)⟩
end CTxMemPool
end Accept
end BitfiniteCore
