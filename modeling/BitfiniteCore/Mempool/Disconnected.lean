import BitfiniteCore.Mempool.Check

/-! # The order of disconnected transactions -/

namespace BitfiniteCore
open TopologicalOrder List

section Definitions

def ParentOf (a b : CTransaction) : Prop := ∃ txin ∈ b.vin, txin.prevout.txid = a.getId

def requeueLevel (s : List TxId × List CTransaction) : List TxId × List CTransaction :=
  let r := (txidSet s.1).foldl requeueParent (s.2,[])
  (r.2,r.1)

def LoopEnds (fuel : Nat) (parents : List TxId) (queue : List CTransaction) : Prop :=
  ∃ k, (requeueLevel^[k] (parents,queue)).1 = [] ∧
    requeueParents fuel parents queue = (requeueLevel^[k] (parents,queue)).2

def CallEnds (vtx queue : List CTransaction) : Prop :=
  ∀ pre tx post, vtx.reverse = pre++tx::post → tx ∉ pre.foldl addQueued queue →
    LoopEnds ((pre.foldl addQueued queue).length+1) (tx.vin.map fun txin => txin.prevout.txid)
      (pre.foldl addQueued queue++[tx])

/-- A call of `addForBlock`, with the limits at its time. -/
structure QueueCall where
  limits : QueueLimits
  vtx : List CTransaction

namespace QueueCall

def filled (queue : List CTransaction) (c : QueueCall) : List CTransaction := c.vtx.reverse.foldl addQueued queue

def run (queue : List CTransaction) (c : QueueCall) : List CTransaction := (addForBlock c.limits c.vtx queue []).1
end QueueCall

def QueueFits (limits : QueueLimits) (pool : List CTransaction) (calls : List QueueCall) : Prop :=
  FitsQueue limits pool.reverse ∧ ∀ pre c post, calls = pre++c::post →
    c.limits.usage (c.filled (pre.foldl QueueCall.run (importMempool limits pool []))) ≤ c.limits.maxUsage
end Definitions

section Loop

variable {U : Set CTransaction} {rank : CTransaction → Nat} {n : Nat} {ids new : List TxId}
  {queue : List CTransaction}

structure Requeueing (U : Set CTransaction) (rank : CTransaction → Nat) (n : Nat) (ids new : List TxId)
    (queue : List CTransaction) : Prop where
  known : ∀ tx ∈ queue, tx ∈ U
  nodup : queue.Nodup
  order : queue.Pairwise fun a b => ParentOf a b → a.getId ∈ ids ∨ a.getId ∈ new
  ranked : ∀ a ∈ queue, ∀ b ∈ queue, ParentOf a b → rank a < rank b
  low : ∀ a ∈ queue, a.getId ∈ ids → rank a < n
  lower : ∀ a ∈ queue, a.getId ∈ new → rank a+1 < n

theorem Requeueing.step (hU : DistinctIds U) {txid : TxId} (h : Requeueing U rank n (txid::ids) new queue) :
    Requeueing U rank n ids (requeueParent (queue,new) txid).2 (requeueParent (queue,new) txid).1 := by
  have hids : ∀ a ∈ queue, a.getId ∈ ids → rank a < n := fun a ha hi => h.low a ha (mem_cons_of_mem _ hi)
  unfold requeueParent
  split
  · rename_i hnone
    refine ⟨h.known,h.nodup,h.order.imp_of_mem ?_,h.ranked,hids,h.lower⟩
    intro a b ha _ hab hp
    have hne : a.getId ≠ txid := by simpa using find?_eq_none.mp hnone a ha
    exact (hab hp).imp_left fun hmem => (mem_cons.mp hmem).resolve_left hne
  · rename_i ptx hfind
    have hid : ptx.getId = txid := by simpa using find?_some hfind
    have hptx := mem_of_find?_eq_some hfind
    have hmem := requeue_mem hU h.known hfind
    have hnew : ∀ {a}, a.getId ∈ ptx.vin.map (fun txin => txin.prevout.txid) ↔ ParentOf a ptx := mem_map
    refine ⟨fun t ht => h.known t ((hmem t).mp ht),?_,?_,?_,fun a ha => hids a ((hmem a).mp ha),?_⟩
    · rw [nodup_append']
      refine ⟨h.nodup.filter _,nodup_singleton _,?_⟩
      rw [disjoint_singleton]
      simp [hid]
    · rw [pairwise_append]
      refine ⟨(h.order.filter _).imp_of_mem ?_,pairwise_singleton _ _,?_⟩
      · intro a b ha _ hab hp
        have hne : a.getId ≠ txid := by simpa using (mem_filter.mp ha).2
        rw [mem_append]
        exact (hab hp).imp (fun hmem => (mem_cons.mp hmem).resolve_left hne) .inl
      · intro a _ b hb hp
        rw [mem_singleton.mp hb] at hp
        exact .inr (mem_append_right _ (hnew.mpr hp))
    · exact fun a ha b hb => h.ranked a ((hmem a).mp ha) b ((hmem b).mp hb)
    · intro a ha hi
      rcases mem_append.mp hi with hi | hi
      · exact h.lower a ((hmem a).mp ha) hi
      · have hrank := h.ranked a ((hmem a).mp ha) ptx hptx (hnew.mp hi)
        have hlow := h.low ptx hptx (hid ▸ mem_cons_self)
        omega

theorem Requeueing.fold (hU : DistinctIds U) (h : Requeueing U rank n ids new queue) :
    Requeueing U rank n [] (ids.foldl requeueParent (queue,new)).2 (ids.foldl requeueParent (queue,new)).1 := by
  induction ids generalizing new queue with
  | nil => exact h
  | cons txid ids ih => exact ih (h.step hU)

theorem Requeueing.level (hU : DistinctIds U) (h : Requeueing U rank (n+1) ids [] queue) :
    Requeueing U rank n (requeueLevel (ids,queue)).1 [] (requeueLevel (ids,queue)).2 := by
  have hset : Requeueing U rank (n+1) (txidSet ids) [] queue := by
    refine ⟨h.known,h.nodup,h.order.imp fun hab hp => ?_,h.ranked,fun a ha hi => h.low a ha (mem_txidSet.mp hi),h.lower⟩
    exact (hab hp).imp_left mem_txidSet.mpr
  have hfold := hset.fold hU
  refine ⟨hfold.known,hfold.nodup,hfold.order.imp fun hab hp => ?_,hfold.ranked,?_,fun a _ hi => nomatch hi⟩
  · exact .inl ((hab hp).resolve_left not_mem_nil)
  · intro a ha hi
    exact Nat.lt_of_succ_lt_succ (hfold.lower a ha hi)

theorem Requeueing.loop (hU : DistinctIds U) {fuel : Nat} (hfuel : n < fuel) (h : Requeueing U rank n ids [] queue) :
    LoopEnds fuel ids queue ∧ (requeueParents fuel ids queue).Nodup ∧
      (requeueParents fuel ids queue).Pairwise fun a b => ¬ParentOf a b := by
  -- with nothing of the queue left to move, the round is the last one
  have hlast : ∀ {fuel ids queue}, Requeueing U rank 0 ids [] queue →
      LoopEnds (fuel+1) ids queue ∧ requeueParents (fuel+1) ids queue = queue := by
    intro fuel ids queue h
    have hnone : ∀ t ∈ queue, t.getId ∉ ids := fun t ht hi => Nat.not_lt_zero _ (h.low t ht hi)
    have hsame := requeueParents_unrelated (fuel+1) ids hnone
    refine ⟨⟨1,?_⟩,hsame⟩
    rw [hsame]
    simp [requeueLevel,requeueFold_unrelated (txidSet ids) fun t ht hi => hnone t ht (mem_txidSet.mp hi)]
  induction n generalizing fuel ids queue with
  | zero =>
    obtain ⟨fuel,rfl⟩ := Nat.exists_eq_succ_of_ne_zero (by omega : fuel ≠ 0)
    obtain ⟨hends,hsame⟩ := hlast h
    rw [hsame]
    exact ⟨hends,h.nodup,h.order.imp_of_mem fun ha _ hab hp =>
      (hab hp).elim (fun hi => Nat.not_lt_zero _ (h.low _ ha hi)) nofun⟩
  | succ n ih =>
    obtain ⟨fuel,rfl⟩ := Nat.exists_eq_succ_of_ne_zero (by omega : fuel ≠ 0)
    by_cases hne : ids = []
    · subst hne
      exact ⟨⟨0,rfl,rfl⟩,h.nodup,h.order.imp fun hab hp => (hab hp).elim (nomatch ·) (nomatch ·)⟩
    · obtain ⟨⟨k,hk,heq⟩,hrest⟩ := ih (by omega : n < fuel) (h.level hU)
      have hsucc : requeueParents (fuel+1) ids queue =
        requeueParents fuel (requeueLevel (ids,queue)).1 (requeueLevel (ids,queue)).2 := requeueParents_succ fuel hne queue
      rw [Nat.succ_eq_add_one,hsucc]
      exact ⟨⟨k+1,hk,hsucc.trans heq⟩,hrest⟩
end Loop

section Queue

structure SpendsAcyclic (U : Set CTransaction) : Prop where
  distinct : DistinctIds U
  acyclic : ∀ l : List CTransaction, (∀ tx ∈ l, tx ∈ U) → Acyclic l ParentOf

structure ChildrenFirst (U : Set CTransaction) (queue : List CTransaction) : Prop where
  known : ∀ tx ∈ queue, tx ∈ U
  nodup : queue.Nodup
  order : queue.Pairwise fun a b => ¬ParentOf a b

variable {U : Set CTransaction} {queue : List CTransaction}

theorem ChildrenFirst.topological (h : ChildrenFirst U queue) : Topological ParentOf queue.reverse :=
  pairwise_reverse.mpr h.order

theorem ChildrenFirst.sublist {l : List CTransaction} (h : ChildrenFirst U queue) (hl : l.Sublist queue) :
    ChildrenFirst U l :=
  ⟨fun tx ht => h.known tx (hl.subset ht),h.nodup.sublist hl,h.order.sublist hl⟩

theorem exists_rank {l : List CTransaction} (h : Acyclic l ParentOf) : ∃ rank : CTransaction → Nat,
    (∀ a ∈ l, rank a < l.length) ∧ ∀ a ∈ l, ∀ b ∈ l, ParentOf a b → rank a < rank b := by
  obtain ⟨σ,hperm,htop⟩ := h.exists_topological
  refine ⟨σ.idxOf,fun a ha => hperm.length_eq ▸ idxOf_lt_length_iff.mpr (hperm.mem_iff.mpr ha),?_⟩
  intro a ha b hb hp
  have hia := idxOf_lt_length_iff.mpr (hperm.mem_iff.mpr ha)
  have hib := idxOf_lt_length_iff.mpr (hperm.mem_iff.mpr hb)
  by_contra hle
  rcases Nat.lt_or_eq_of_le (Nat.le_of_not_lt hle) with hlt | heq
  · have hno := pairwise_iff_getElem.mp htop _ _ hib hia hlt
    rw [getElem_idxOf,getElem_idxOf] at hno
    exact hno hp
  · obtain rfl : b = a := idxOf_inj (hperm.mem_iff.mpr hb) |>.mp heq
    exact h b (.single ⟨hb,hb,hp⟩)

theorem ChildrenFirst.addQueued (hU : SpendsAcyclic U) (h : ChildrenFirst U queue) {tx : CTransaction} (htx : tx ∈ U) :
    ChildrenFirst U (addQueued queue tx) ∧ (tx ∉ queue →
      LoopEnds (queue.length+1) (tx.vin.map fun txin => txin.prevout.txid) (queue++[tx])) := by
  have hknown : ∀ t ∈ queue++[tx], t ∈ U := by
    simpa [or_imp,forall_and,htx] using h.known
  by_cases hmem : tx ∈ queue
  · have hsame : BitfiniteCore.addQueued queue tx = queue := if_pos (any_eq_true.mpr ⟨tx,hmem,by simp⟩)
    rw [hsame]
    exact ⟨h,fun hnot => absurd hmem hnot⟩
  · have hnew : BitfiniteCore.addQueued queue tx = requeueParents (queue.length+1)
        (tx.vin.map fun txin => txin.prevout.txid) (queue++[tx]) := by
      refine if_neg fun hany => hmem ?_
      obtain ⟨q,hq,hid⟩ := any_eq_true.mp hany
      exact hU.distinct (h.known q hq) htx (by simpa using hid) ▸ hq
    obtain ⟨rank,hlt,hrank⟩ := exists_rank (hU.acyclic _ hknown)
    have hparent : ∀ {a}, a.getId ∈ tx.vin.map (fun txin => txin.prevout.txid) ↔ ParentOf a tx := mem_map
    have hstart : Requeueing U rank queue.length (tx.vin.map fun txin => txin.prevout.txid) [] (queue++[tx]) := by
      refine ⟨hknown,?_,?_,hrank,?_,fun a _ hi => nomatch hi⟩
      · rw [nodup_append']
        exact ⟨h.nodup,nodup_singleton _,disjoint_singleton.mpr hmem⟩
      · rw [pairwise_append]
        refine ⟨h.order.imp fun hab hp => absurd hp hab,pairwise_singleton _ _,?_⟩
        intro a _ b hb hp
        rw [mem_singleton.mp hb] at hp
        exact .inl (hparent.mpr hp)
      · intro a ha hi
        have hself : tx ∈ queue++[tx] := mem_append_right _ mem_cons_self
        have hless := hrank a ha tx hself (hparent.mp hi)
        have htop := hlt tx hself
        rw [length_append,length_singleton] at htop
        omega
    obtain ⟨hends,hnodup,horder⟩ := hstart.loop hU.distinct (Nat.lt_succ_self _)
    rw [hnew]
    exact ⟨⟨fun t ht => hknown t ((requeueParents_mem hU.distinct _ _ hknown t).mp ht),hnodup,horder⟩,fun _ => hends⟩

theorem ChildrenFirst.foldl (hU : SpendsAcyclic U) (h : ChildrenFirst U queue) {txs : List CTransaction}
    (htxs : ∀ tx ∈ txs, tx ∈ U) : ChildrenFirst U (txs.foldl BitfiniteCore.addQueued queue) := by
  induction txs generalizing queue with
  | nil => exact h
  | cons tx txs ih =>
    rw [forall_mem_cons] at htxs
    exact ih (h.addQueued hU htxs.1).1 htxs.2

theorem ChildrenFirst.callEnds (hU : SpendsAcyclic U) (h : ChildrenFirst U queue) {vtx : List CTransaction}
    (hvtx : ∀ tx ∈ vtx, tx ∈ U) : CallEnds vtx queue := by
  intro pre tx post hsplit
  have hall : ∀ t ∈ pre++tx::post, t ∈ U := by
    intro t ht
    rw [← hsplit] at ht
    exact hvtx t (mem_reverse.mp ht)
  have hpre : ∀ t ∈ pre, t ∈ U := fun t ht => hall t (mem_append_left _ ht)
  exact ((h.foldl hU hpre).addQueued hU (hall tx (by simp))).2

theorem dropOverflow_suffix (limits : QueueLimits) (queue pool : List CTransaction) :
    ∃ dropped, queue = dropped++(dropOverflow limits queue pool).1 ∧
      (limits.usage queue ≤ limits.maxUsage → dropped = []) := by
  induction queue generalizing pool with
  | nil => exact ⟨[],rfl,fun _ => rfl⟩
  | cons tx queue ih =>
    unfold dropOverflow
    split
    · obtain ⟨dropped,heq,-⟩ := ih (removeRecursive [tx.getId] pool)
      exact ⟨tx::dropped,congrArg (tx::·) heq,fun hfits => absurd hfits (by omega)⟩
    · exact ⟨[],rfl,fun _ => rfl⟩

theorem QueueCall.filled_suffix (c : QueueCall) (queue : List CTransaction) : ∃ dropped,
    c.filled queue = dropped++c.run queue ∧ (c.limits.usage (c.filled queue) ≤ c.limits.maxUsage → dropped = []) :=
  dropOverflow_suffix c.limits (c.filled queue) []

theorem importMempool_suffix (limits : QueueLimits) (pool : List CTransaction) : ∃ dropped,
    blockQueue pool.reverse = dropped++importMempool limits pool [] ∧ (FitsQueue limits pool.reverse → dropped = []) := by
  obtain ⟨d,hd,hfits⟩ := dropOverflow_suffix limits (blockQueue pool.reverse) []
  have himport : importMempool limits pool [] =
      (dropOverflow limits (dropOverflow limits (blockQueue pool.reverse) []).1 []).1 := by
    unfold importMempool
    rw [append_nil]
    rfl
  obtain ⟨d',hd',hfits'⟩ := dropOverflow_suffix limits (dropOverflow limits (blockQueue pool.reverse) []).1 []
  rw [← himport] at hd'
  refine ⟨d++d',?_,fun h => ?_⟩
  · rw [append_assoc]
    exact hd.trans (congrArg (d++·) hd')
  · rw [hfits h,nil_append] at hd ⊢
    rw [← hd] at hfits'
    exact hfits' h

/-- What the queue holds if the limits were kept (`fits`) and blocks came from the tip down (`down`). -/
structure QueueOf (U : Set CTransaction) (fits down : Prop) (passed queue : List CTransaction) : Prop where
  first : ChildrenFirst U queue
  sub : ∀ t ∈ queue, t ∈ passed
  whole : fits → ∀ t ∈ passed, t ∈ queue
  left : down → ∀ t ∈ passed, t ∉ queue → ∀ child ∈ queue, ¬ParentOf t child

theorem QueueOf.suffix {fits down : Prop} {passed filled dropped : List CTransaction}
    (h : QueueOf U fits down passed filled) (heq : filled = dropped++queue) (fits' : Prop)
    (hfits : fits' → fits ∧ dropped = []) : QueueOf U fits' down passed queue := by
  subst heq
  refine ⟨h.first.sublist (sublist_append_right _ _),fun t ht => h.sub t (mem_append_right _ ht),?_,?_⟩
  · intro hf t ht
    obtain ⟨hf,rfl⟩ := hfits hf
    exact h.whole hf t ht
  · intro hdown t ht hnot child hchild
    by_cases hdropped : t ∈ dropped
    · exact (pairwise_append.mp h.first.order).2.2 t hdropped child hchild
    · refine h.left hdown t ht (fun hmem => ?_) child (mem_append_right _ hchild)
      exact (mem_append.mp hmem).elim hdropped hnot

theorem QueueOf.filled (hU : SpendsAcyclic U) {fits down : Prop} {passed : List CTransaction}
    (h : QueueOf U fits down passed queue) (c : QueueCall) (hvtx : ∀ tx ∈ c.vtx, tx ∈ U) (down' : Prop)
    (hdown : down' → down ∧ ∀ t ∈ passed, ∀ tx ∈ c.vtx, ¬ParentOf t tx) :
    QueueOf U fits down' (passed++c.vtx) (c.filled queue) := by
  have hrev : ∀ tx ∈ c.vtx.reverse, tx ∈ U := fun tx ht => hvtx tx (mem_reverse.mp ht)
  have hmem : ∀ t, t ∈ c.filled queue ↔ t ∈ queue ∨ t ∈ c.vtx := fun t => by
    rw [QueueCall.filled,foldl_addQueued_mem hU.distinct _ hrev h.first.known,mem_reverse]
  refine ⟨h.first.foldl hU hrev,fun t ht => ?_,fun hf t ht => ?_,fun hd t ht hnot child hchild => ?_⟩
  · rw [mem_append]
    exact ((hmem t).mp ht).imp_left (h.sub t)
  · rw [hmem]
    exact (mem_append.mp ht).imp_left (h.whole hf t)
  · rw [hmem,not_or] at hnot
    have hold : t ∈ passed := (mem_append.mp ht).resolve_right hnot.2
    rcases (hmem child).mp hchild with hchild | hchild
    · exact h.left (hdown hd).1 t hold hnot.1 child hchild
    · exact (hdown hd).2 t hold child hchild

def TipDownwards (pool : List CTransaction) (calls : List QueueCall) : Prop :=
  (pool::calls.map QueueCall.vtx).Pairwise fun above below => ∀ t ∈ above, ∀ tx ∈ below, ¬ParentOf t tx

theorem queueOf_calls (hU : SpendsAcyclic U) (limits : QueueLimits) {pool : List CTransaction}
    (hpool : ∀ tx ∈ pool, tx ∈ U) {calls : List QueueCall} (hcalls : ∀ c ∈ calls, ∀ tx ∈ c.vtx, tx ∈ U) :
    QueueOf U (QueueFits limits pool calls) (TipDownwards pool calls) (pool++calls.flatMap QueueCall.vtx)
      (calls.foldl QueueCall.run (importMempool limits pool [])) := by
  induction calls using reverseRecOn with
  | nil =>
    obtain ⟨dropped,heq,hfits⟩ := importMempool_suffix limits pool
    have hempty : QueueOf U True True [] [] :=
      ⟨⟨forall_mem_nil _,nodup_nil,List.Pairwise.nil⟩,forall_mem_nil _,fun _ => forall_mem_nil _,
        fun _ => forall_mem_nil _⟩
    have hfull := hempty.filled hU ⟨limits,pool.reverse⟩ (fun tx ht => hpool tx (mem_reverse.mp ht))
      (TipDownwards pool []) fun _ => ⟨trivial,forall_mem_nil _⟩
    have hqueue := hfull.suffix heq (QueueFits limits pool []) fun hf => ⟨trivial,hfits hf.1⟩
    refine ⟨hqueue.first,fun t ht => ?_,fun hf t ht => hqueue.whole hf t ?_,fun hd t ht => hqueue.left hd t ?_⟩
    · simpa using hqueue.sub t ht
    · simpa using ht
    · simpa using ht
  | append_singleton calls c ih =>
    have hlast : ∀ tx ∈ c.vtx, tx ∈ U := hcalls c (by simp)
    have hqueue := ih fun c' hc' => hcalls c' (mem_append_left _ hc')
    obtain ⟨dropped,heq,hfits⟩ := c.filled_suffix (calls.foldl QueueCall.run (importMempool limits pool []))
    have hdown : TipDownwards pool (calls++[c]) → TipDownwards pool calls ∧
        ∀ t ∈ pool++calls.flatMap QueueCall.vtx, ∀ tx ∈ c.vtx, ¬ParentOf t tx := by
      intro h
      unfold TipDownwards at h
      rw [map_append,← cons_append,pairwise_append] at h
      refine ⟨h.1,fun t ht => ?_⟩
      have hcross := fun l hl => h.2.2 l hl c.vtx (by simp)
      rcases mem_append.mp ht with ht | ht
      · exact hcross pool mem_cons_self t ht
      · obtain ⟨c',hc',ht⟩ := mem_flatMap.mp ht
        exact hcross c'.vtx (mem_cons_of_mem _ (mem_map_of_mem hc')) t ht
    have hfull := (hqueue.filled hU c hlast _ hdown).suffix heq (QueueFits limits pool (calls++[c])) fun hf =>
        ⟨⟨hf.1,fun pre c' post h => hf.2 pre c' (post++[c]) (by simp [h])⟩,hfits (hf.2 calls c [] rfl)⟩
    rw [foldl_append,flatMap_append,← append_assoc]
    simpa using hfull

/-- Transactions are queued once, with their parents behind them, and what is dropped has no child in the queue. -/
theorem disconnected_in_dependency_order (hU : SpendsAcyclic U) (limits : QueueLimits) (pool : List CTransaction)
    (hpool : ∀ tx ∈ pool, tx ∈ U) (calls : List QueueCall) (hcalls : ∀ c ∈ calls, ∀ tx ∈ c.vtx, tx ∈ U) :
    let queue := calls.foldl QueueCall.run (importMempool limits pool [])
    CallEnds pool.reverse [] ∧ Topological ParentOf queue.reverse ∧ (queue.map CTransaction.getId).Nodup ∧
    (QueueFits limits pool calls → ∀ tx, tx ∈ queue ↔ tx ∈ pool ∨ ∃ c ∈ calls, tx ∈ c.vtx) ∧
    (TipDownwards pool calls → ∀ tx, tx ∈ pool ∨ (∃ c ∈ calls, tx ∈ c.vtx) → tx ∉ queue →
      ∀ child ∈ queue, ¬ParentOf tx child) ∧
    ∀ c : QueueCall, (∀ tx ∈ c.vtx, tx ∈ U) → CallEnds c.vtx queue ∧
      Topological ParentOf (c.filled queue).reverse ∧ ∃ dropped, c.filled queue = dropped++c.run queue := by
  intro queue
  have h := queueOf_calls hU limits hpool hcalls
  have hpassed : ∀ tx, tx ∈ pool++calls.flatMap QueueCall.vtx ↔ tx ∈ pool ∨ ∃ c ∈ calls, tx ∈ c.vtx := by
    simp
  have hnil : ChildrenFirst U [] := ⟨forall_mem_nil _,nodup_nil,List.Pairwise.nil⟩
  refine ⟨hnil.callEnds hU fun tx ht => hpool tx (mem_reverse.mp ht),h.first.topological,?_,?_,?_,?_⟩
  · exact List.Nodup.map_on (fun a ha b hb => hU.distinct (h.first.known a ha) (h.first.known b hb)) h.first.nodup
  · exact fun hfits tx => ⟨fun ht => (hpassed tx).mp (h.sub tx ht),fun ht => h.whole hfits tx ((hpassed tx).mpr ht)⟩
  · exact fun hdown tx ht => h.left hdown tx ((hpassed tx).mpr ht)
  · intro c hc
    obtain ⟨dropped,heq,-⟩ := c.filled_suffix queue
    exact ⟨h.first.callEnds hU hc,(h.first.foldl hU fun tx ht => hc tx (mem_reverse.mp ht)).topological,dropped,heq⟩

private instance : DecidableRel ParentOf := fun a b =>
  inferInstanceAs (Decidable (∃ txin ∈ b.vin, txin.prevout.txid = a.getId))

private def spending (hash : TxId) (parents : List TxId) : CTransaction :=
  ⟨parents.map fun txid => ⟨⟨txid,0⟩,[],0⟩,[],1,0,hash⟩

/-- A chain of three in canonical order, the child first, and a transaction on two of them that waits in the pool. -/
private def chainBlock : List CTransaction := [spending 3 [5],spending 5 [7],spending 7 []]

private def pooledChild : CTransaction := spending 9 [5,3]

private theorem chainBlock_acyclic : SpendsAcyclic {tx | tx ∈ pooledChild::chainBlock} := by
  have hids : ∀ a ∈ pooledChild::chainBlock, ∀ b ∈ pooledChild::chainBlock, a.getId = b.getId → a = b := by
    decide
  have hrank : ∀ a ∈ pooledChild::chainBlock, ∀ b ∈ pooledChild::chainBlock, ParentOf a b →
      [7,5,3,9].idxOf a.hash.toNat < [7,5,3,9].idxOf b.hash.toNat := by
    decide
  exact ⟨fun a ha b hb h => hids a ha b hb h,fun l hl => acyclic_of_rank l (fun tx => [7,5,3,9].idxOf tx.hash.toNat)
    fun a ha b hb => hrank a (hl a ha) b (hl b hb)⟩

/-- The parents that the block brings first are moved behind their children, the lowest one twice. -/
theorem disconnected_in_dependency_order_chain :
    [⟨⟨fun _ => 0,0⟩,chainBlock⟩].foldl QueueCall.run (importMempool ⟨fun _ => 0,0⟩ [pooledChild] []) =
      [pooledChild,spending 3 [5],spending 5 [7],spending 7 []] ∧
    Topological ParentOf ([⟨⟨fun _ => 0,0⟩,chainBlock⟩].foldl QueueCall.run
      (importMempool ⟨fun _ => 0,0⟩ [pooledChild] [])).reverse :=
  ⟨by decide,(disconnected_in_dependency_order chainBlock_acyclic ⟨fun _ => 0,0⟩ [pooledChild] (by simp)
    [⟨⟨fun _ => 0,0⟩,chainBlock⟩] (by simp +contextual)).2.1⟩
end Queue
end BitfiniteCore
