import BitfiniteCore.Lib.Worklist
import BitfiniteCore.Mempool.Indexed

/-! # Removal with descendants -/

namespace BitfiniteCore
open List

section Operations

namespace CTxMemPool

def calculateDescendants (p : CTxMemPool) (setDescendants : List TxId) (entry : TxId) : List TxId :=
  worklist (p.mapLinks .children) (p.mapTx.length+1) (if entry ∈ setDescendants then [] else [entry]) setDescendants

def spentKeys (p : CTxMemPool) : List COutPoint :=
  (p.mapTx.flatMap CTxMemPoolEntry.prevouts).filter fun x => (p.mapNextTx x).isSome

def clearPrioritisation (txid : TxId) (p : CTxMemPool) : CTxMemPool :=
  { p with mapDeltas := p.mapDeltas.filter fun kv => kv.1 != txid }

def prioritiseTransaction (txid : TxId) (nFeeDelta : Int) (p : CTxMemPool) : CTxMemPool :=
  let delta := p.delta txid+nFeeDelta
  { p.clearPrioritisation txid with
    mapDeltas := (txid,delta)::(p.clearPrioritisation txid).mapDeltas
    mapTx := p.mapTx.map fun e => if e.txid = txid then { e with feeDelta := delta } else e }

/-- The entry identifiers are not reset and the priorities stay. -/
def clear (p : CTxMemPool) : CTxMemPool := { empty with nextEntryId := p.nextEntryId, mapDeltas := p.mapDeltas }

variable (unit : Nat)

def removeRecursive (txid : TxId) (p : CTxMemPool) : CTxMemPool :=
  let txToRemove := if txid ∈ p.txids then [txid]
    else (p.spentKeys.filter fun x => x.txid == txid).filterMap p.mapNextTx
  p.removeStaged unit (txToRemove.foldl p.calculateDescendants [])

def removeConflict (txid : TxId) (p : CTxMemPool) (prevout : COutPoint) : CTxMemPool :=
  match p.mapNextTx prevout with
  | none => p
  | some conflict =>
    if conflict = txid then p else (p.clearPrioritisation conflict).removeRecursive unit conflict

def removeConflicts (tx : CTransaction) (p : CTxMemPool) : CTxMemPool :=
  (tx.vin.map CTxIn.prevout).foldl (removeConflict unit tx.getId) p

def expire (time : Int) (fast : Bool) (p : CTxMemPool) : CTxMemPool :=
  let index := if fast then p.mapTx.reverse.takeWhile fun e => decide (e.nTime < time)
    else p.mapTx.reverse.filter fun e => decide (e.nTime < time)
  p.removeStaged unit ((index.map CTxMemPoolEntry.txid).foldl p.calculateDescendants [])

/-- How the pool measures itself and orders its entries by fee rate. -/
structure SizePolicy where
  dynamicMemoryUsage : CTxMemPool → Nat
  before : CTxMemPoolEntry → CTxMemPoolEntry → Bool

def SizePolicy.last (policy : SizePolicy) : List CTxMemPoolEntry → Option CTxMemPoolEntry
  | [] => none
  | e::es =>
    match policy.last es with
    | none => some e
    | some f => some (if policy.before f e then e else f)

def trimLoop (policy : SizePolicy) (sizelimit : Nat) : Nat → CTxMemPool → CTxMemPool
  | 0, p => p
  | fuel+1, p =>
    match policy.last p.mapTx with
    | none => p
    | some e =>
      if policy.dynamicMemoryUsage p > sizelimit then
        trimLoop policy sizelimit fuel (p.removeStaged unit (p.calculateDescendants [] e.txid))
      else p

def trimToSize (policy : SizePolicy) (sizelimit : Nat) (p : CTxMemPool) : CTxMemPool :=
  p.trimLoop unit policy sizelimit p.mapTx.length

/-- `LimitSize`; `time` is the present minus the age that entries may have. -/
def limitSize (policy : SizePolicy) (limit : Nat) (time : Int) (p : CTxMemPool) : CTxMemPool :=
  (p.expire unit time true).trimToSize unit policy limit
end CTxMemPool
end Operations

section Filter

variable {coins coins' : CoinMap} {pool : List CTransaction} {keep : CTransaction → Bool}

theorem PoolConsistent.filter (h : PoolConsistent coins pool)
    (hkeep : ∀ tx ∈ pool, keep tx = true → ∀ txin ∈ tx.vin, (coins txin.prevout).isSome = true →
      (coins' txin.prevout).isSome = true)
    (hparent : ∀ tx ∈ pool, keep tx = true → ∀ txin ∈ tx.vin, ∀ parent ∈ pool, parent.getId = txin.prevout.txid →
      keep parent = false → (coins' txin.prevout).isSome = true) : PoolConsistent coins' (pool.filter keep) := by
  induction pool with
  | nil => trivial
  | cons tx older ih =>
    obtain ⟨hin,hid,hold⟩ := h
    have hrest := ih hold (fun t ht => hkeep t (mem_cons_of_mem _ ht))
      (fun t ht hk txin hi parent hp => hparent t (mem_cons_of_mem _ ht) hk txin hi parent
        (mem_cons_of_mem _ hp))
    by_cases hk : keep tx = true
    · rw [filter_cons_of_pos hk]
      refine ⟨fun txin hi => ?_,fun entry he => hid entry (mem_filter.mp he).1,hrest⟩
      obtain ⟨parent,hp,hpid,hn⟩ | hcoin := hin txin hi
      · by_cases hkp : keep parent = true
        · exact .inl ⟨parent,mem_filter.mpr ⟨hp,hkp⟩,hpid,hn⟩
        · exact .inr (hparent tx mem_cons_self hk txin hi parent (mem_cons_of_mem _ hp) hpid
            (Bool.eq_false_iff.mpr hkp))
      · exact .inr (hkeep tx mem_cons_self hk txin hi hcoin)
    · rw [filter_cons_of_neg hk]
      exact hrest
end Filter

section Sound

namespace CTxMemPool

variable {unit : Nat} {coins coins' : CoinMap} {p p' : CTxMemPool}

def txs (p : CTxMemPool) : List CTransaction := p.mapTx.map CTxMemPoolEntry.tx

def SpendsOutputs (p : CTxMemPool) : Prop :=
  ∀ e ∈ p.mapTx, ∀ x ∈ e.prevouts, ∀ f ∈ p.mapTx, f.txid = x.txid → e.txid ≠ f.txid →
    ∃ out, f.tx.vout[x.n]? = some out ∧ out.scriptPubKey.isUnspendable = false

/-- The pool is what its indexes say, and its inputs are available over the coins. -/
structure Sound (unit : Nat) (coins : CoinMap) (p : CTxMemPool) : Prop extends Indexed unit p where
  consistent : PoolConsistent coins p.txs
  outputs : p.SpendsOutputs

theorem clear_sound (p : CTxMemPool) : Sound unit coins p.clear := by
  refine { (@empty_indexed unit) with next := ?_, consistent := trivial, outputs := ?_ }
  · exact fun _ h => nomatch h
  · exact fun _ h => nomatch h

theorem txs_filter (stage : List TxId) (hmap : p'.mapTx = p.mapTx.filter fun e => decide (e.txid ∉ stage)) :
    p'.txs = p.txs.filter fun tx => decide (tx.getId ∉ stage) := by
  rw [txs,hmap,txs,filter_map]
  rfl

theorem Sound.removeStaged (h : Sound unit coins p) {stage : List TxId}
    (hkeep : ∀ e ∈ p.mapTx, e.txid ∉ stage → ∀ x ∈ e.prevouts, (coins x).isSome = true → (coins' x).isSome = true)
    (hparent : ∀ e ∈ p.mapTx, e.txid ∉ stage → ∀ x ∈ e.prevouts, ∀ f ∈ p.mapTx, f.txid = x.txid → f.txid ∈ stage →
      (coins' x).isSome = true) : Sound unit coins' (p.removeStaged unit stage) := by
  have hmap := h.removeStaged_mapTx stage
  refine { h.toIndexed.removeStaged stage with consistent := ?_, outputs := ?_ }
  · rw [txs_filter stage hmap]
    apply h.consistent.filter
    · intro tx htx hk txin hi
      obtain ⟨e,he,rfl⟩ := mem_map.mp htx
      exact hkeep e he (of_decide_eq_true hk) _ (mem_map_of_mem hi)
    · intro tx htx hk txin hi parent hp hpid hgone
      obtain ⟨e,he,rfl⟩ := mem_map.mp htx
      obtain ⟨f,hf,rfl⟩ := mem_map.mp hp
      exact hparent e he (of_decide_eq_true hk) _ (mem_map_of_mem hi) f hf hpid
        (not_not.mp (of_decide_eq_false hgone))
  · intro e he x hx f hf
    rw [hmap] at he hf
    exact h.outputs e (mem_filter.mp he).1 x hx f (mem_filter.mp hf).1

theorem Indexed.spendsFrom (h : Indexed unit p) {e f : CTxMemPoolEntry} (he : e ∈ p.mapTx) (hf : f ∈ p.mapTx)
    {x : COutPoint} (hx : x ∈ e.prevouts) (hfx : f.txid = x.txid) : f.txid ∈ p.mapLinks .parents e.txid := by
  rw [h.parents]
  refine ⟨e,he,rfl,mem_dedup.mpr ?_,mem_map_of_mem hf⟩
  rw [hfx]
  exact mem_map_of_mem hx

abbrev Complete (p : CTxMemPool) (stage : List TxId) : Prop := WorklistState (p.mapLinks .children) p.txids [] stage

theorem complete_nil : Complete p [] :=
  ⟨nodup_nil,nodup_nil,disjoint_nil_left _,nil_subset _,nil_subset _,fun _ h => nomatch h⟩

theorem Indexed.calculateDescendants (h : Indexed unit p) {stage : List TxId} (hs : Complete p stage) {r : TxId}
    (hr : r ∈ p.txids) : Complete p (p.calculateDescendants stage r) ∧ stage ⊆ p.calculateDescendants stage r ∧
      r ∈ p.calculateDescendants stage r := by
  have hstart : WorklistState (p.mapLinks .children) p.txids (if r ∈ stage then [] else [r]) stage := by
    split
    · exact hs
    · rename_i hnot
      exact ⟨nodup_singleton r,hs.done_nodup,singleton_disjoint.mpr hnot,
        cons_subset.mpr ⟨hr,nil_subset _⟩,hs.done_subset,fun a ha b hb =>
          (hs.closed a ha b hb).imp_right nofun⟩
  have hlen : p.txids.length < p.mapTx.length+1+stage.length := by
    rw [txids,length_map]
    omega
  obtain ⟨h1,h2,h3⟩ := worklist_closed (h.links .children) (fun a b hb => ((h.children b a).mp hb).left)
    (p.mapTx.length+1) hstart hlen
  refine ⟨h1,h3,?_⟩
  by_cases hmem : r ∈ stage
  · exact h3 hmem
  · rw [if_neg hmem] at h2
    exact (cons_subset.mp (by rw [CTxMemPool.calculateDescendants,if_neg hmem]; exact h2)).1

theorem Indexed.foldl_calculateDescendants (h : Indexed unit p) (rs : List TxId) (hrs : rs ⊆ p.txids)
    {stage : List TxId} (hs : Complete p stage) : Complete p (rs.foldl p.calculateDescendants stage) ∧
      stage ⊆ rs.foldl p.calculateDescendants stage ∧ rs ⊆ rs.foldl p.calculateDescendants stage := by
  induction rs generalizing stage with
  | nil => exact ⟨hs,List.Subset.refl _,nil_subset _⟩
  | cons r rs ih =>
    rw [cons_subset] at hrs
    obtain ⟨h1,h2,h3⟩ := h.calculateDescendants hs hrs.1
    obtain ⟨i1,i2,i3⟩ := ih hrs.2 h1
    exact ⟨i1,List.Subset.trans h2 i2,cons_subset.mpr ⟨i2 h3,i3⟩⟩

structure Reduces (unit : Nat) (coins : CoinMap) (p p' : CTxMemPool) : Prop extends Sound unit coins p' where
  subset : p'.mapTx ⊆ p.mapTx

section

variable (h : Sound unit coins p)

include h

theorem Sound.reduces : Reduces unit coins p p := ⟨h,List.Subset.refl _⟩

omit h in
theorem Reduces.trans {p'' : CTxMemPool} (h : Reduces unit coins p p') (h' : Reduces unit coins p' p'') :
    Reduces unit coins p p'' :=
  ⟨h'.toSound,List.Subset.trans h'.subset h.subset⟩

theorem Sound.removeComplete {stage : List TxId} (hs : Complete p stage) :
    Reduces unit coins p (p.removeStaged unit stage) := by
  refine ⟨h.removeStaged (fun _ _ _ _ _ hc => hc) ?_,?_⟩
  · intro e he hk x hx f hf hfx hgone
    -- the child would have been staged with its parent
    have hchild := (h.children e.txid f.txid).mpr ((h.parents e.txid f.txid).mp (h.spendsFrom he hf hx hfx))
    obtain hd | hd := hs.closed f.txid hgone e.txid hchild
    · exact absurd hd hk
    · cases hd
  · rw [h.removeStaged_mapTx]
    exact filter_subset_self _

omit h in
theorem Indexed.mem_spentKeys (h : Indexed unit p) {x : COutPoint} : x ∈ p.spentKeys ↔ (p.mapNextTx x).isSome = true := by
  unfold spentKeys
  rw [mem_filter,and_iff_right_iff_imp,Option.isSome_iff_exists]
  rintro ⟨r,hr⟩
  obtain ⟨e,he,-,hx⟩ := (h.spends x r).mp hr
  exact mem_flatMap.mpr ⟨e,he,hx⟩

omit h in
theorem Indexed.spender_mem (h : Indexed unit p) {x : COutPoint} {r : TxId} (hx : p.mapNextTx x = some r) :
    r ∈ p.txids := by
  obtain ⟨e,he,rfl,-⟩ := (h.spends x r).mp hx
  exact mem_map_of_mem he

theorem Sound.removeAll {rs : List TxId} (hrs : rs ⊆ p.txids) :
    Reduces unit coins p (p.removeStaged unit (rs.foldl p.calculateDescendants [])) :=
  h.removeComplete (h.foldl_calculateDescendants rs hrs complete_nil).1

theorem Sound.removeRecursive (txid : TxId) :
    Reduces unit coins p (p.removeRecursive unit txid) := by
  apply h.removeAll
  split
  · rename_i hmem
    exact cons_subset.mpr ⟨hmem,nil_subset _⟩
  · intro r hr
    obtain ⟨x,-,hx⟩ := mem_filterMap.mp hr
    exact h.spender_mem hx

theorem Sound.removeRecursive_gone {txid : TxId} (hmem : txid ∈ p.txids) :
    ∀ e ∈ (p.removeRecursive unit txid).mapTx, e.txid ≠ txid := by
  intro e he
  rw [CTxMemPool.removeRecursive,if_pos hmem,h.removeStaged_mapTx] at he
  have hall := (h.foldl_calculateDescendants [txid] (cons_subset.mpr ⟨hmem,nil_subset _⟩) complete_nil).2.2
  rintro rfl
  exact of_decide_eq_true (mem_filter.mp he).2 (hall mem_cons_self)

theorem Sound.withDeltas (deltas : List (TxId × Int)) :
    Sound unit coins { p with mapDeltas := deltas } :=
  ⟨⟨⟨h.nodup,h.links,h.usage⟩,h.order,h.next,h.spends,h.parents,h.children,h.size⟩,h.consistent,h.outputs⟩

theorem Sound.removeConflict {txid : TxId} (hnot : txid ∉ p.txids) (x : COutPoint) :
    Reduces unit coins p (p.removeConflict unit txid x) ∧
      ∀ e ∈ (p.removeConflict unit txid x).mapTx, x ∉ e.prevouts := by
  unfold CTxMemPool.removeConflict
  split
  · rename_i hnone
    refine ⟨h.reduces,fun e he hx => ?_⟩
    have hsome := (h.spends x e.txid).mpr ⟨e,he,rfl,hx⟩
    rw [hnone] at hsome
    cases hsome
  · rename_i r hr
    have hmem := h.spender_mem hr
    have hne : r ≠ txid := fun heq => hnot (heq ▸ hmem)
    rw [if_neg hne]
    have hclear : Sound unit coins (p.clearPrioritisation r) := h.withDeltas _
    have hred := hclear.removeRecursive r
    refine ⟨⟨hred.toSound,hred.subset⟩,fun e he hx => ?_⟩
    apply hclear.removeRecursive_gone hmem e he
    have hsome := (h.spends x e.txid).mpr ⟨e,hred.subset he,rfl,hx⟩
    exact Option.some.inj (hsome.symm.trans hr)

omit h in
theorem Reduces.notMem (h : Reduces unit coins p p') {txid : TxId} (hnot : txid ∉ p.txids) : txid ∉ p'.txids :=
  fun hmem => hnot (map_subset _ h.subset hmem)

theorem Sound.removeConflicts {tx : CTransaction} (hnot : tx.getId ∉ p.txids) :
    Reduces unit coins p (p.removeConflicts unit tx) ∧
      ∀ e ∈ (p.removeConflicts unit tx).mapTx, ∀ x ∈ tx.vin.map CTxIn.prevout, x ∉ e.prevouts := by
  unfold CTxMemPool.removeConflicts
  generalize tx.vin.map CTxIn.prevout = xs
  induction xs generalizing p with
  | nil => exact ⟨h.reduces,fun _ _ _ hx => nomatch hx⟩
  | cons x xs ih =>
    obtain ⟨h1,h2⟩ := h.removeConflict hnot x
    obtain ⟨i1,i2⟩ := ih h1.toSound (h1.notMem hnot)
    refine ⟨h1.trans i1,fun e he => forall_mem_cons.mpr ⟨h2 e (i1.subset he),i2 e he⟩⟩

theorem Sound.expire (time : Int) (fast : Bool) :
    Reduces unit coins p (p.expire unit time fast) := by
  apply h.removeAll
  apply map_subset
  split
  · exact fun e he => mem_reverse.mp (takeWhile_subset _ he)
  · exact fun e he => mem_reverse.mp (mem_filter.mp he).1

omit h in
theorem SizePolicy.last_mem (policy : SizePolicy) {es : List CTxMemPoolEntry} {e : CTxMemPoolEntry}
    (h : policy.last es = some e) : e ∈ es := by
  induction es generalizing e with
  | nil => cases h
  | cons a es ih =>
    rw [SizePolicy.last] at h
    split at h
    · cases h
      exact mem_cons_self
    · rename_i f hf
      cases h
      split
      · exact mem_cons_self
      · exact mem_cons_of_mem _ (ih hf)

omit h in
theorem Sound.trimLoop (policy : SizePolicy) (sizelimit fuel : Nat) (h : Sound unit coins p) :
    Reduces unit coins p (p.trimLoop unit policy sizelimit fuel) := by
  induction fuel generalizing p with
  | zero => exact h.reduces
  | succ fuel ih =>
    unfold CTxMemPool.trimLoop
    split
    · exact h.reduces
    · rename_i e he
      split
      · have hmem : e.txid ∈ p.txids := mem_map_of_mem (policy.last_mem he)
        have hred := h.removeComplete (h.calculateDescendants complete_nil hmem).1
        exact hred.trans (ih hred.toSound)
      · exact h.reduces

theorem Sound.limitSize (policy : SizePolicy) (limit : Nat) (time : Int) :
    Reduces unit coins p (p.limitSize unit policy limit time) :=
  (h.expire time true).trans ((h.expire time true).toSound.trimLoop policy limit _)
end

theorem map_prioritise {β : Type} (g : CTxMemPoolEntry → β) (hg : ∀ e d, g { e with feeDelta := d } = g e) (txid : TxId)
    (nFeeDelta : Int) : (p.prioritiseTransaction txid nFeeDelta).mapTx.map g = p.mapTx.map g := by
  unfold prioritiseTransaction
  rw [map_map]
  apply map_congr_left
  intro e _
  rw [Function.comp_apply]
  split
  · exact hg e _
  · rfl

theorem mem_prioritise {txid : TxId} {nFeeDelta : Int} {e : CTxMemPoolEntry}
    (he : e ∈ (p.prioritiseTransaction txid nFeeDelta).mapTx) :
    ∃ f ∈ p.mapTx, e.tx = f.tx ∧ e.entryId = f.entryId := by
  obtain ⟨f,hf,rfl⟩ := mem_map.mp he
  refine ⟨f,hf,?_⟩
  split <;> exact ⟨rfl,rfl⟩

theorem exists_prioritise (P : CTransaction → Prop) (txid : TxId) (nFeeDelta : Int) :
    (∃ e ∈ (p.prioritiseTransaction txid nFeeDelta).mapTx, P e.tx) ↔ ∃ e ∈ p.mapTx, P e.tx := by
  have hmap := @map_prioritise p _ CTxMemPoolEntry.tx (fun _ _ => rfl) txid nFeeDelta
  have hall : ∀ q : CTxMemPool, (∃ e ∈ q.mapTx, P e.tx) ↔ ∃ tx ∈ q.mapTx.map CTxMemPoolEntry.tx, P tx := by
    intro q
    simp only [mem_map,exists_exists_and_eq_and]
  rw [hall,hall,hmap]

theorem Sound.prioritiseTransaction (h : Sound unit coins p) (txid : TxId) (nFeeDelta : Int) :
    Sound unit coins (p.prioritiseTransaction txid nFeeDelta) := by
  have hids : (p.prioritiseTransaction txid nFeeDelta).txids = p.txids := map_prioritise _ (fun _ _ => rfl) _ _
  have hspends : ∀ a b, (p.prioritiseTransaction txid nFeeDelta).SpendsFrom a b ↔ p.SpendsFrom a b := by
    intro a b
    unfold SpendsFrom
    rw [hids]
    exact exists_prioritise (fun tx => tx.getId = a ∧
      b ∈ ((tx.vin.map CTxIn.prevout).map COutPoint.txid).dedup ∧ b ∈ p.txids) txid nFeeDelta
  constructor
  · constructor
    · refine ⟨hids ▸ h.nodup,h.links,h.usage.trans ?_⟩
      exact congrArg List.sum (map_prioritise (fun e => (e.nUsageSize : Int)+
        unit*((p.mapLinks .parents e.txid).length+(p.mapLinks .children e.txid).length : Nat)) (fun _ _ => rfl)
          txid nFeeDelta).symm
    · have hmap := @map_prioritise p _ CTxMemPoolEntry.entryId (fun _ _ => rfl) txid nFeeDelta
      have horder : (p.mapTx.map CTxMemPoolEntry.entryId).Pairwise fun a b => b < a := pairwise_map.mpr h.order
      rw [← hmap] at horder
      exact pairwise_map.mp horder
    · intro e he
      obtain ⟨f,hf,-,hid⟩ := mem_prioritise he
      rw [hid]
      exact h.next f hf
    · intro x r
      exact (h.spends x r).trans (exists_prioritise (fun tx => tx.getId = r ∧ x ∈ tx.vin.map CTxIn.prevout)
        txid nFeeDelta).symm
    · exact fun a b => (h.parents a b).trans (hspends a b).symm
    · exact fun a b => (h.children a b).trans (hspends a b).symm
    · exact h.size.trans (congrArg List.sum (map_prioritise (fun e => (e.nTxSize : Int)) (fun _ _ => rfl)
        txid nFeeDelta).symm)
  · have hmap := @map_prioritise p _ CTxMemPoolEntry.tx (fun _ _ => rfl) txid nFeeDelta
    rw [txs,hmap]
    exact h.consistent
  · intro e he x hx f hf hfx hne
    obtain ⟨e',he',htx,-⟩ := mem_prioritise he
    obtain ⟨f',hf',hftx,-⟩ := mem_prioritise hf
    unfold CTxMemPoolEntry.prevouts at hx
    unfold CTxMemPoolEntry.txid at hfx hne
    rw [htx] at hx hne
    rw [hftx] at hfx hne ⊢
    exact h.outputs e' he' x hx f' hf' hfx hne
end CTxMemPool
end Sound
end BitfiniteCore
