import BitfiniteCore.Mempool.Links

/-! # The indexes agree with the entries -/

namespace BitfiniteCore
open List

namespace CTxMemPool

variable {unit : Nat} {p p' : CTxMemPool}

/-- What `check` asserts of the pool alone. -/
structure Indexed (unit : Nat) (p : CTxMemPool) : Prop extends Accounted unit p where
  order : p.mapTx.Pairwise fun a b => b.entryId < a.entryId
  next : ∀ e ∈ p.mapTx, e.entryId < p.nextEntryId
  spends : ∀ x r, p.mapNextTx x = some r ↔ ∃ e ∈ p.mapTx, e.txid = r ∧ x ∈ e.prevouts
  parents : ∀ a b, b ∈ p.mapLinks .parents a ↔ p.SpendsFrom a b
  children : ∀ a b, a ∈ p.mapLinks .children b ↔ p.SpendsFrom a b
  size : p.totalTxSize = (p.mapTx.map fun e => (e.nTxSize : Int)).sum

theorem empty_indexed : Indexed unit empty where
  nodup := nodup_nil
  links _ _ := nodup_nil
  usage := rfl
  order := .nil
  next _ h := nomatch h
  spends := by simp [empty]
  parents := by simp [empty,SpendsFrom]
  children := by simp [empty,SpendsFrom]
  size := rfl

theorem SpendsFrom.left {a b : TxId} (h : p.SpendsFrom a b) : a ∈ p.txids := by
  obtain ⟨e,he,rfl,-⟩ := h
  exact mem_map_of_mem he

theorem SpendsFrom.right {a b : TxId} (h : p.SpendsFrom a b) : b ∈ p.txids := by
  obtain ⟨-,-,-,-,hb⟩ := h
  exact hb

theorem eq_of_txid (hnd : p.txids.Nodup) {e e' : CTxMemPoolEntry} (he : e ∈ p.mapTx) (he' : e' ∈ p.mapTx)
    (h : e.txid = e'.txid) : e = e' :=
  inj_on_of_nodup_map hnd he he' h

section Removal

theorem removeUnchecked_mapTx (r : TxId) :
    (p.removeUnchecked unit r).mapTx = p.mapTx.filter fun e => e.txid != r := by
  unfold removeUnchecked
  split
  · rename_i hnone
    symm
    rw [filter_eq_self]
    intro e he
    rw [bne_iff_ne]
    exact fun h => by simpa [h] using find?_eq_none.mp hnone e he
  · rfl

theorem find_entry (hnd : p.txids.Nodup) {e : CTxMemPoolEntry} (he : e ∈ p.mapTx) :
    p.mapTx.find? (fun a => a.txid == e.txid) = some e := by
  cases hf : p.mapTx.find? (fun a => a.txid == e.txid) with
  | none => exact absurd (find?_eq_none.mp hf e he) (by simp)
  | some a =>
    have ha : a.txid = e.txid := by simpa using find?_some hf
    rw [eq_of_txid hnd (mem_of_find?_eq_some hf) he ha]

theorem removeUnchecked_spec (hnd : p.txids.Nodup) {e : CTxMemPoolEntry} (he : e ∈ p.mapTx) :
    p.removeUnchecked unit e.txid = { p with
      mapTx := p.mapTx.filter fun a => a.txid != e.txid
      mapNextTx := fun x => if x ∈ e.prevouts then none else p.mapNextTx x
      mapLinks := fun s x => if x = e.txid then [] else p.mapLinks s x
      totalTxSize := p.totalTxSize-e.nTxSize
      cachedInnerUsage := p.cachedInnerUsage-(e.nUsageSize+
        unit*((p.mapLinks .parents e.txid).length+(p.mapLinks .children e.txid).length : Nat)) } := by
  unfold removeUnchecked
  rw [find_entry hnd he]

theorem removeUnchecked_of_notMem {r : TxId} (hr : r ∉ p.txids) : p.removeUnchecked unit r = p := by
  have hnone : p.mapTx.find? (fun e => e.txid == r) = none := by
    rw [find?_eq_none]
    intro e he h
    exact hr (beq_iff_eq.mp h ▸ mem_map_of_mem he)
  unfold removeUnchecked
  rw [hnone]

/-- What is left of the indexes after some removals of a stage. -/
structure Removed (unit : Nat) (stage : List TxId) (p p' : CTxMemPool) : Prop extends Accounted unit p' where
  mapTx : p'.mapTx = p.mapTx.filter fun e => decide (e.txid ∉ stage)
  mapNextTx : ∀ x, p'.mapNextTx x = if ∃ e ∈ p.mapTx, e.txid ∈ stage ∧ x ∈ e.prevouts then none else p.mapNextTx x
  mapLinks : ∀ s x, p'.mapLinks s x = if x ∈ stage ∧ x ∈ p.txids then [] else p.mapLinks s x
  size : p'.totalTxSize = (p'.mapTx.map fun e => (e.nTxSize : Int)).sum
  nextEntryId : p'.nextEntryId = p.nextEntryId

theorem Accounted.removeUnchecked (h : Accounted unit p) (r : TxId) : Accounted unit (p.removeUnchecked unit r) := by
  by_cases hr : r ∈ p.txids
  · obtain ⟨e,he,rfl⟩ := mem_map.mp hr
    refine ⟨?_,?_,?_⟩
    · rw [txids,removeUnchecked_mapTx]
      exact h.nodup.sublist (filter_sublist.map _)
    · intro s x
      rw [removeUnchecked_spec h.nodup he]
      dsimp only
      split
      · exact nodup_nil
      · exact h.links s x
    · rw [removeUnchecked_spec h.nodup he]
      unfold innerUsage
      have hcongr : ((p.mapTx.filter fun a => a.txid != e.txid).map fun a => (a.nUsageSize : Int)+
          unit*((if a.txid = e.txid then [] else p.mapLinks .parents a.txid).length+
            (if a.txid = e.txid then [] else p.mapLinks .children a.txid).length : Nat)) =
          (p.mapTx.filter fun a => a.txid != e.txid).map fun a => (a.nUsageSize : Int)+
            unit*((p.mapLinks .parents a.txid).length+(p.mapLinks .children a.txid).length : Nat) := by
        apply map_congr_left
        intro a ha
        have hne : a.txid ≠ e.txid := by simpa using (mem_filter.mp ha).2
        rw [if_neg hne,if_neg hne]
      rw [hcongr,sum_map_filter_ne h.nodup _ he,h.usage]
      rfl
  · rw [removeUnchecked_of_notMem hr]
    exact h

theorem foldl_removeUnchecked (stage : List TxId) (h : Accounted unit p)
    (hsize : p.totalTxSize = (p.mapTx.map fun e => (e.nTxSize : Int)).sum) :
    Removed unit stage p (stage.foldl (fun p r => p.removeUnchecked unit r) p) := by
  induction stage generalizing p with
  | nil => exact ⟨h,by simp,by simp,by simp,hsize,rfl⟩
  | cons r stage ih =>
    have hacc := h.removeUnchecked r
    by_cases hr : r ∈ p.txids
    · obtain ⟨e,he,rfl⟩ := mem_map.mp hr
      have hmap := @removeUnchecked_mapTx unit p e.txid
      have hsize' : (p.removeUnchecked unit e.txid).totalTxSize =
          ((p.removeUnchecked unit e.txid).mapTx.map fun e => (e.nTxSize : Int)).sum := by
        rw [hmap,sum_map_filter_ne h.nodup _ he,← hsize,removeUnchecked_spec h.nodup he]
      have hrest := ih hacc hsize'
      refine ⟨hrest.toAccounted,?_,?_,?_,hrest.size,?_⟩
      · rw [foldl_cons,hrest.mapTx,hmap,filter_filter]
        apply filter_congr
        intro a _
        by_cases ha : a.txid = e.txid <;> simp [ha]
      · intro x
        rw [foldl_cons,hrest.mapNextTx,hmap,removeUnchecked_spec h.nodup he]
        dsimp only
        by_cases hx : x ∈ e.prevouts
        · have hpos : ∃ a ∈ p.mapTx, a.txid ∈ e.txid::stage ∧ x ∈ a.prevouts := ⟨e,he,mem_cons_self,hx⟩
          rw [if_pos hx,if_pos hpos,ite_self]
        · rw [if_neg hx]
          congr 1
          apply propext
          constructor
          · rintro ⟨a,ha,hs,hxa⟩
            exact ⟨a,(mem_filter.mp ha).1,mem_cons_of_mem _ hs,hxa⟩
          · rintro ⟨a,ha,hs,hxa⟩
            have hne : a.txid ≠ e.txid := fun hae => hx (eq_of_txid h.nodup ha he hae ▸ hxa)
            exact ⟨a,mem_filter.mpr ⟨ha,by simpa using hne⟩,(mem_cons.mp hs).resolve_left hne,hxa⟩
      · intro s x
        have hids : x ∈ (p.removeUnchecked unit e.txid).txids ↔ x ∈ p.txids ∧ x ≠ e.txid := by
          rw [txids,hmap,txids,mem_map,mem_map]
          constructor
          · rintro ⟨a,ha,rfl⟩
            have hf := mem_filter.mp ha
            exact ⟨⟨a,hf.1,rfl⟩,by simpa using hf.2⟩
          · rintro ⟨⟨a,ha,rfl⟩,hne⟩
            exact ⟨a,mem_filter.mpr ⟨ha,by simpa using hne⟩,rfl⟩
        rw [foldl_cons,hrest.mapLinks]
        by_cases hx : x = e.txid
        · have hpos : x ∈ e.txid::stage ∧ x ∈ p.txids := ⟨hx ▸ mem_cons_self,hx ▸ hr⟩
          rw [if_pos hpos,removeUnchecked_spec h.nodup he]
          dsimp only
          rw [if_pos hx,ite_self]
        · have hlinks : (p.removeUnchecked unit e.txid).mapLinks s x = p.mapLinks s x := by
            rw [removeUnchecked_spec h.nodup he]
            exact if_neg hx
          rw [hlinks]
          simp only [hids,mem_cons,hx,false_or,ne_eq,not_false_eq_true,and_true]
      · rw [foldl_cons,hrest.nextEntryId,removeUnchecked_spec h.nodup he]
    · rw [foldl_cons,removeUnchecked_of_notMem hr]
      have hrest := ih h hsize
      refine ⟨hrest.toAccounted,?_,?_,?_,hrest.size,hrest.nextEntryId⟩
      · rw [hrest.mapTx]
        apply filter_congr
        intro a ha
        have hne : a.txid ≠ r := fun h => hr (h ▸ mem_map_of_mem ha)
        simp [hne]
      · intro x
        rw [hrest.mapNextTx]
        congr 1
        apply propext
        constructor
        · rintro ⟨a,ha,hs,hxa⟩
          exact ⟨a,ha,mem_cons_of_mem _ hs,hxa⟩
        · rintro ⟨a,ha,hs,hxa⟩
          have hne : a.txid ≠ r := fun h => hr (h ▸ mem_map_of_mem ha)
          exact ⟨a,ha,(mem_cons.mp hs).resolve_left hne,hxa⟩
      · intro s x
        rw [hrest.mapLinks]
        congr 1
        apply propext
        constructor
        · exact fun h => ⟨mem_cons_of_mem _ h.1,h.2⟩
        · rintro ⟨hs,hx⟩
          exact ⟨(mem_cons.mp hs).resolve_left fun h => hr (h ▸ hx),hx⟩

theorem Indexed.spender_unique (h : Indexed unit p) {e e' : CTxMemPoolEntry} (he : e ∈ p.mapTx) (he' : e' ∈ p.mapTx)
    {x : COutPoint} (hx : x ∈ e.prevouts) (hx' : x ∈ e'.prevouts) : e = e' := by
  have hsome := (h.spends x e.txid).mpr ⟨e,he,rfl,hx⟩
  have hsome' := (h.spends x e'.txid).mpr ⟨e',he',rfl,hx'⟩
  exact eq_of_txid h.nodup he he' (Option.some.inj (hsome.symm.trans hsome'))

theorem Indexed.updateForRemove (h : Indexed unit p) (stage : List TxId) :
    SameEntries p (p.updateForRemoveFromMempool unit stage) ∧
      Accounted unit (p.updateForRemoveFromMempool unit stage) ∧
      (∀ a b, b ∈ (p.updateForRemoveFromMempool unit stage).mapLinks .parents a ↔
        p.SpendsFrom a b ∧ ¬(b ∈ stage ∧ a ∉ stage)) ∧
      ∀ a b, a ∈ (p.updateForRemoveFromMempool unit stage).mapLinks .children b ↔ p.SpendsFrom a b ∧ a ∉ stage := by
  obtain ⟨h1,h2,h3,h4⟩ := unlink_spec (show LinkSide.parents ≠ .children by decide) stage h.toAccounted
    fun r x hx => ((h.parents r x).mp hx).right
  have hchildren : ∀ a b, a ∈ (p.unlink unit .children .parents stage).mapLinks .children b ↔
      p.SpendsFrom a b ∧ a ∉ stage := by
    intro a b
    rw [h3,h.children,h.parents]
    tauto
  obtain ⟨i1,i2,i3,i4⟩ := unlink_spec (show LinkSide.children ≠ .parents by decide) stage h2
    fun r x hx => h1.txids ▸ ((hchildren x r).mp hx).1.left
  refine ⟨h1.trans i1,i2,fun a b => (i3 a b).trans ?_,fun a b => (i4 b a).trans (hchildren a b)⟩
  rw [h4,h.parents,hchildren]
  tauto

theorem spendsFrom_filter {stage : List TxId} (hmap : p'.mapTx = p.mapTx.filter fun e => decide (e.txid ∉ stage))
    (a b : TxId) : p'.SpendsFrom a b ↔ p.SpendsFrom a b ∧ a ∉ stage ∧ b ∉ stage := by
  unfold SpendsFrom txids
  rw [hmap]
  constructor
  · rintro ⟨e,he,rfl,hb,hmem⟩
    obtain ⟨he,hs⟩ := mem_filter.mp he
    obtain ⟨f,hf,rfl⟩ := mem_map.mp hmem
    obtain ⟨hf,ht⟩ := mem_filter.mp hf
    exact ⟨⟨e,he,rfl,hb,mem_map_of_mem hf⟩,of_decide_eq_true hs,of_decide_eq_true ht⟩
  · rintro ⟨⟨e,he,rfl,hb,hmem⟩,hs,ht⟩
    obtain ⟨f,hf,rfl⟩ := mem_map.mp hmem
    exact ⟨e,mem_filter.mpr ⟨he,decide_eq_true hs⟩,rfl,hb,mem_map_of_mem (mem_filter.mpr ⟨hf,decide_eq_true ht⟩)⟩

theorem Indexed.removeStaged_mapTx (h : Indexed unit p) (stage : List TxId) :
    (p.removeStaged unit stage).mapTx = p.mapTx.filter fun e => decide (e.txid ∉ stage) := by
  obtain ⟨h1,h2,-⟩ := h.updateForRemove stage
  have hsize : (p.updateForRemoveFromMempool unit stage).totalTxSize =
      ((p.updateForRemoveFromMempool unit stage).mapTx.map fun e => (e.nTxSize : Int)).sum := by
    rw [h1.totalTxSize,h1.mapTx,h.size]
  rw [removeStaged,(foldl_removeUnchecked stage h2 hsize).mapTx,h1.mapTx]

theorem Indexed.removeStaged (h : Indexed unit p) (stage : List TxId) : Indexed unit (p.removeStaged unit stage) := by
  have hmapTx := h.removeStaged_mapTx stage
  obtain ⟨h1,h2,h3,h4⟩ := h.updateForRemove stage
  have hsize : (p.updateForRemoveFromMempool unit stage).totalTxSize =
      ((p.updateForRemoveFromMempool unit stage).mapTx.map fun e => (e.nTxSize : Int)).sum := by
    rw [h1.totalTxSize,h1.mapTx,h.size]
  have hr := foldl_removeUnchecked stage h2 hsize
  have hspends := spendsFrom_filter hmapTx
  refine { hr.toAccounted with order := ?_, next := ?_, spends := ?_, parents := ?_, children := ?_, size := hr.size }
  · rw [hmapTx]
    exact h.order.filter _
  · intro e he
    rw [hmapTx] at he
    exact (h.next e (mem_filter.mp he).1).trans_eq (hr.nextEntryId.trans h1.nextEntryId).symm
  · intro x r
    have hnext := hr.mapNextTx x
    rw [h1.mapTx,h1.mapNextTx] at hnext
    rw [CTxMemPool.removeStaged] at hmapTx ⊢
    rw [hmapTx,hnext]
    split
    · rename_i hgone
      obtain ⟨e,he,hs,hx⟩ := hgone
      refine ⟨fun h => (nomatch h),?_⟩
      rintro ⟨e',he',-,hx'⟩
      obtain ⟨he',hs'⟩ := mem_filter.mp he'
      rw [h.spender_unique he he' hx hx'] at hs
      exact absurd hs (of_decide_eq_true hs')
    · rename_i hkept
      rw [h.spends]
      constructor
      · rintro ⟨e,he,rfl,hx⟩
        exact ⟨e,mem_filter.mpr ⟨he,decide_eq_true fun hs => hkept ⟨e,he,hs,hx⟩⟩,rfl,hx⟩
      · rintro ⟨e,he,rfl,hx⟩
        exact ⟨e,(mem_filter.mp he).1,rfl,hx⟩
  · intro a b
    rw [hspends,CTxMemPool.removeStaged,hr.mapLinks,h1.txids]
    split
    · rename_i ha
      exact ⟨fun h => (nomatch h),fun h => absurd ha.1 h.2.1⟩
    · rename_i ha
      rw [h3]
      constructor
      · rintro ⟨hab,hn⟩
        have has : a ∉ stage := fun hs => ha ⟨hs,hab.left⟩
        exact ⟨hab,has,fun hs => hn ⟨hs,has⟩⟩
      · rintro ⟨hab,-,hb⟩
        exact ⟨hab,fun hn => hb hn.1⟩
  · intro a b
    rw [hspends,CTxMemPool.removeStaged,hr.mapLinks,h1.txids]
    split
    · rename_i hb
      exact ⟨fun h => (nomatch h),fun h => absurd hb.1 h.2.2⟩
    · rename_i hb
      rw [h4]
      constructor
      · rintro ⟨hab,ha⟩
        exact ⟨hab,ha,fun hs => hb ⟨hs,hab.right⟩⟩
      · rintro ⟨hab,ha,-⟩
        exact ⟨hab,ha⟩
end Removal

section Insertion

variable {e : CTxMemPoolEntry}

/-- What `AcceptToMemoryPool` has made sure of before it inserts. -/
structure Insertable (p : CTxMemPool) (e : CTxMemPoolEntry) : Prop where
  fresh : e.txid ∉ p.txids
  unspent : ∀ x ∈ e.prevouts, p.mapNextTx x = none
  childless : ∀ x, x.txid = e.txid → p.mapNextTx x = none

section

variable (hi : Insertable p e)

include hi

section

variable (h : Indexed unit p)

include h

theorem Insertable.notMem_prevouts {a : CTxMemPoolEntry} (ha : a ∈ p.mapTx) :
    e.txid ∉ a.parentIds := by
  intro hmem
  obtain ⟨x,hx,hxe⟩ := mem_map.mp (mem_dedup.mp hmem)
  have hsome := (h.spends x a.txid).mpr ⟨a,ha,rfl,hx⟩
  rw [hi.childless x hxe] at hsome
  cases hsome

theorem Insertable.links_nil (s : LinkSide) : p.mapLinks s e.txid = [] := by
  rw [eq_nil_iff_forall_not_mem]
  intro y hy
  cases s with
  | parents => exact hi.fresh ((h.parents _ _).mp hy).left
  | children => exact hi.fresh ((h.children _ _).mp hy).right

theorem Insertable.insertEntry_accounted :
    Accounted unit (p.insertEntry e) := by
  refine ⟨nodup_cons.mpr ⟨hi.fresh,h.nodup⟩,h.links,?_⟩
  have hp := hi.links_nil h .parents
  have hc := hi.links_nil h .children
  unfold insertEntry innerUsage
  rw [map_cons,sum_cons,h.usage]
  change _ = (e.nUsageSize : Int)+unit*((p.mapLinks .parents e.txid).length+
    (p.mapLinks .children e.txid).length : Nat)+_
  rw [hp,hc]
  unfold innerUsage
  simp
  ring

theorem spendsFrom_insertEntry (a b : TxId) :
    (p.insertEntry e).SpendsFrom a b ↔
      p.SpendsFrom a b ∨ (a = e.txid ∧ b ∈ e.parentIds ∧ b ∈ (p.insertEntry e).txids) := by
  constructor
  · rintro ⟨f,hf,rfl,hb,hmem⟩
    obtain rfl | hf := mem_cons.mp hf
    · exact .inr ⟨rfl,hb,hmem⟩
    · obtain rfl | hmem := mem_cons.mp hmem
      · exact absurd hb (hi.notMem_prevouts h hf)
      · exact .inl ⟨f,hf,rfl,hb,hmem⟩
  · rintro (⟨f,hf,rfl,hb,hmem⟩ | ⟨rfl,hb,hmem⟩)
    · exact ⟨f,mem_cons_of_mem _ hf,rfl,hb,mem_cons_of_mem _ hmem⟩
    · exact ⟨_,mem_cons_self,rfl,hb,hmem⟩

theorem insertEntry_spends (x : COutPoint) (r : TxId) :
    (p.insertEntry e).mapNextTx x = some r ↔ ∃ f ∈ (p.insertEntry e).mapTx, f.txid = r ∧ x ∈ f.prevouts := by
  have hcons : (∃ f ∈ (p.insertEntry e).mapTx, f.txid = r ∧ x ∈ f.prevouts) ↔
      (e.txid = r ∧ x ∈ e.prevouts) ∨ ∃ f ∈ p.mapTx, f.txid = r ∧ x ∈ f.prevouts := by
    simp only [insertEntry,mem_cons,or_and_right,exists_or,exists_eq_left]
    exact Iff.rfl
  rw [hcons,← h.spends]
  unfold insertEntry
  dsimp only
  by_cases hx : x ∈ e.prevouts
  · rw [if_pos hx,hi.unspent x hx]
    simp [hx]
  · rw [if_neg hx]
    simp [hx]

theorem addUnchecked_spec :
    SameEntries (p.insertEntry e) (p.addUnchecked unit e) ∧ Accounted unit (p.addUnchecked unit e) ∧
      (∀ a b, b ∈ (p.addUnchecked unit e).mapLinks .parents a ↔ (p.insertEntry e).SpendsFrom a b) ∧
      ∀ a b, a ∈ (p.addUnchecked unit e).mapLinks .children b ↔ (p.insertEntry e).SpendsFrom a b := by
  obtain ⟨h1,h2,h3⟩ := linkAll_spec .parents true
    ((e.parentIds.filter (· ∈ (p.insertEntry e).txids)).map fun q => (e.txid,q)) (hi.insertEntry_accounted h)
    (forall_mem_map.mpr fun _ _ => mem_cons_self)
  unfold addUnchecked
  dsimp only
  generalize (p.insertEntry e).linkAll unit .parents
    ((e.parentIds.filter (· ∈ (p.insertEntry e).txids)).map fun q => (e.txid,q)) true = linked at h1 h2 h3 ⊢
  have hparents : ∀ a b, b ∈ linked.mapLinks .parents a ↔ (p.insertEntry e).SpendsFrom a b := by
    intro a b
    rw [h3,spendsFrom_insertEntry hi h,← h.parents]
    simp only [true_and,mem_map,mem_filter,decide_eq_true_eq,Prod.mk.injEq,exists_eq_right_right]
    exact or_congr Iff.rfl ⟨fun hq => ⟨hq.2.symm,hq.1⟩,fun hq => ⟨hq.2,hq.1.symm⟩⟩
  have hself : ∀ q, (p.insertEntry e).SpendsFrom e.txid q ↔ q ∈ e.parentIds ∧ q ∈ (p.insertEntry e).txids := by
    intro q
    rw [spendsFrom_insertEntry hi h]
    exact ⟨fun hq => hq.elim (fun hs => absurd hs.left hi.fresh) And.right,fun hq => .inr ⟨rfl,hq⟩⟩
  obtain ⟨i1,i2,i3⟩ := linkAll_spec .children true ((linked.mapLinks .parents e.txid).map fun q => (q,e.txid)) h2
    (forall_mem_map.mpr fun q hq => by
      rw [h1.txids]
      exact ((hself q).mp ((hparents _ q).mp hq)).2)
  refine ⟨h1.trans i1,i2,fun a b => ?_,fun a b => ?_⟩
  · rw [i3,hparents]
    exact or_iff_left fun hq => nomatch hq.1
  · rw [i3,h3,spendsFrom_insertEntry hi h,← h.children]
    have hpair : (b,a) ∈ (linked.mapLinks .parents e.txid).map (fun q => (q,e.txid)) ↔
        a = e.txid ∧ b ∈ e.parentIds ∧ b ∈ (p.insertEntry e).txids := by
      rw [← hself,← hparents]
      simp [eq_comm,and_comm]
    rw [hpair]
    simp [insertEntry]
end

end

theorem Indexed.addUnchecked (h : Indexed unit p) (hi : Insertable p e) : Indexed unit (p.addUnchecked unit e) := by
  obtain ⟨h1,h2,h3,h4⟩ := addUnchecked_spec hi h
  have hspends : ∀ a b, (p.addUnchecked unit e).SpendsFrom a b ↔ (p.insertEntry e).SpendsFrom a b := by
    intro a b
    unfold SpendsFrom
    rw [h1.txids,h1.mapTx]
  refine { h2 with order := ?_, next := ?_, spends := ?_, parents := ?_, children := ?_, size := ?_ }
  · rw [h1.mapTx]
    exact pairwise_cons.mpr ⟨h.next,h.order⟩
  · rw [h1.mapTx,h1.nextEntryId]
    exact forall_mem_cons.mpr ⟨Nat.lt_succ_self _,fun f hf => (h.next f hf).trans (Nat.lt_succ_self _)⟩
  · rw [h1.mapTx,h1.mapNextTx]
    exact insertEntry_spends hi h
  · exact fun a b => (h3 a b).trans (hspends a b).symm
  · exact fun a b => (h4 a b).trans (hspends a b).symm
  · rw [h1.mapTx,h1.totalTxSize]
    unfold insertEntry
    rw [map_cons,sum_cons,h.size,add_comm]
end Insertion
end CTxMemPool
end BitfiniteCore
