import BitfiniteCore.Mempool.Pool

/-! # The indexes of the pool -/

namespace BitfiniteCore
open List

section Stored

structure CTxMemPoolEntry where
  tx : CTransaction
  entryId : Nat
  nTime : Int
  nTxSize : Nat
  nUsageSize : Nat
  feeDelta : Int
deriving DecidableEq, Repr

namespace CTxMemPoolEntry

def txid (e : CTxMemPoolEntry) : TxId := e.tx.getId

def prevouts (e : CTxMemPoolEntry) : List COutPoint := e.tx.vin.map CTxIn.prevout

def parentIds (e : CTxMemPoolEntry) : List TxId := (e.prevouts.map COutPoint.txid).dedup
end CTxMemPoolEntry

/-- The two sets of `TxLinks`. -/
inductive LinkSide | parents | children
deriving DecidableEq, Repr

/-- The entries stand from the newest to the oldest. -/
structure CTxMemPool where
  mapTx : List CTxMemPoolEntry
  mapNextTx : COutPoint → Option TxId
  mapLinks : LinkSide → TxId → List TxId
  totalTxSize : Int
  cachedInnerUsage : Int
  nextEntryId : Nat
  mapDeltas : List (TxId × Int)

namespace CTxMemPool

def txids (p : CTxMemPool) : List TxId := p.mapTx.map CTxMemPoolEntry.txid

def empty : CTxMemPool := ⟨[],fun _ => none,fun _ _ => [],0,0,0,[]⟩

/-- The sum that `ApplyDelta` adds. -/
def delta (p : CTxMemPool) (txid : TxId) : Int := (p.mapDeltas.lookup txid).getD 0

variable (unit : Nat)

/-- `UpdateChild` and `UpdateParent`; `unit` is the memory that an element of a set takes. -/
def updateLink (side : LinkSide) (entry other : TxId) (add : Bool) (p : CTxMemPool) : CTxMemPool :=
  if add then
    if other ∈ p.mapLinks side entry then p
    else { p with
      mapLinks := fun s x => if s = side ∧ x = entry then other::p.mapLinks s x else p.mapLinks s x
      cachedInnerUsage := p.cachedInnerUsage+unit }
  else if other ∈ p.mapLinks side entry then
    { p with
      mapLinks := fun s x => if s = side ∧ x = entry then (p.mapLinks s x).erase other else p.mapLinks s x
      cachedInnerUsage := p.cachedInnerUsage-unit }
  else p

def insertEntry (e : CTxMemPoolEntry) (p : CTxMemPool) : CTxMemPool :=
  { p with
    mapTx := { e with entryId := p.nextEntryId, feeDelta := p.delta e.txid }::p.mapTx
    mapNextTx := fun x => (p.mapNextTx x).or (if x ∈ e.prevouts then some e.txid else none)
    totalTxSize := p.totalTxSize+e.nTxSize
    cachedInnerUsage := p.cachedInnerUsage+e.nUsageSize
    nextEntryId := p.nextEntryId+1 }

def linkAll (side : LinkSide) (pairs : List (TxId × TxId)) (add : Bool) (p : CTxMemPool) : CTxMemPool :=
  pairs.foldl (fun p q => p.updateLink unit side q.1 q.2 add) p

def addUnchecked (e : CTxMemPoolEntry) (p : CTxMemPool) : CTxMemPool :=
  let p := p.insertEntry e
  let p := p.linkAll unit .parents ((e.parentIds.filter (· ∈ p.txids)).map fun q => (e.txid,q)) true
  p.linkAll unit .children ((p.mapLinks .parents e.txid).map fun q => (q,e.txid)) true

def removeUnchecked (r : TxId) (p : CTxMemPool) : CTxMemPool :=
  match p.mapTx.find? fun e => e.txid == r with
  | none => p
  | some e => { p with
      mapTx := p.mapTx.filter fun e => e.txid != r
      mapNextTx := fun x => if x ∈ e.prevouts then none else p.mapNextTx x
      mapLinks := fun s x => if x = r then [] else p.mapLinks s x
      totalTxSize := p.totalTxSize-e.nTxSize
      cachedInnerUsage := p.cachedInnerUsage-
        (e.nUsageSize+unit*((p.mapLinks .parents r).length+(p.mapLinks .children r).length : Nat)) }

def unlink (side other : LinkSide) (stage : List TxId) (p : CTxMemPool) : CTxMemPool :=
  stage.foldl (fun p r => p.linkAll unit side ((p.mapLinks other r).map fun q => (q,r)) false) p

def updateForRemoveFromMempool (stage : List TxId) (p : CTxMemPool) : CTxMemPool :=
  (p.unlink unit .children .parents stage).unlink unit .parents .children stage

def removeStaged (stage : List TxId) (p : CTxMemPool) : CTxMemPool :=
  stage.foldl (fun p r => p.removeUnchecked unit r) (p.updateForRemoveFromMempool unit stage)

def innerUsage (p : CTxMemPool) : Int := (p.mapTx.map fun e => (e.nUsageSize : Int)+
    unit*((p.mapLinks .parents e.txid).length+(p.mapLinks .children e.txid).length : Nat)).sum

def SpendsFrom (p : CTxMemPool) (a b : TxId) : Prop := ∃ e ∈ p.mapTx, e.txid = a ∧ b ∈ e.parentIds ∧ b ∈ p.txids
end CTxMemPool
end Stored

section Sums

variable {α κ : Type} [DecidableEq κ] {key : α → κ}

theorem sum_map_update {l : List α} (hnd : (l.map key).Nodup) {f g : α → Int} {k : κ} {d : Int} (hk : k ∈ l.map key)
    (hfg : ∀ e ∈ l, g e = f e+if key e = k then d else 0) : (l.map g).sum = (l.map f).sum+d := by
  induction l with
  | nil => cases hk
  | cons a l ih =>
    rw [map_cons,nodup_cons] at hnd
    rw [forall_mem_cons] at hfg
    rw [map_cons,map_cons,sum_cons,sum_cons,hfg.1]
    by_cases hak : key a = k
    · have hrest : l.map g = l.map f := by
        apply map_congr_left
        intro e he
        have hne : key e ≠ k := fun h => hnd.1 (hak.trans h.symm ▸ mem_map_of_mem he)
        rw [hfg.2 e he,if_neg hne,add_zero]
      rw [if_pos hak,hrest]
      omega
    · have hk' : k ∈ l.map key := by
        obtain h | h := mem_cons.mp hk
        · exact absurd h.symm hak
        · exact h
      rw [if_neg hak,ih hnd.2 hk' hfg.2]
      omega

theorem sum_map_filter_ne {l : List α} (hnd : (l.map key).Nodup) (f : α → Int) {e : α} (he : e ∈ l) :
    ((l.filter fun a => key a != key e).map f).sum = (l.map f).sum-f e := by
  induction l with
  | nil => cases he
  | cons a l ih =>
    rw [map_cons,nodup_cons] at hnd
    obtain rfl | he := mem_cons.mp he
    · have hrest : (e::l).filter (fun a => key a != key e) = l := by
        rw [filter_cons_of_neg (by simp),filter_eq_self]
        intro b hb
        rw [bne_iff_ne]
        exact fun h => hnd.1 (h ▸ mem_map_of_mem hb)
      rw [hrest,map_cons,sum_cons]
      omega
    · have hne : key a ≠ key e := fun h => hnd.1 (h ▸ mem_map_of_mem he)
      rw [filter_cons_of_pos (by simpa using hne),map_cons,sum_cons,ih hnd.2 he,map_cons,sum_cons]
      omega
end Sums

section Accounting

namespace CTxMemPool

variable {unit : Nat} {p p' : CTxMemPool}

structure SameEntries (p p' : CTxMemPool) : Prop where
  mapTx : p'.mapTx = p.mapTx
  mapNextTx : p'.mapNextTx = p.mapNextTx
  totalTxSize : p'.totalTxSize = p.totalTxSize
  nextEntryId : p'.nextEntryId = p.nextEntryId

theorem SameEntries.refl (p : CTxMemPool) : SameEntries p p := ⟨rfl,rfl,rfl,rfl⟩

theorem SameEntries.trans {p'' : CTxMemPool} (h : SameEntries p p') (h' : SameEntries p' p'') : SameEntries p p'' :=
  ⟨h'.mapTx.trans h.mapTx,h'.mapNextTx.trans h.mapNextTx,h'.totalTxSize.trans h.totalTxSize,
    h'.nextEntryId.trans h.nextEntryId⟩

theorem SameEntries.txids (h : SameEntries p p') : p'.txids = p.txids := congrArg (List.map _) h.mapTx

structure Accounted (unit : Nat) (p : CTxMemPool) : Prop where
  nodup : p.txids.Nodup
  links : ∀ side x, (p.mapLinks side x).Nodup
  usage : p.cachedInnerUsage = p.innerUsage unit

theorem updateLink_same (side : LinkSide) (entry other : TxId) (add : Bool) :
    SameEntries p (p.updateLink unit side entry other add) := by
  unfold updateLink
  split_ifs <;> exact ⟨rfl,rfl,rfl,rfl⟩

theorem mem_updateLink_add (side s : LinkSide) (entry other x y : TxId) :
    y ∈ (p.updateLink unit side entry other true).mapLinks s x ↔
      y ∈ p.mapLinks s x ∨ (s = side ∧ x = entry ∧ y = other) := by
  unfold updateLink
  rw [if_pos rfl]
  split
  · rename_i hmem
    constructor
    · exact .inl
    · rintro (h | ⟨rfl,rfl,rfl⟩)
      · exact h
      · exact hmem
  · dsimp only
    split
    · rename_i hx
      obtain ⟨rfl,rfl⟩ := hx
      rw [mem_cons]
      tauto
    · tauto

theorem mem_updateLink_remove (hnd : ∀ side x, (p.mapLinks side x).Nodup) (side s : LinkSide)
    (entry other x y : TxId) : y ∈ (p.updateLink unit side entry other false).mapLinks s x ↔
      y ∈ p.mapLinks s x ∧ ¬(s = side ∧ x = entry ∧ y = other) := by
  unfold updateLink
  rw [if_neg (by decide)]
  split
  · dsimp only
    split
    · rename_i hx
      obtain ⟨rfl,rfl⟩ := hx
      rw [(hnd s x).mem_erase_iff]
      tauto
    · tauto
  · rename_i hmem
    constructor
    · intro h
      refine ⟨h,?_⟩
      rintro ⟨rfl,rfl,rfl⟩
      exact hmem h
    · exact And.left

theorem Accounted.updateLink (h : Accounted unit p) (side : LinkSide) {entry : TxId} (hentry : entry ∈ p.txids)
    (other : TxId) (add : Bool) : Accounted unit (p.updateLink unit side entry other add) := by
  have hsame := @updateLink_same unit p side entry other add
  refine ⟨hsame.txids ▸ h.nodup,?_,?_⟩
  · intro s x
    unfold CTxMemPool.updateLink
    split_ifs with hadd hmem hmem
    · exact h.links s x
    · dsimp only
      split_ifs with hx
      · obtain ⟨rfl,rfl⟩ := hx
        exact nodup_cons.mpr ⟨hmem,h.links s x⟩
      · exact h.links s x
    · dsimp only
      split_ifs with hx
      · exact (h.links s x).erase other
      · exact h.links s x
    · exact h.links s x
  · unfold CTxMemPool.updateLink
    split_ifs with hadd hmem hmem
    · exact h.usage
    · -- one element more on one side of one entry
      rw [h.usage]
      symm
      apply sum_map_update h.nodup hentry
      intro e _
      cases side <;> by_cases he : e.txid = entry <;> simp [he] <;> ring
    · rw [h.usage,sub_eq_add_neg]
      symm
      apply sum_map_update h.nodup hentry
      intro e _
      have hlen := length_erase_of_mem hmem
      have hpos := length_pos_of_mem hmem
      cases side <;> by_cases he : e.txid = entry <;> simp [he,hlen] <;> push_cast [Nat.cast_sub hpos] <;> ring
    · exact h.usage

theorem linkAll_spec (side : LinkSide) (add : Bool) (pairs : List (TxId × TxId)) (h : Accounted unit p)
    (hin : ∀ q ∈ pairs, q.1 ∈ p.txids) :
    SameEntries p (p.linkAll unit side pairs add) ∧ Accounted unit (p.linkAll unit side pairs add) ∧
      ∀ s x y, y ∈ (p.linkAll unit side pairs add).mapLinks s x ↔ match add with
        | true => y ∈ p.mapLinks s x ∨ (s = side ∧ (x,y) ∈ pairs)
        | false => y ∈ p.mapLinks s x ∧ ¬(s = side ∧ (x,y) ∈ pairs) := by
  induction pairs generalizing p with
  | nil => exact ⟨.refl p,h,by cases add <;> simp [linkAll]⟩
  | cons q pairs ih =>
    rw [forall_mem_cons] at hin
    have hsame := @updateLink_same unit p side q.1 q.2 add
    obtain ⟨h1,h2,h3⟩ := ih (h.updateLink side hin.1 q.2 add) (hsame.txids ▸ hin.2)
    refine ⟨hsame.trans h1,h2,fun s x y => (h3 s x y).trans ?_⟩
    cases add with
    | true =>
      rw [mem_updateLink_add,mem_cons,Prod.ext_iff]
      tauto
    | false =>
      rw [mem_updateLink_remove h.links,mem_cons,Prod.ext_iff]
      tauto

theorem unlink_spec {side other : LinkSide} (hne : other ≠ side) (stage : List TxId) (h : Accounted unit p)
    (hin : ∀ r x, x ∈ p.mapLinks other r → x ∈ p.txids) :
    SameEntries p (p.unlink unit side other stage) ∧ Accounted unit (p.unlink unit side other stage) ∧
      (∀ x y, y ∈ (p.unlink unit side other stage).mapLinks side x ↔
        y ∈ p.mapLinks side x ∧ ¬(y ∈ stage ∧ x ∈ p.mapLinks other y)) ∧
      ∀ x y, y ∈ (p.unlink unit side other stage).mapLinks other x ↔ y ∈ p.mapLinks other x := by
  induction stage generalizing p with
  | nil => exact ⟨.refl p,h,by simp [unlink],by simp [unlink]⟩
  | cons r stage ih =>
    obtain ⟨h1,h2,h3⟩ := linkAll_spec side false ((p.mapLinks other r).map fun q => (q,r)) h
      (forall_mem_map.mpr fun q hq => hin r q hq)
    have hother : ∀ x y, y ∈ (p.linkAll unit side ((p.mapLinks other r).map fun q => (q,r)) false).mapLinks other x ↔
        y ∈ p.mapLinks other x := by
      intro x y
      rw [h3]
      exact and_iff_left fun h => hne h.1
    obtain ⟨i1,i2,i3,i4⟩ := ih h2 fun r x hx => h1.txids ▸ hin r x ((hother r x).mp hx)
    refine ⟨h1.trans i1,i2,fun x y => (i3 x y).trans ?_,fun x y => (i4 x y).trans (hother x y)⟩
    have hpair : (x,y) ∈ (p.mapLinks other r).map (fun q => (q,r)) ↔ x ∈ p.mapLinks other r ∧ y = r := by
      simp [eq_comm]
    rw [h3,hother,hpair,mem_cons]
    constructor
    · rintro ⟨⟨hy,hn⟩,hn'⟩
      refine ⟨hy,?_⟩
      rintro ⟨rfl | hs,hx⟩
      · exact hn ⟨rfl,hx,rfl⟩
      · exact hn' ⟨hs,hx⟩
    · rintro ⟨hy,hn⟩
      refine ⟨⟨hy,?_⟩,fun h => hn ⟨.inr h.1,h.2⟩⟩
      rintro ⟨-,hx,rfl⟩
      exact hn ⟨.inl rfl,hx⟩
end CTxMemPool
end Accounting
end BitfiniteCore
