import BitfiniteCore.Validation.Replay

/-! # Crash recovery -/

namespace BitfiniteCore
open WriteBack Function ParentTree List

section Block

variable {ctx : BlockContext} {block : CBlock} {cb : CTransaction} {txs : List CTransaction}
  {fees : List Int} {m m' : CoinMap} {undo : CBlockUndo}

theorem CoinMap.insertAll_congr_of_mem {ps : List (COutPoint × Coin)} {x : COutPoint}
    (hx : x ∈ ps.map Prod.fst) (m m' : CoinMap) : m.insertAll ps x = m'.insertAll ps x := by
  induction ps generalizing m m' with
  | nil => cases hx
  | cons p ps ih =>
    by_cases hps : x ∈ ps.map Prod.fst
    · exact ih hps _ _
    · obtain rfl : x = p.1 := (mem_cons.mp hx).resolve_right hps
      rw [CoinMap.insertAll,CoinMap.insertAll,CoinMap.insertAll_of_notMem hps,
        CoinMap.insertAll_of_notMem hps,update_self,update_self]

theorem Connects.undone (h : Connects ctx block cb txs fees m m' undo) (w : CoinMap) (x : COutPoint) :
    (w.insertAll (restored txs undo.vtxundo)).remove ((blockCreated ctx.nHeight (cb::txs)).map Prod.fst) x = m x ∨
      (w.insertAll (restored txs undo.vtxundo)).remove ((blockCreated ctx.nHeight (cb::txs)).map Prod.fst) x =
        w x ∧ m x = m' x := by
  unfold CoinMap.remove
  by_cases hcreated : x ∈ (blockCreated ctx.nHeight (cb::txs)).map Prod.fst
  · rw [if_pos hcreated]
    exact .inl (h.created_none x hcreated).symm
  · rw [if_neg hcreated]
    have hbefore : m'.insertAll (restored txs undo.vtxundo) x = m x := by
      rw [h.insertAll_restored]
      exact CoinMap.insertAll_of_notMem hcreated m
    by_cases hspent : x ∈ (restored txs undo.vtxundo).map Prod.fst
    · exact .inl ((CoinMap.insertAll_congr_of_mem hspent w m').trans hbefore)
    · rw [CoinMap.insertAll_of_notMem hspent] at hbefore ⊢
      exact .inr ⟨rfl,hbefore.symm⟩

theorem Connects.redone (h : Connects ctx block cb txs fees m m' undo) (w : CoinMap) (x : COutPoint) :
    (w.insertAll (blockCreated ctx.nHeight (cb::txs))).remove (blockSpent (cb::txs)) x = m' x ∨
      (w.insertAll (blockCreated ctx.nHeight (cb::txs))).remove (blockSpent (cb::txs)) x = w x ∧ m' x = m x := by
  rw [h.coins]
  unfold CoinMap.withBlock CoinMap.remove
  by_cases hspent : x ∈ blockSpent (cb::txs)
  · rw [if_pos hspent,if_pos hspent]
    exact .inl rfl
  · rw [if_neg hspent,if_neg hspent]
    by_cases hcreated : x ∈ (blockCreated ctx.nHeight (cb::txs)).map Prod.fst
    · exact .inl (CoinMap.insertAll_congr_of_mem hcreated w m)
    · rw [CoinMap.insertAll_of_notMem hcreated,CoinMap.insertAll_of_notMem hcreated]
      exact .inr ⟨rfl,rfl⟩
end Block

section Views

variable {frame : ViewFrame} {S : COutPoint → Prop} {v : CCoinsViewCache} {m : CoinMap}

theorem CoinMap.addCoinsFrom_check (txid : TxId) (cb : Bool) (nHeight i : Nat) (vout : List CTxOut)
    (m : CoinMap) (hnull : ∀ o ∈ vout, o.isNull = false) :
    CoinMap.addCoinsFrom txid cb nHeight true i vout m = .ok (m.insertAll (createdFrom txid cb nHeight i vout)) := by
  induction vout generalizing i m with
  | nil => rfl
  | cons o vout ih =>
    obtain ⟨ho,hvout⟩ := forall_mem_cons.mp hnull
    rw [CoinMap.addCoinsFrom,CoinMap.addCoin,if_neg (by simp [isSpent_ofOutput,ho]),createdFrom]
    by_cases hu : o.scriptPubKey.isUnspendable = true
    · rw [if_pos hu,if_pos (by exact hu)]
      exact ih (i+1) m hvout
    · rw [if_neg hu,if_neg (by exact hu),if_neg (by simp)]
      exact ih (i+1) _ hvout

theorem readdCoins_spec (nHeight : Nat) (txs : List CTransaction) (h : ViewRel frame S v m)
    (hnull : ∀ tx ∈ txs, ∀ o ∈ tx.vout, o.isNull = false) :
    ∃ v', readdCoins nHeight txs v = .ok v' ∧ ViewRel frame S v' (m.insertAll (blockCreated nHeight txs)) := by
  induction txs generalizing v m with
  | nil => exact ⟨v,rfl,h⟩
  | cons tx txs ih =>
    obtain ⟨htx,htxs⟩ := forall_mem_cons.mp hnull
    obtain ⟨w,hw,hrel⟩ := (addCoins_simulates tx nHeight true h nofun).ok_right
      (CoinMap.addCoinsFrom_check tx.getId tx.isCoinBase nHeight 0 tx.vout m htx)
    obtain ⟨v',hv',hrel'⟩ := ih hrel htxs
    refine ⟨v',?_,?_⟩
    · rw [readdCoins,hw]
      exact hv'
    · rw [blockCreated_cons,CoinMap.insertAll_append]
      exact hrel'

theorem respendInputs_spec (vin : List CTxIn) (h : ViewRel frame S v m) :
    ViewRel frame S (respendInputs vin v) (m.spend vin) := by
  induction vin generalizing v m with
  | nil => exact h
  | cons i vin ih => exact ih (h.spendCoin i.prevout)

theorem respendCoins_spec (txs : List CTransaction) (h : ViewRel frame S v m) :
    ViewRel frame S (respendCoins txs v) (m.remove (blockSpent txs)) := by
  induction txs generalizing v m with
  | nil =>
    rw [blockSpent,flatMap_nil,CoinMap.remove_nil]
    exact h
  | cons tx txs ih =>
    rw [blockSpent,flatMap_cons,← CoinMap.remove_remove]
    apply ih
    unfold CTransaction.spent
    split
    · rw [CoinMap.remove_nil]
      exact h
    · rw [← CoinMap.spend_eq_remove]
      exact respendInputs_spec tx.vin h
end Views

section Branches

variable {store : BlockStore} {a b p fork pindexNew : BlockHash} {S : COutPoint → Prop} {v : CCoinsViewCache}
  {w m mNew : CoinMap} {frame : ViewFrame}

theorem rollback_spec (h : ChainCoins store b m) (hfork : store.tree.Anc fork b) (hv : ViewRel frame S v w)
    (hw : ∀ x, w x = m x ∨ w x = mNew x) :
    ∃ v' w' h0 mf, rollback store (store.tree.path fork b) v = .ok (some v') ∧
      ViewRel (h0,frame.2) S v' w' ∧ ChainCoins store fork mf ∧ ∀ x, w' x = mf x ∨ w' x = mNew x := by
  induction b using store.tree.induction_up generalizing v w m frame with
  | root b hb =>
    obtain rfl := hfork.root hb
    exact ⟨v,w,frame.1,m,by rw [path_self]; rfl,hv,h,hw⟩
  | child b p hp ih =>
    by_cases hne : b = fork
    · subst hne
      exact ⟨v,w,frame.1,m,by rw [path_self]; rfl,hv,h,hw⟩
    obtain ⟨m0,ctx,block,undo,cb,txs,fees,hc,hblock,hundo,hheight,hlt,hconn⟩ := h.inv hp
    have hpos : 0 < ctx.nHeight := by
      rw [hheight,store.tree.height_parent hp]
      omega
    obtain ⟨res,v1,hv1,hres,hrel,-⟩ := applyBlockUndo_spec ctx.nHeight hconn.vtx
      (hconn.undoFits hc.restorable hpos hlt) hv
    obtain ⟨q,hq,hfq⟩ := hfork.parent_of_ne (Ne.symm hne)
    rw [hp] at hq
    cases hq
    obtain ⟨v',w',h0,mf,hv',hrel',hmf,hw'⟩ := ih hc hfq hrel fun x => by
      rcases hconn.undone w x with hx | ⟨hx,hsame⟩
      · exact .inl hx
      · rw [hx,hsame]
        exact hw x
    refine ⟨v',w',h0,mf,?_,hrel',hmf,hw'⟩
    rw [path_parent hp hne,rollback,if_pos (by rw [← hheight]; exact hpos),hblock]
    simp only [disconnectBlock,hundo]
    rw [← hheight,hv1]
    simpa [Except.bind,hres] using hv'

theorem rollforwardBlock_spec (h : ChainCoins store b m) (hp : store.tree.parent b = some p) {mp : CoinMap}
    (hmp : ChainCoins store p mp) (hv : ViewRel frame S v w) (hw : ∀ x, w x = mp x ∨ w x = mNew x) :
    ∃ v' w', rollforwardBlock store b v = .ok (some v') ∧ ViewRel frame S v' w' ∧
      ∀ x, w' x = m x ∨ w' x = mNew x := by
  obtain ⟨m0,ctx,block,undo,cb,txs,fees,hc,hblock,-,hheight,-,hconn⟩ := h.inv hp
  obtain rfl := hc.unique hmp
  have hnull : ∀ tx ∈ block.vtx, ∀ o ∈ tx.vout, o.isNull = false := by
    rw [hconn.vtx]
    intro tx htx o ho
    have hmoney := (moneyRange_iff _).mp ((hconn.common tx htx).money o ho)
    simp only [CTxOut.isNull,beq_eq_false_iff_ne]
    omega
  obtain ⟨v1,hv1,hrel⟩ := readdCoins_spec (store.tree.height b) block.vtx hv hnull
  refine ⟨_,_,?_,respendCoins_spec block.vtx hrel,fun x => ?_⟩
  · rw [rollforwardBlock,hblock]
    simp only [hv1]
    rfl
  · rw [hconn.vtx,← hheight]
    rcases hconn.redone w x with hx | ⟨hx,hsame⟩
    · exact .inl hx
    · rw [hx,hsame]
      exact hw x

theorem rollforward_spec (hnew : ChainCoins store pindexNew mNew) (n : Nat) (ha : store.tree.Anc a pindexNew)
    (hn : store.tree.height a+n = store.tree.height pindexNew) (hm : ChainCoins store a m)
    (hv : ViewRel frame S v w) (hw : ∀ x, w x = m x ∨ w x = mNew x) :
    ∃ v', rollforward store pindexNew n (store.tree.height a+1) v = .ok (some v') ∧ ViewRel frame S v' mNew := by
  induction n generalizing a m v w with
  | zero =>
    obtain rfl := ha.eq_of_height_le (by omega)
    obtain rfl := hm.unique hnew
    obtain rfl : w = m := funext fun x => (hw x).elim id id
    exact ⟨v,rfl,hv⟩
  | succ n ih =>
    obtain ⟨b,hget,hb,hbh⟩ := exists_getAncestor (T := store.tree.toParentTree) (b := pindexNew)
      (h := store.tree.height a+1) (by omega)
    obtain ⟨p,hp,hap⟩ := (ha.of_height_le hb (by omega)).parent_of_ne (by rintro rfl; omega)
    obtain rfl : a = p := hap.eq_of_height_le (by have := store.tree.height_parent hp; omega)
    obtain ⟨mb,hmb⟩ := hnew.of_anc hb
    obtain ⟨v1,w1,hv1,hrel,hw1⟩ := rollforwardBlock_spec hmb hp hm hv hw
    obtain ⟨v',hv',hrel'⟩ := ih hb (by omega) hmb hrel hw1
    refine ⟨v',?_,hrel'⟩
    rw [rollforward,hget]
    simp only [hv1,Except.bind]
    rw [← hbh]
    exact hv'
end Branches

section Flush

variable {db : CCoinsViewDB} {plan : FlushPlan} {mapCoins : CCoinsMap} {hashBlock : BlockHash}

private theorem layer_lookup (mapCoins : CCoinsMap) (f : CoinMap) (x : COutPoint) :
    layer (lines mapCoins) f x = (mapCoins.lookup x).elim (f x) fun e => e.coin.unspent := by
  rw [layer,lines]
  cases mapCoins.lookup x <;> rfl

theorem writeEntries_some {es1 es2 : CoinsEntries} (hes : plan.order mapCoins = es1++es2) (f : CoinMap)
    (x : COutPoint) : writeEntries f es1 x = f x ∨ writeEntries f es1 x = layer (lines mapCoins) f x := by
  have hperm := plan.perm mapCoins
  rw [hes] at hperm
  have hnd : (es1++es2).NodupKeys := (perm_nodupKeys hperm).mpr mapCoins.nodupKeys
  rw [writeEntries_apply (hnd.sublist (sublist_append_left es1 es2))]
  cases he : es1.dlookup x with
  | none => exact .inl rfl
  | some e =>
    have hmem := hperm.mem_iff.mp (mem_append_left es2 (of_mem_dlookup he))
    rw [layer_lookup,AList.lookup,mem_dlookup mapCoins.nodupKeys hmem]
    cases hd : e.dirty <;> simp [hd,Option.filter]

theorem writeEntries_all {f : CoinMap} (hsound : LayerSound (lines mapCoins) f) :
    writeEntries f (plan.order mapCoins) = layer (lines mapCoins) f := by
  funext x
  have hperm := plan.perm mapCoins
  have hnd : (plan.order mapCoins).NodupKeys := (perm_nodupKeys hperm).mpr mapCoins.nodupKeys
  rw [writeEntries_apply hnd,perm_dlookup x hnd hperm,layer_lookup,AList.lookup]
  cases he : mapCoins.entries.dlookup x with
  | none => rfl
  | some e =>
    cases hd : e.dirty with
    | true => simp [hd,Option.filter]
    | false =>
      have hclean : e.coin.unspent = f x := (hsound x e.line (lines_of_lookup he)).clean hd
      simpa [hd,Option.filter] using hclean.symm

/-- The database in the middle of a move from an old to a new tip. -/
structure InTransition (old : Option BlockHash) (new : BlockHash) (mOld mNew : CoinMap) (db : CCoinsViewDB) :
    Prop where
  best : db.bestBlock = none
  heads : db.headBlocks = [new,old.getD 0]
  coins : ∀ x, db.coins x = mOld x ∨ db.coins x = mNew x

theorem InTransition.oldTip {old : Option BlockHash} {new : BlockHash} {mOld mNew : CoinMap}
    (h : InTransition old new mOld mNew db) : db.oldTip new = .ok (old.getD 0) := by
  simp [CCoinsViewDB.oldTip,CCoinsViewDB.getBestBlock,h.best,h.heads]

theorem batchWrite_spec {old : Option BlockHash} {mOld mNew : CoinMap} {batches : List CDBBatch} {k : Nat}
    (h : db.batchWrite plan mapCoins hashBlock = .ok batches) (hold : db.oldTip hashBlock = .ok (old.getD 0))
    (hcoins : ∀ x, db.coins x = mOld x ∨ db.coins x = mNew x)
    (hsound : LayerSound (lines mapCoins) db.coins) (hnet : layer (lines mapCoins) db.coins = mNew)
    (hk : 0 < k) :
    db.writeBatches (batches.take k) = ⟨mNew,some hashBlock,[]⟩ ∨
      k < batches.length ∧ InTransition old hashBlock mOld mNew (db.writeBatches (batches.take k)) := by
  obtain ⟨o,ho,hdisk⟩ := CCoinsViewDB.batchWrite_take h hk
  rw [hold] at ho
  cases ho
  rcases hdisk with hdisk | ⟨hlt,es1,es2,hes,hdisk⟩
  · left
    rw [hdisk,writeEntries_all hsound,hnet]
  · right
    rw [hdisk]
    refine ⟨hlt,rfl,rfl,fun x => ?_⟩
    rcases writeEntries_some hes db.coins x with hx | hx
    · simp only [hx]
      exact hcoins x
    · right
      simp only [hx,hnet]
end Flush

section Recovery

variable {store : BlockStore} {old : Option BlockHash} {new : BlockHash} {mOld mNew : CoinMap} {db : CCoinsViewDB}

/-- The coins of the tip that a flush starts from; before the first flush there are none. -/
def OldCoins (store : BlockStore) : Option BlockHash → CoinMap → Prop
  | none, m => m = fun _ => none
  | some b, m => b ∈ store.tree.known ∧ ChainCoins store b m

private theorem transition_coins (h : InTransition old new mOld mNew db) (hold : OldCoins store old mOld)
    (hnew : ChainCoins store new mNew) : db.view.coins = db.coins := by
  funext x
  change (db.coins x).bind Coin.unspent = db.coins x
  rcases h.coins x with hx | hx
  · rw [hx]
    cases old with
    | none =>
      obtain rfl := hold
      rfl
    | some b => exact hold.2.unspent x
  · rw [hx,hnew.unspent]

theorem replayBranches_spec (h : InTransition old new mOld mNew db) (hold : OldCoins store old mOld)
    (hnew : ChainCoins store new mNew) {fork : BlockHash} {undone : List BlockHash} (hfork : store.tree.Anc fork new)
    (hbranch : (undone = [] ∧ ChainCoins store fork mOld) ∨
      ∃ b, ChainCoins store b mOld ∧ store.tree.Anc fork b ∧ undone = store.tree.path fork b) :
    ∃ cache, replayBranches store db new (store.tree.height fork) undone = .ok (some cache) ∧
      cache.hashBlock = new ∧ LayerSound (lines cache.cacheCoins) db.coins ∧
      layer (lines cache.cacheCoins) db.coins = mNew := by
  have hview := transition_coins h hold hnew
  have hstart : ViewRel (0,db.view.bestBlock,db.coins) (fun _ => False) (CCoinsViewCache.ofBase db.view)
      db.coins := by
    refine ⟨CCoinsViewCache.ofBase_WF trivial,?_,?_,(fun _ hx => nomatch hx)⟩
    · rw [CCoinsViewCache.ofBase_coins,hview]
    · rw [← hview]
      rfl
  obtain ⟨v1,w1,h0,mf,hv1,hrel1,hmf,hw1⟩ : ∃ v' w' h0 mf,
      rollback store undone (CCoinsViewCache.ofBase db.view) = .ok (some v') ∧
      ViewRel (h0,db.view.bestBlock,db.coins) (fun _ => False) v' w' ∧ ChainCoins store fork mf ∧
      ∀ x, w' x = mf x ∨ w' x = mNew x := by
    rcases hbranch with ⟨rfl,hm⟩ | ⟨b,hm,hfb,rfl⟩
    · exact ⟨_,_,0,mOld,rfl,hstart,hm,h.coins⟩
    · exact rollback_spec hm hfb hstart h.coins
  have hle := hfork.height_le
  obtain ⟨v2,hv2,hrel2⟩ := rollforward_spec hnew (store.tree.height new-store.tree.height fork) hfork
    (by omega) hmf hrel1 hw1
  have hbase : v2.base.coins = db.coins := congrArg (fun f => f.2.2) hrel2.frame
  refine ⟨v2.setBestBlock new,?_,rfl,?_,?_⟩
  · rw [replayBranches,hv1]
    simp only [Except.bind,hv2]
    rfl
  · rw [← hbase]
    exact hrel2.wf.2
  · rw [← hbase]
    exact hrel2.coins

theorem InTransition.replay (h : InTransition old new mOld mNew db) (hold : OldCoins store old mOld)
    (hnew : ChainCoins store new mNew) (hknown : new ∈ store.tree.known) (plan : FlushPlan) :
    ∃ batches mapCoins, replayBatches plan store db = .ok (some batches) ∧ batches ≠ [] ∧
      db.batchWrite plan mapCoins new = .ok batches ∧ LayerSound (lines mapCoins) db.coins ∧
      layer (lines mapCoins) db.coins = mNew := by
  have hnull : new ≠ 0 := fun h0 => store.null_unknown (h0 ▸ hknown)
  suffices ∃ nForkHeight undone, (∃ cache, replayBranches store db new nForkHeight undone = .ok (some cache) ∧
      cache.hashBlock = new ∧ LayerSound (lines cache.cacheCoins) db.coins ∧
      layer (lines cache.cacheCoins) db.coins = mNew) ∧
      ∀ cache, replayBranches store db new nForkHeight undone = .ok (some cache) →
        replayBatches plan store db = (db.batchWrite plan cache.cacheCoins cache.hashBlock).map some by
    obtain ⟨nForkHeight,undone,⟨cache,hcache,hhash,hsound,hnet⟩,hreplay⟩ := this
    obtain ⟨batches,hbatches,hne⟩ := CCoinsViewDB.batchWrite_isOk plan cache.cacheCoins hnull h.oldTip
    refine ⟨batches,cache.cacheCoins,?_,hne,hbatches,hsound,hnet⟩
    rw [hreplay cache hcache,hhash,hbatches]
    rfl
  unfold replayBatches
  rw [h.heads]
  dsimp only
  rw [if_neg (by simpa using hknown)]
  cases old with
  | none =>
    -- the first flush: the new branch is redone from genesis on
    obtain rfl := hold
    refine ⟨0,[],?_,fun cache hcache => by rw [Option.getD_none,if_pos rfl,hcache]; rfl⟩
    have h0 : store.tree.height store.tree.genesis = 0 := store.tree.height_root store.tree.parent_genesis
    rw [← h0]
    exact replayBranches_spec h rfl hnew (BlockTree.genesis_anc hknown)
      (.inl ⟨rfl,.genesis store.tree.parent_genesis⟩)
  | some b =>
    obtain ⟨hb,hm⟩ := hold
    have hb0 : b ≠ 0 := fun h0 => store.null_unknown (h0 ▸ hb)
    obtain ⟨fork,hfork⟩ := BlockTree.exists_lastCommonAncestor hb hknown
    obtain ⟨h1,h2,-⟩ := lastCommonAncestor_eq_some.mp hfork
    refine ⟨store.tree.height fork,store.tree.path fork b,
      replayBranches_spec h ⟨hb,hm⟩ hnew h2 (.inr ⟨b,hm,h1,rfl⟩),?_⟩
    intro cache hcache
    dsimp only [Option.getD_some]
    rw [if_neg hb0,if_neg (by simpa using hb),hfork]
    dsimp only
    rw [hcache]
    rfl

/-- The databases after a flush from `old` to `new` and recoveries that all stopped half way. -/
inductive Interrupted (store : BlockStore) (old : Option BlockHash) (new : BlockHash) (mOld mNew : CoinMap) :
    CCoinsViewDB → Prop
  | flush {plan : FlushPlan} {mapCoins : CCoinsMap} {batches : List CDBBatch} {k : Nat}
      (hsound : LayerSound (lines mapCoins) mOld) (hnet : layer (lines mapCoins) mOld = mNew)
      (hbatches : CCoinsViewDB.batchWrite plan ⟨mOld,old,[]⟩ mapCoins new = .ok batches) (hk : 0 < k) :
      Interrupted store old new mOld mNew (CCoinsViewDB.writeBatches ⟨mOld,old,[]⟩ (batches.take k))
  | recovery {plan : FlushPlan} {db : CCoinsViewDB} {batches : List CDBBatch} (k : Nat)
      (found : Interrupted store old new mOld mNew db)
      (hbatches : replayBatches plan store db = .ok (some batches)) :
      Interrupted store old new mOld mNew (db.writeBatches (batches.take k))

theorem Interrupted.invariant (h : Interrupted store old new mOld mNew db) (hold : OldCoins store old mOld)
    (hnew : ChainCoins store new mNew) (hknown : new ∈ store.tree.known) :
    db = ⟨mNew,some new,[]⟩ ∨ InTransition old new mOld mNew db := by
  induction h with
  | @flush plan mapCoins batches k hsound hnet hbatches hk =>
    have htip : CCoinsViewDB.oldTip ⟨mOld,old,[]⟩ new = .ok (old.getD 0) := by
      unfold CCoinsViewDB.oldTip CCoinsViewDB.getBestBlock
      split <;> simp_all
    exact (batchWrite_spec hbatches htip (fun x => .inl rfl) hsound hnet hk).imp_right And.right
  | @recovery plan db batches k _ hbatches ih =>
    rcases Nat.eq_zero_or_pos k with rfl | hk
    · exact ih
    rcases ih with rfl | ih
    · obtain rfl := Option.some.inj (Except.ok.inj hbatches)
      rw [take_nil]
      exact .inl rfl
    · obtain ⟨bs,mapCoins,hbs,-,hwrite,hsound,hnet⟩ := ih.replay hold hnew hknown plan
      obtain rfl := Option.some.inj (Except.ok.inj (hbatches.symm.trans hbs))
      exact (batchWrite_spec hwrite ih.oldTip ih.coins hsound hnet hk).imp_right And.right

/-- A replay after interrupted flushes ends with the database of the new tip. -/
theorem replayBlocks_recovers (hold : OldCoins store old mOld) (hnew : ChainCoins store new mNew)
    (hknown : new ∈ store.tree.known) (plan : FlushPlan) :
    (∀ db, Interrupted store old new mOld mNew db → replayBlocks plan store db = .ok (some ⟨mNew,some new,[]⟩)) ∧
    replayBlocks plan store ⟨mOld,old,[]⟩ = .ok (some ⟨mOld,old,[]⟩) := by
  refine ⟨fun db h => ?_,rfl⟩
  rcases h.invariant hold hnew hknown with rfl | htrans
  · rfl
  · obtain ⟨batches,mapCoins,hbatches,hne,hwrite,hsound,hnet⟩ := htrans.replay hold hnew hknown plan
    have hdone := batchWrite_spec hwrite htrans.oldTip htrans.coins hsound hnet (length_pos_iff.mpr hne)
    rw [take_length] at hdone
    rw [replayBlocks,hbatches]
    exact congrArg (fun d => Except.ok (some d)) (hdone.resolve_right fun hlt => lt_irrefl _ hlt.1)
end Recovery

section Sample

private def branchBlock (hash : BlockHash) (id : TxId) : CBlock :=
  ⟨⟨1,1,5,0,0,0,hash⟩,[⟨[⟨⟨0,outPointNullIndex⟩,[1,2],0⟩],[⟨50,[0x51],none⟩],2,0,id⟩]⟩

/-- Two blocks on top of genesis. -/
private theorem branch_new : 2 ∉ (BlockTree.ofGenesis 1 0x207fffff 0).known := by decide

private theorem branch_parent : 1 ∈ (BlockTree.ofGenesis 1 0x207fffff 0).known := by decide

private def branchStore : BlockStore where
  tree := ((BlockTree.ofGenesis 1 0x207fffff 0).add 2 1 2 0 branch_new branch_parent Nat.two_pos).add 3 1 2 0
    (by decide) (by decide) Nat.two_pos
  null_unknown := by decide
  readBlockFromDisk := fun b =>
    if b = 2 then some (branchBlock 2 20) else if b = 3 then some (branchBlock 3 30) else none
  undoReadFromDisk := fun _ => some ⟨[]⟩

private def branchView : CCoinsViewCache := CCoinsViewCache.ofBase (.map (fun _ => none) 1)

private def branchCoin : Coin := Coin.ofOutput ⟨50,[0x51],none⟩ 1 true

private def branchCoins (id : TxId) : CoinMap := update (fun _ => none) ⟨id,0⟩ (some branchCoin)

private theorem branchCoins_chain {b : BlockHash} {id : TxId} {v' : CCoinsViewCache}
    (hp : branchStore.tree.parent b = some 1) (hheight : branchStore.tree.height b = 1) (hgen : b ≠ 1)
    (hblock : branchStore.readBlockFromDisk b = some (branchBlock b id))
    (haccept : connectBlock (BlockContext.lenient 1) (branchBlock b id) branchView = .ok (v',⟨[]⟩)) :
    ChainCoins branchStore b (branchCoins id) := by
  have hgenesis : ChainCoins branchStore 1 branchView.coins := by
    rw [branchView,CCoinsViewCache.ofBase_coins]
    exact .genesis rfl
  have hnHeight : (BlockContext.lenient 1).nHeight = branchStore.tree.height b := hheight.symm
  have h := hgenesis.connect hp hblock rfl hnHeight (by decide) hgen (.inl rfl)
    (CCoinsViewCache.ofBase_WF trivial) haccept
  obtain ⟨m0,ctx,block,undo,cb,txs,fees,hc,hb,-,hh,-,hconn⟩ := h.inv hp
  obtain rfl := hc.root rfl
  cases hblock.symm.trans hb
  obtain ⟨rfl,rfl⟩ := List.cons.inj hconn.vtx
  have hcoins := hconn.coins
  rw [hh,hheight] at hcoins
  rwa [hcoins.trans (CoinMap.remove_nil (branchCoins id))] at h

private theorem branchCoins_two : ChainCoins branchStore 2 (branchCoins 20) := by
  obtain ⟨r,hr⟩ : ∃ r, connectBlock (BlockContext.lenient 1) (branchBlock 2 20) branchView = .ok (r,⟨[]⟩) := ⟨_,rfl⟩
  exact branchCoins_chain rfl rfl (by decide) rfl hr

private theorem branchCoins_three : ChainCoins branchStore 3 (branchCoins 30) := by
  obtain ⟨r,hr⟩ : ∃ r, connectBlock (BlockContext.lenient 1) (branchBlock 3 30) branchView = .ok (r,⟨[]⟩) := ⟨_,rfl⟩
  exact branchCoins_chain rfl rfl (by decide) rfl hr

private def branchChanges : CCoinsMap :=
  (AList.insert ⟨20,0⟩ ⟨Coin.null,true,false⟩ ∅).insert ⟨30,0⟩ ⟨branchCoin,true,false⟩

private theorem entries_perm (mapCoins : CCoinsMap) : mapCoins.entries.Perm mapCoins.entries := .refl _

private def branchPlan : FlushPlan := ⟨AList.entries,entries_perm,fun _ _ => true⟩

theorem replayBlocks_recovers_sample : ∃ db, Interrupted branchStore (some 2) 3 (branchCoins 20) (branchCoins 30) db ∧
      db.headBlocks = [3,2] ∧ (db.coins ⟨20,0⟩).isSome = true ∧ (db.coins ⟨30,0⟩).isSome = true ∧
      replayBlocks branchPlan branchStore db = .ok (some ⟨branchCoins 30,some 3,[]⟩) := by
  obtain ⟨batches,hbatches⟩ : ∃ batches, CCoinsViewDB.batchWrite branchPlan ⟨branchCoins 20,some 2,[]⟩
    branchChanges 3 = .ok batches := ⟨_,rfl⟩
  have hfound : Interrupted branchStore (some 2) 3 (branchCoins 20) (branchCoins 30)
      (CCoinsViewDB.writeBatches ⟨branchCoins 20,some 2,[]⟩ (batches.take 1)) := by
    refine .flush ?_ ?_ hbatches (by decide)
    · intro x l hl
      have hlines : ∀ l, lines branchChanges x = some l → l.dirty = true ∧ l.fresh = false := by
        intro l hl
        simp only [branchChanges,lines_insert,lines_empty] at hl
        by_cases h30 : x = ⟨30,0⟩
        · subst h30
          rw [update_self] at hl
          cases hl
          exact ⟨rfl,rfl⟩
        · rw [update_of_ne h30] at hl
          by_cases h20 : x = ⟨20,0⟩
          · subst h20
            rw [update_self] at hl
            cases hl
            exact ⟨rfl,rfl⟩
          · rw [update_of_ne h20] at hl
            cases hl
      obtain ⟨hd,hf⟩ := hlines l hl
      exact ⟨fun h => absurd h (by simp [hd]),fun h => absurd h (by simp [hf])⟩
    · rw [branchChanges,lines_insert,lines_insert,lines_empty,layer_update,layer_update]
      funext x
      by_cases h30 : x = ⟨30,0⟩
      · subst h30
        rfl
      · by_cases h20 : x = ⟨20,0⟩
        · subst h20
          rfl
        · rw [update_of_ne h30,update_of_ne h20]
          have h1 : branchCoins 20 x = none := update_of_ne h20 _ _
          have h2 : branchCoins 30 x = none := update_of_ne h30 _ _
          exact h1.trans h2.symm
  have hold : OldCoins branchStore (some 2) (branchCoins 20) := ⟨by decide,branchCoins_two⟩
  refine ⟨_,hfound,?_,?_,?_,(replayBlocks_recovers hold branchCoins_three (by decide) branchPlan).1 _ hfound⟩
  all_goals
    cases hbatches
    decide

theorem replayBlocks_nothing_written :
    ∃ batches, ChainCoins branchStore 2 (branchCoins 20) ∧ ChainCoins branchStore 3 (branchCoins 30) ∧
      CCoinsViewDB.batchWrite branchPlan ⟨branchCoins 20,some 2,[]⟩ branchChanges 3 = .ok batches ∧
      replayBlocks branchPlan branchStore
        (CCoinsViewDB.writeBatches ⟨branchCoins 20,some 2,[]⟩ (batches.take 0)) =
          .ok (some ⟨branchCoins 20,some 2,[]⟩) ∧
      ¬(⟨branchCoins 20,some 2,[]⟩ : CCoinsViewDB).coins = branchCoins 30 := by
  refine ⟨_,branchCoins_two,branchCoins_three,rfl,rfl,fun h => ?_⟩
  exact absurd (congrArg Option.isSome (congrFun h ⟨20,0⟩)) (by decide)
end Sample
end BitfiniteCore
