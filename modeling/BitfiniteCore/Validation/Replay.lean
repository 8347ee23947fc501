import BitfiniteCore.Chain.BlockIndex
import BitfiniteCore.Coins.Database
import BitfiniteCore.Validation.Undo

/-! # Replaying blocks after an interrupted flush -/

namespace BitfiniteCore
open WriteBack Function ParentTree

/-- The block index with the block and undo files.  No block hashes to the null hash. -/
structure BlockStore where
  tree : BlockTree
  null_unknown : 0 ∉ tree.known
  readBlockFromDisk : BlockHash → Option CBlock
  undoReadFromDisk : BlockHash → Option CBlockUndo

def disconnectBlock (store : BlockStore) (block : CBlock) (pindex : BlockHash) (view : CCoinsViewCache) :
    Except Stop (DisconnectResult × CCoinsViewCache) :=
  match store.undoReadFromDisk pindex with
  | none => .ok (.failed,view)
  | some blockUndo => applyBlockUndo blockUndo block (store.tree.height pindex) view

def readdCoins (nHeight : Nat) : List CTransaction → CCoinsViewCache → Except Stop CCoinsViewCache
  | [], view => .ok view
  | tx::txs, view => (addCoins view tx nHeight true).bind (readdCoins nHeight txs)

def respendInputs : List CTxIn → CCoinsViewCache → CCoinsViewCache
  | [], view => view
  | i::vin, view => respendInputs vin (view.spendCoin i.prevout).2

def respendCoins : List CTransaction → CCoinsViewCache → CCoinsViewCache
  | [], view => view
  | tx::txs, view => respendCoins txs (if tx.isCoinBase then view else respendInputs tx.vin view)

/-- `none` is the return value false, here and below. -/
def rollforwardBlock (store : BlockStore) (pindex : BlockHash) (view : CCoinsViewCache) :
    Except Stop (Option CCoinsViewCache) :=
  match store.readBlockFromDisk pindex with
  | none => .ok none
  | some block =>
    (readdCoins (store.tree.height pindex) block.vtx view).map fun view => some (respendCoins block.vtx view)

def rollback (store : BlockStore) : List BlockHash → CCoinsViewCache → Except Stop (Option CCoinsViewCache)
  | [], cache => .ok (some cache)
  | pindexOld::rest, cache =>
    if 0 < store.tree.height pindexOld then
      match store.readBlockFromDisk pindexOld with
      | none => .ok none
      | some block =>
        (disconnectBlock store block pindexOld cache).bind fun r =>
          if r.1 = .failed then .ok none else rollback store rest r.2
    else rollback store rest cache

def rollforward (store : BlockStore) (pindexNew : BlockHash) :
    Nat → Nat → CCoinsViewCache → Except Stop (Option CCoinsViewCache)
  | 0, _, cache => .ok (some cache)
  | n+1, nHeight, cache =>
    match store.tree.getAncestor pindexNew nHeight with
    | none => .error (.assertion "pindexWalk->pprev")
    | some pindex =>
      (rollforwardBlock store pindex cache).bind fun r =>
        match r with
        | none => .ok none
        | some cache => rollforward store pindexNew n (nHeight+1) cache

/-- `ReplayBlocks` between the choice of the fork and the flush. -/
def replayBranches (store : BlockStore) (db : CCoinsViewDB) (pindexNew : BlockHash) (nForkHeight : Nat)
    (undone : List BlockHash) : Except Stop (Option CCoinsViewCache) :=
  (rollback store undone (CCoinsViewCache.ofBase db.view)).bind fun r =>
    match r with
    | none => .ok none
    | some cache =>
      (rollforward store pindexNew (store.tree.height pindexNew-nForkHeight) (nForkHeight+1) cache).map
        (Option.map fun cache => cache.setBestBlock pindexNew)

/-- None when the database has no head blocks. -/
def replayBatches (plan : FlushPlan) (store : BlockStore) (db : CCoinsViewDB) :
    Except Stop (Option (List CDBBatch)) :=
  let flush := fun (r : Except Stop (Option CCoinsViewCache)) => r.bind fun r =>
    match r with
    | none => .ok none
    | some cache => (db.batchWrite plan cache.cacheCoins cache.hashBlock).map some
  match db.headBlocks with
  | [] => .ok (some [])
  | [hashNew,hashOld] =>
    if hashNew ∉ store.tree.known then .ok none
    else if hashOld = 0 then
      -- the first flush has no old tip
      flush (replayBranches store db hashNew 0 [])
    else if hashOld ∉ store.tree.known then .ok none
    else
      match store.tree.lastCommonAncestor hashOld hashNew with
      | none => .error (.assertion "pindexFork != nullptr")
      | some pindexFork =>
        flush (replayBranches store db hashNew (store.tree.height pindexFork)
          (store.tree.path pindexFork hashOld))
  | _ => .ok none

/-- The database that `ReplayBlocks` leaves when it returns true. -/
def replayBlocks (plan : FlushPlan) (store : BlockStore) (db : CCoinsViewDB) : Except Stop (Option CCoinsViewDB) :=
  (replayBatches plan store db).map (Option.map db.writeBatches)

/-- The unspent coins after a block, whose undo data is on disk. -/
inductive ChainCoins (store : BlockStore) : BlockHash → CoinMap → Prop
  | genesis {g : BlockHash} (hg : store.tree.parent g = none) : ChainCoins store g fun _ => none
  | connect {b p : BlockHash} {ctx : BlockContext} {block : CBlock} {undo : CBlockUndo}
      {v v' : CCoinsViewCache} (chain : ChainCoins store p v.coins) (hp : store.tree.parent b = some p)
      (hblock : store.readBlockFromDisk b = some block) (hundo : store.undoReadFromDisk b = some undo)
      (hheight : ctx.nHeight = store.tree.height b) (hlt : ctx.nHeight < 2^31)
      (hgen : block.hash ≠ ctx.hashGenesisBlock)
      (hfresh : ctx.fEnforceBIP30 = true ∨ ∀ tx ∈ block.vtx, ∀ x ∈ tx.outpoints, v.coins x = none)
      (hwf : v.WF) (haccept : connectBlock ctx block v = .ok (v',undo)) : ChainCoins store b v'.coins

section Chain

variable {store : BlockStore} {a b p : BlockHash} {m m' : CoinMap}

theorem ChainCoins.inv (h : ChainCoins store b m') (hp : store.tree.parent b = some p) :
    ∃ m ctx block undo cb txs fees, ChainCoins store p m ∧ store.readBlockFromDisk b = some block ∧
      store.undoReadFromDisk b = some undo ∧ ctx.nHeight = store.tree.height b ∧ ctx.nHeight < 2^31 ∧
      Connects ctx block cb txs fees m m' undo := by
  cases h with
  | genesis hg =>
    rw [hg] at hp
    cases hp
  | connect chain hp' hblock hundo hheight hlt hgen hfresh hwf haccept =>
    rw [hp] at hp'
    cases hp'
    obtain ⟨-,-,-,cb,txs,fees,hc⟩ := connectBlock_ok hwf hgen hfresh haccept
    exact ⟨_,_,_,_,cb,txs,fees,chain,hblock,hundo,hheight,hlt,hc⟩

theorem ChainCoins.root (h : ChainCoins store b m) (hb : store.tree.parent b = none) : m = fun _ => none := by
  cases h with
  | genesis hg => rfl
  | connect chain hp =>
    rw [hb] at hp
    cases hp

theorem ChainCoins.unique (h : ChainCoins store b m) (h' : ChainCoins store b m') : m = m' := by
  induction b using store.tree.induction_up generalizing m m' with
  | root b hb => rw [h.root hb,h'.root hb]
  | child b p hp ih =>
    obtain ⟨m0,ctx,block,undo,cb,txs,fees,hc,hblock,-,hheight,-,hconn⟩ := h.inv hp
    obtain ⟨m0',ctx',block',undo',cb',txs',fees',hc',hblock',-,hheight',-,hconn'⟩ := h'.inv hp
    obtain rfl := ih hc hc'
    cases hblock.symm.trans hblock'
    obtain ⟨rfl,rfl⟩ := List.cons.inj (hconn.vtx.symm.trans hconn'.vtx)
    rw [hconn.coins,hconn'.coins,hheight,hheight']

theorem ChainCoins.of_anc (h : ChainCoins store b m) (ha : store.tree.Anc a b) : ∃ ma, ChainCoins store a ma := by
  induction b using store.tree.induction_up generalizing m with
  | root b hb => exact ⟨m,ha.root hb ▸ h⟩
  | child b p hp ih =>
    rcases anc_iff.mp ha with rfl | ⟨q,hq,haq⟩
    · exact ⟨m,h⟩
    · obtain ⟨m0,-,-,-,-,-,-,hc,-⟩ := h.inv hp
      rw [hp] at hq
      exact ih hc (Option.some.inj hq ▸ haq)

theorem ChainCoins.restorable (h : ChainCoins store b m) : m.Restorable := by
  induction b using store.tree.induction_up generalizing m with
  | root b hb =>
    rw [h.root hb]
    exact fun x c hc => nomatch hc
  | child b p hp ih =>
    obtain ⟨m0,ctx,block,undo,cb,txs,fees,hc,-,-,hheight,hlt,hconn⟩ := h.inv hp
    have hpos : 0 < ctx.nHeight := by
      rw [hheight,store.tree.height_parent hp]
      omega
    intro x c hx
    rw [hconn.coins] at hx
    unfold CoinMap.remove at hx
    split at hx
    · cases hx
    · exact CoinMap.withBlock_restorable (cb::txs) (ih hc) hpos hlt x c hx

theorem ChainCoins.unspent (h : ChainCoins store b m) (x : COutPoint) : (m x).bind Coin.unspent = m x := by
  cases h with
  | genesis hg => rfl
  | @connect b p ctx block undo v v' =>
    cases hx : v'.coins x with
    | none => rfl
    | some c => exact Coin.unspent_of (CCoinsViewCache.coins_isSpent hx)
end Chain
end BitfiniteCore
