import BitfiniteCore.Coins.Stack

/-!
# The coins database

Each batch is written at once, but the process may stop between two of them.
-/

namespace BitfiniteCore
open WriteBack Function List

/-- The coins, the best block and the head blocks; missing head blocks read as an empty vector. -/
structure CCoinsViewDB where
  coins : CoinMap
  bestBlock : Option BlockHash
  headBlocks : List BlockHash

inductive DBWrite where
  | eraseBestBlock
  | writeBestBlock (hashBlock : BlockHash)
  | eraseHeadBlocks
  | writeHeadBlocks (heads : List BlockHash)
  | eraseCoin (outpoint : COutPoint)
  | writeCoin (outpoint : COutPoint) (coin : Coin)
deriving DecidableEq, Repr

abbrev CDBBatch := List DBWrite

/-- The order in which entries are visited, and after which of them the batch counts as full. -/
structure FlushPlan where
  order : CCoinsMap → CoinsEntries
  perm : ∀ m, (order m).Perm m.entries
  full : Nat → CDBBatch → Bool

namespace CCoinsViewDB

def apply (db : CCoinsViewDB) : DBWrite → CCoinsViewDB
  | .eraseBestBlock => { db with bestBlock := none }
  | .writeBestBlock hashBlock => { db with bestBlock := some hashBlock }
  | .eraseHeadBlocks => { db with headBlocks := [] }
  | .writeHeadBlocks heads => { db with headBlocks := heads }
  | .eraseCoin outpoint => { db with coins := update db.coins outpoint none }
  | .writeCoin outpoint coin => { db with coins := update db.coins outpoint (some coin) }

def writeBatch (db : CCoinsViewDB) (batch : CDBBatch) : CCoinsViewDB := batch.foldl apply db

def writeBatches (db : CCoinsViewDB) (batches : List CDBBatch) : CCoinsViewDB := batches.foldl writeBatch db

def getBestBlock (db : CCoinsViewDB) : BlockHash := db.bestBlock.getD 0

def view (db : CCoinsViewDB) : CCoinsView := .map db.coins db.getBestBlock

def oldTip (db : CCoinsViewDB) (hashBlock : BlockHash) : Except Stop BlockHash :=
  if db.getBestBlock = 0 then
    -- maybe in the middle of replaying
    match db.headBlocks with
    | [new,old] => if new = hashBlock then .ok old else .error (.assertion "old_heads[0] == hashBlock")
    | _ => .ok 0
  else .ok db.getBestBlock

def writeLoop (full : Nat → CDBBatch → Bool) : Nat → CDBBatch → CoinsEntries → List CDBBatch × CDBBatch
  | _, batch, [] => ([],batch)
  | count, batch, ⟨outpoint,it⟩::rest =>
    let batch := if it.dirty then
        batch++[if it.coin.isSpent then .eraseCoin outpoint else .writeCoin outpoint it.coin]
      else batch
    if full (count+1) batch then
      let r := writeLoop full (count+1) [] rest
      (batch::r.1,r.2)
    else writeLoop full (count+1) batch rest

def batchWrite (plan : FlushPlan) (db : CCoinsViewDB) (mapCoins : CCoinsMap) (hashBlock : BlockHash) :
    Except Stop (List CDBBatch) :=
  if hashBlock = 0 then .error (.assertion "!hashBlock.IsNull()")
  else (db.oldTip hashBlock).bind fun old =>
    let r := writeLoop plan.full 0 [.eraseBestBlock,.writeHeadBlocks [hashBlock,old]] (plan.order mapCoins)
    .ok (r.1++[r.2++[.eraseHeadBlocks,.writeBestBlock hashBlock]])

section Spec

variable {db : CCoinsViewDB}

theorem writeBatches_flatten (db : CCoinsViewDB) (batches : List CDBBatch) :
    db.writeBatches batches = db.writeBatch batches.flatten := by
  induction batches generalizing db with
  | nil => rfl
  | cons b bs ih =>
    rw [flatten_cons,writeBatch,foldl_append]
    exact ih _

private def coinWrites (es : CoinsEntries) : CDBBatch := es.flatMap fun e => if e.2.dirty then
    [if e.2.coin.isSpent then .eraseCoin e.1 else .writeCoin e.1 e.2.coin] else []

private theorem writeBatch_coinWrites (db : CCoinsViewDB) (es : CoinsEntries) :
    db.writeBatch (coinWrites es) = { db with coins := writeEntries db.coins es } := by
  induction es generalizing db with
  | nil => rfl
  | cons e es ih =>
    obtain ⟨x,e⟩ := e
    rw [coinWrites,flatMap_cons,writeBatch,foldl_append]
    refine (ih _).trans ?_
    dsimp only [writeEntries]
    cases e.dirty with
    | false => rfl
    | true =>
      cases hs : e.coin.isSpent <;> simp [apply,hs,Coin.unspent]

private theorem writeLoop_take (full : Nat → CDBBatch → Bool) (count : Nat) (batch : CDBBatch) (es : CoinsEntries) :
    (writeLoop full count batch es).1.flatten++(writeLoop full count batch es).2 = batch++coinWrites es ∧
    ∀ k, 0 < k → k ≤ (writeLoop full count batch es).1.length → ∃ es1 es2, es = es1++es2 ∧
      ((writeLoop full count batch es).1.take k).flatten = batch++coinWrites es1 := by
  induction es generalizing count batch with
  | nil =>
    refine ⟨by simp [writeLoop,coinWrites],fun k hk hlen => ?_⟩
    simp only [writeLoop,length_nil] at hlen
    omega
  | cons e es ih =>
    obtain ⟨x,e⟩ := e
    rw [writeLoop]
    generalize hb : (if e.dirty = true then
        batch++[if e.coin.isSpent = true then DBWrite.eraseCoin x else DBWrite.writeCoin x e.coin]
      else batch) = b
    have hcons : ∀ es', b++coinWrites es' = batch++coinWrites (⟨x,e⟩::es') := by
      intro es'
      rw [← hb,coinWrites,coinWrites,flatMap_cons]
      cases e.dirty <;> simp
    split
    · obtain ⟨h1,h2⟩ := ih (count+1) []
      refine ⟨?_,fun k hk hlen => ?_⟩
      · rw [flatten_cons,append_assoc,h1,nil_append,hcons]
      · obtain ⟨k,rfl⟩ := Nat.exists_eq_succ_of_ne_zero (Nat.pos_iff_ne_zero.mp hk)
        rw [length_cons] at hlen
        rw [take_succ_cons,flatten_cons]
        rcases Nat.eq_zero_or_pos k with rfl | hpos
        · exact ⟨[⟨x,e⟩],es,rfl,by rw [← hcons]; simp [coinWrites]⟩
        · obtain ⟨es1,es2,rfl,hflat⟩ := h2 k hpos (by omega)
          exact ⟨⟨x,e⟩::es1,es2,rfl,by rw [hflat,nil_append,hcons]⟩
    · obtain ⟨h1,h2⟩ := ih (count+1) b
      refine ⟨h1.trans (hcons es),fun k hk hlen => ?_⟩
      obtain ⟨es1,es2,rfl,hflat⟩ := h2 k hk hlen
      exact ⟨⟨x,e⟩::es1,es2,rfl,hflat.trans (hcons es1)⟩

/-- What is on disk after some batches of a flush. -/
theorem batchWrite_take {plan : FlushPlan} {mapCoins : CCoinsMap} {hashBlock : BlockHash}
    {batches : List CDBBatch} (h : db.batchWrite plan mapCoins hashBlock = .ok batches) {k : Nat} (hk : 0 < k) :
    ∃ old, db.oldTip hashBlock = .ok old ∧
      (db.writeBatches (batches.take k) = ⟨writeEntries db.coins (plan.order mapCoins),some hashBlock,[]⟩ ∨
      k < batches.length ∧ ∃ es1 es2, plan.order mapCoins = es1++es2 ∧
        db.writeBatches (batches.take k) = ⟨writeEntries db.coins es1,none,[hashBlock,old]⟩) := by
  unfold batchWrite at h
  split at h
  · cases h
  obtain ⟨old,hold,h⟩ := except_bind_ok.mp h
  cases h
  obtain ⟨hall,htake⟩ := writeLoop_take plan.full 0 [.eraseBestBlock,.writeHeadBlocks [hashBlock,old]]
    (plan.order mapCoins)
  refine ⟨old,hold,?_⟩
  generalize writeLoop plan.full 0 [.eraseBestBlock,.writeHeadBlocks [hashBlock,old]]
    (plan.order mapCoins) = r at hall htake ⊢
  rw [writeBatches_flatten]
  have hmark : ∀ es, db.writeBatch ([.eraseBestBlock,.writeHeadBlocks [hashBlock,old]]++coinWrites es) =
      ⟨writeEntries db.coins es,none,[hashBlock,old]⟩ := by
    intro es
    rw [writeBatch,foldl_append]
    exact writeBatch_coinWrites _ es
  rcases Nat.lt_or_ge r.1.length k with hlt | hle
  · left
    rw [take_of_length_le (by rw [length_append,length_singleton]; omega),flatten_append,flatten_singleton,
      ← append_assoc,hall,writeBatch,foldl_append]
    change (db.writeBatch _).writeBatch _ = _
    rw [hmark]
    rfl
  · right
    obtain ⟨es1,es2,hes,hflat⟩ := htake k hk hle
    refine ⟨by simpa using Nat.lt_succ_of_le hle,es1,es2,hes,?_⟩
    rw [take_append_of_le_length hle,hflat,hmark]

theorem batchWrite_isOk (plan : FlushPlan) (mapCoins : CCoinsMap) {hashBlock old : BlockHash}
    (hnull : hashBlock ≠ 0) (hold : db.oldTip hashBlock = .ok old) :
    ∃ batches, db.batchWrite plan mapCoins hashBlock = .ok batches ∧ batches ≠ [] := by
  unfold batchWrite
  rw [if_neg hnull,hold]
  exact ⟨_,rfl,by simp⟩
end Spec
end CCoinsViewDB

theorem writeEntries_apply {es : CoinsEntries} (hnd : es.NodupKeys) (f : CoinMap) (x : COutPoint) :
    writeEntries f es x = ((es.dlookup x).filter CCoinsCacheEntry.dirty).elim (f x)
      fun e => e.coin.unspent := by
  induction es generalizing f with
  | nil => rfl
  | cons e es ih =>
    obtain ⟨y,e⟩ := e
    have hnd' : y ∉ List.keys es ∧ es.NodupKeys := nodupKeys_cons.mp hnd
    rw [writeEntries,ih hnd'.2]
    by_cases hx : x = y
    · subst hx
      rw [dlookup_eq_none.mpr hnd'.1,dlookup_cons_eq]
      cases hd : e.dirty <;> simp [hd,Option.filter]
    · rw [dlookup_cons_ne es ⟨y,e⟩ hx]
      congr 1
      cases e.dirty <;> simp [hx]
end BitfiniteCore
