import BitfiniteCore.Primitives.Transaction
import Mathlib.Data.List.AList

/-!
# Coin views and caches

Reading through a cache fills it and every cache below it, so reads return the new view as well.
-/

namespace BitfiniteCore

structure Coin where
  out : CTxOut
  nHeightAndIsCoinBase : Nat
deriving DecidableEq, Repr

namespace Coin

def null : Coin := ⟨CTxOut.null,0⟩

def ofOutput (out : CTxOut) (nHeight : Nat) (isCoinbase : Bool) : Coin :=
  ⟨out,nHeight*2%2^32+(if isCoinbase then 1 else 0)⟩

def getHeight (c : Coin) : Nat := c.nHeightAndIsCoinBase/2

def isCoinBase (c : Coin) : Bool := c.nHeightAndIsCoinBase%2 == 1

def isSpent (c : Coin) : Bool := c.out.isNull

def unspent (c : Coin) : Option Coin := if c.isSpent then none else some c

theorem unspent_eq_some {c d : Coin} : c.unspent = some d ↔ c.isSpent = false ∧ c = d := by
  unfold unspent
  cases h : c.isSpent <;> simp

theorem unspent_eq_none {c : Coin} : c.unspent = none ↔ c.isSpent = true := by
  unfold unspent
  cases h : c.isSpent <;> simp

theorem unspent_of {c : Coin} (h : c.isSpent = false) : c.unspent = some c := unspent_eq_some.mpr ⟨h,rfl⟩

theorem unspent_isNone (c : Coin) : c.unspent.isNone = c.isSpent := by
  unfold unspent
  cases h : c.isSpent <;> simp

theorem getHeight_ofOutput (out : CTxOut) {nHeight : Nat} (h : nHeight < 2^31) (cb : Bool) :
    (ofOutput out nHeight cb).getHeight = nHeight := by
  cases cb <;> simp [ofOutput,getHeight] <;> omega

theorem isCoinBase_ofOutput (out : CTxOut) (nHeight : Nat) (cb : Bool) :
    (ofOutput out nHeight cb).isCoinBase = cb := by
  cases cb
  · simp [ofOutput,isCoinBase]
  · simp [ofOutput,isCoinBase]
    omega
end Coin

structure CCoinsCacheEntry where
  coin : Coin
  dirty : Bool
  fresh : Bool
deriving DecidableEq, Repr

def CCoinsCacheEntry.empty : CCoinsCacheEntry := ⟨Coin.null,false,false⟩

abbrev CoinMap := COutPoint → Option Coin

abbrev CCoinsMap := AList fun _ : COutPoint => CCoinsCacheEntry

inductive CCoinsView where
  | map (coins : COutPoint → Option Coin) (hashBlock : BlockHash)
  | cache (cacheCoins : CCoinsMap) (hashBlock : BlockHash) (base : CCoinsView)

structure CCoinsViewCache where
  cacheCoins : CCoinsMap
  hashBlock : BlockHash
  base : CCoinsView

def CCoinsViewCache.toView (v : CCoinsViewCache) : CCoinsView := .cache v.cacheCoins v.hashBlock v.base

def fetchFrom (cacheCoins : CCoinsMap) (base : CCoinsView) (outpoint : COutPoint)
    (got : Option Coin × CCoinsView) : Option CCoinsCacheEntry × CCoinsMap × CCoinsView :=
  match cacheCoins.lookup outpoint with
  | some e => (some e,cacheCoins,base)
  | none =>
    match got.1 with
    | none => (none,cacheCoins,got.2)
    | some tmp =>
      let e : CCoinsCacheEntry := ⟨tmp,false,tmp.isSpent⟩
      (some e,cacheCoins.insert outpoint e,got.2)

namespace CCoinsView

def getCoin : CCoinsView → COutPoint → Option Coin × CCoinsView
  | .map coins hashBlock, outpoint => (coins outpoint,.map coins hashBlock)
  | .cache cacheCoins hashBlock base, outpoint =>
    let r := fetchFrom cacheCoins base outpoint (base.getCoin outpoint)
    (r.1.bind fun e => e.coin.unspent,.cache r.2.1 hashBlock r.2.2)

def getBestBlock : CCoinsView → BlockHash × CCoinsView
  | .map coins hashBlock => (hashBlock,.map coins hashBlock)
  | .cache cacheCoins hashBlock base =>
    if hashBlock = 0 then
      let r := base.getBestBlock
      (r.1,.cache cacheCoins r.1 r.2)
    else (hashBlock,.cache cacheCoins hashBlock base)
end CCoinsView

/-- What becomes of a parent's entry when a dirty entry of its child is written back. -/
def mergeEntry (itUs : Option CCoinsCacheEntry) (it : CCoinsCacheEntry) : Except Stop (Option CCoinsCacheEntry) :=
  match itUs with
  | none =>
    if it.fresh && it.coin.isSpent then .ok none
    else .ok (some ⟨it.coin,true,it.fresh⟩)
  | some us =>
    if it.fresh && !us.coin.isSpent then
      .error (.logicError
        "FRESH flag misapplied to cache entry for base transaction with spendable outputs")
    else if us.fresh && it.coin.isSpent then .ok none
    else .ok (some ⟨it.coin,true,us.fresh⟩)

def putEntry (m : CCoinsMap) (outpoint : COutPoint) : Option CCoinsCacheEntry → CCoinsMap
  | none => m.erase outpoint
  | some e => m.insert outpoint e

def mergeEntries (m : CCoinsMap) : List (Sigma fun _ : COutPoint => CCoinsCacheEntry) → Except Stop CCoinsMap
  | [] => .ok m
  | ⟨outpoint,it⟩::rest =>
    if !it.dirty then mergeEntries m rest
    else (mergeEntry (m.lookup outpoint) it).bind fun us =>
      mergeEntries (putEntry m outpoint us) rest

def writeEntries (coins : COutPoint → Option Coin) :
    List (Sigma fun _ : COutPoint => CCoinsCacheEntry) → COutPoint → Option Coin
  | [] => coins
  | ⟨outpoint,it⟩::rest =>
    writeEntries (if it.dirty then Function.update coins outpoint it.coin.unspent else coins) rest

def CCoinsView.batchWrite (mapCoins : CCoinsMap) (hashBlock : BlockHash) : CCoinsView → Except Stop CCoinsView
  | .map coins _ => .ok (.map (writeEntries coins mapCoins.entries) hashBlock)
  | .cache cacheCoins _ base =>
    (mergeEntries cacheCoins mapCoins.entries).map fun m => .cache m hashBlock base

/-- `Uncache` of one layer: only an entry without flags is dropped. -/
def uncacheEntry (m : CCoinsMap) (outpoint : COutPoint) : CCoinsMap :=
  match m.lookup outpoint with
  | some e => if !e.dirty && !e.fresh then m.erase outpoint else m
  | none => m

def CCoinsView.uncacheAt (outpoint : COutPoint) : Nat → CCoinsView → CCoinsView
  | _, .map coins hashBlock => .map coins hashBlock
  | 0, .cache cacheCoins hashBlock base => .cache (uncacheEntry cacheCoins outpoint) hashBlock base
  | depth+1, .cache cacheCoins hashBlock base =>
    .cache cacheCoins hashBlock (base.uncacheAt outpoint depth)

namespace CCoinsViewCache

def ofBase (base : CCoinsView) : CCoinsViewCache := ⟨∅,0,base⟩

def fetchCoin (v : CCoinsViewCache) (outpoint : COutPoint) : Option CCoinsCacheEntry × CCoinsViewCache :=
  let r := fetchFrom v.cacheCoins v.base outpoint (v.base.getCoin outpoint)
  (r.1,⟨r.2.1,v.hashBlock,r.2.2⟩)

def getCoin (v : CCoinsViewCache) (outpoint : COutPoint) : Option Coin × CCoinsViewCache :=
  let r := v.fetchCoin outpoint
  (r.1.bind fun e => e.coin.unspent,r.2)

def haveCoin (v : CCoinsViewCache) (outpoint : COutPoint) : Bool × CCoinsViewCache :=
  let r := v.fetchCoin outpoint
  (r.1.any fun e => !e.coin.isSpent,r.2)

def accessCoin (v : CCoinsViewCache) (outpoint : COutPoint) : Coin × CCoinsViewCache :=
  let r := v.fetchCoin outpoint
  ((r.1.map CCoinsCacheEntry.coin).getD Coin.null,r.2)

def addCoin (v : CCoinsViewCache) (outpoint : COutPoint) (coin : Coin) (possibleOverwrite : Bool) :
    Except Stop CCoinsViewCache :=
  if coin.isSpent then .error (.assertion "!coin.IsSpent()")
  else if coin.out.scriptPubKey.isUnspendable then .ok v
  else
    let it := (v.cacheCoins.lookup outpoint).getD CCoinsCacheEntry.empty
    if !possibleOverwrite && !it.coin.isSpent then
      .error (.logicError "Adding new coin that replaces non-pruned entry")
    else
      let fresh := !possibleOverwrite && !it.dirty
      .ok { v with cacheCoins := v.cacheCoins.insert outpoint ⟨coin,true,it.fresh || fresh⟩ }

/-- `SpendCoin` with its `moveout`; `none` is the return value false. -/
def spendCoin (v : CCoinsViewCache) (outpoint : COutPoint) : Option Coin × CCoinsViewCache :=
  match v.fetchCoin outpoint with
  | (none,v) => (none,v)
  | (some it,v) =>
    (some it.coin, if it.fresh then { v with cacheCoins := v.cacheCoins.erase outpoint }
      else { v with cacheCoins := v.cacheCoins.insert outpoint ⟨Coin.null,true,false⟩ })

def getBestBlock (v : CCoinsViewCache) : BlockHash × CCoinsViewCache :=
  if v.hashBlock = 0 then
    let r := v.base.getBestBlock
    (r.1,⟨v.cacheCoins,r.1,r.2⟩)
  else (v.hashBlock,v)

def setBestBlock (v : CCoinsViewCache) (hashBlock : BlockHash) : CCoinsViewCache := { v with hashBlock := hashBlock }

def flush (v : CCoinsViewCache) : Except Stop CCoinsViewCache :=
  (v.base.batchWrite v.cacheCoins v.hashBlock).map fun base => ⟨∅,v.hashBlock,base⟩

def uncache (v : CCoinsViewCache) (outpoint : COutPoint) : CCoinsViewCache :=
  { v with cacheCoins := uncacheEntry v.cacheCoins outpoint }

/-- `Uncache` of a layer below the top one. -/
def uncacheAt (v : CCoinsViewCache) (outpoint : COutPoint) : Nat → CCoinsViewCache
  | 0 => v.uncache outpoint
  | depth+1 => { v with base := v.base.uncacheAt outpoint depth }
end CCoinsViewCache

def addCoinsFrom (txid : TxId) (fCoinbase : Bool) (nHeight : Nat) (check : Bool) :
    Nat → List CTxOut → CCoinsViewCache → Except Stop CCoinsViewCache
  | _, [], cache => .ok cache
  | i, out::vout, cache =>
    let outpoint : COutPoint := ⟨txid,i⟩
    let r := if check then cache.haveCoin outpoint else (fCoinbase,cache)
    (r.2.addCoin outpoint (Coin.ofOutput out nHeight fCoinbase) r.1).bind
      (addCoinsFrom txid fCoinbase nHeight check (i+1) vout)

def addCoins (cache : CCoinsViewCache) (tx : CTransaction) (nHeight : Nat) (check : Bool) :
    Except Stop CCoinsViewCache :=
  addCoinsFrom tx.getId tx.isCoinBase nHeight check 0 tx.vout cache

def maxTxSize : Nat := 1000000

def minTxOutSize : Nat := 9

def maxOutputsPerTx : Nat := maxTxSize/minTxOutSize

def accessByTxidFrom (txid : TxId) : Nat → Nat → CCoinsViewCache → Coin × CCoinsViewCache
  | 0, _, view => (Coin.null,view)
  | left+1, n, view =>
    let r := view.accessCoin ⟨txid,n⟩
    if !r.1.isSpent then r else accessByTxidFrom txid left (n+1) r.2

def accessByTxid (view : CCoinsViewCache) (txid : TxId) : Coin × CCoinsViewCache :=
  accessByTxidFrom txid maxOutputsPerTx 0 view
end BitfiniteCore
