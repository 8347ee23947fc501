import BitfiniteCore.Validation.ConnectBlock
import BitfiniteCore.Coins.Refinement
import BitfiniteCore.Lib.ExceptRel

/-! # Connecting a block to a plain map -/

namespace BitfiniteCore
open Function List

namespace CoinMap

def access (m : CoinMap) (x : COutPoint) : Coin := (m x).getD Coin.null

def addCoin (m : CoinMap) (x : COutPoint) (coin : Coin) (overwrite : Bool) : Except Stop CoinMap :=
  if coin.isSpent then .error (.assertion "!coin.IsSpent()")
  else if coin.out.scriptPubKey.isUnspendable then .ok m
  else if !overwrite && (m x).isSome then
    .error (.logicError "Adding new coin that replaces non-pruned entry")
  else .ok (update m x (some coin))

def addCoinsFrom (txid : TxId) (cb : Bool) (nHeight : Nat) (check : Bool) :
    Nat → List CTxOut → CoinMap → Except Stop CoinMap
  | _, [], m => .ok m
  | i, out::vout, m =>
    (addCoin m ⟨txid,i⟩ (Coin.ofOutput out nHeight cb) (if check then (m ⟨txid,i⟩).isSome else cb)).bind
      (addCoinsFrom txid cb nHeight check (i+1) vout)

def addCoins (m : CoinMap) (tx : CTransaction) (nHeight : Nat) (check : Bool) : Except Stop CoinMap :=
  addCoinsFrom tx.getId tx.isCoinBase nHeight check 0 tx.vout m

def addBlockCoins (nHeight : Nat) : List CTransaction → CoinMap → Except Stop CoinMap
  | [], m => .ok m
  | tx::txs, m => (m.addCoins tx nHeight false).bind (addBlockCoins nHeight txs)

def spend (m : CoinMap) : List CTxIn → CoinMap
  | [] => m
  | i::vin => spend (update m i.prevout none) vin

def undoOf (m : CoinMap) (tx : CTransaction) : CTxUndo := ⟨tx.vin.map fun i => m.access i.prevout⟩

def connectTxs (check : TxCheck) (nHeight : Nat) : List CTransaction → CoinMap → Int →
    Except Stop (CoinMap × Int × List CTxUndo)
  | [], m, nFees => .ok (m,nFees,[])
  | tx::txs, m, nFees =>
    (txFee tx m.access nHeight).bind fun txfee =>
      (addFee nFees txfee).bind fun nFees =>
        (check.run tx m.access).bind fun _ =>
          if tx.isCoinBase then connectTxs check nHeight txs m nFees
          else (connectTxs check nHeight txs (m.spend tx.vin) nFees).map fun s =>
            (s.1,s.2.1,m.undoOf tx::s.2.2)
end CoinMap

theorem spend_apply (vin : List CTxIn) (m : CoinMap) (x : COutPoint) :
    m.spend vin x = if x ∈ vin.map CTxIn.prevout then none else m x := by
  induction vin generalizing m with
  | nil => simp [CoinMap.spend]
  | cons i vin ih =>
    rw [CoinMap.spend,ih]
    by_cases hx : x = i.prevout
    · subst hx
      simp
    · simp [hx]

section Cached

/-- A coin that the view answers with at this outpoint is in its top cache. -/
def CCoinsViewCache.CachedAt (v : CCoinsViewCache) (x : COutPoint) : Prop :=
  v.coins x = none ∨ (v.cacheCoins.lookup x).isSome = true

variable {v : CCoinsViewCache} {x : COutPoint}

private theorem lookup_coins {e : CCoinsCacheEntry} (he : v.cacheCoins.lookup x = some e) :
    v.coins x = e.coin.unspent := by
  change WriteBack.layer (lines v.cacheCoins) v.base.coins x = _
  rw [WriteBack.layer,lines_of_lookup he]
  rfl

structure ViewRel (frame : ViewFrame) (S : COutPoint → Prop) (v : CCoinsViewCache)
    (m : CoinMap) : Prop where
  wf : v.WF
  coins : v.coins = m
  frame : v.frame = frame
  cached : ∀ x, S x → v.CachedAt x

private theorem insertCoin_cachedAt {v' : CCoinsViewCache} {coin : Coin} {overwrite : Bool}
    (hv' : v.addCoin x coin overwrite = .ok v') (hcoins : v'.coins = CCoinsViewCache.insertCoin v.coins x coin)
    {y : COutPoint} (hy : v.CachedAt y) : v'.CachedAt y := by
  unfold CCoinsViewCache.addCoin at hv'
  split at hv'
  · cases hv'
  split at hv'
  · cases hv'
    exact hy
  dsimp only at hv'
  split at hv'
  · cases hv'
  cases hv'
  by_cases hyx : y = x
  · subst hyx
    right
    simp
  rcases hy with hy | hy
  · left
    rw [hcoins,CCoinsViewCache.insertCoin]
    split
    · exact hy
    · rwa [update_of_ne hyx]
  · right
    rwa [AList.lookup_insert_ne hyx]

theorem addCoin_simulates {frame : ViewFrame} {S : COutPoint → Prop} {m : CoinMap}
    (h : ViewRel frame S v m) (coin : Coin) (overwrite : Bool) (hc : overwrite = false → v.CachedAt x) :
    ExceptRel (ViewRel frame S) (v.addCoin x coin overwrite) (m.addCoin x coin overwrite) := by
  obtain ⟨hwf,rfl,rfl,hcached⟩ := h
  cases hs : coin.isSpent with
  | true => simp [CCoinsViewCache.addCoin,CoinMap.addCoin,hs,ExceptRel]
  | false =>
    by_cases hbad : overwrite = false ∧ coin.out.scriptPubKey.isUnspendable = false ∧ (v.coins x).isSome = true
    · obtain ⟨ho,hu,hx⟩ := hbad
      rcases hc ho with hnone | hcached
      · rw [hnone] at hx
        cases hx
      obtain ⟨e,he⟩ := Option.isSome_iff_exists.mp hcached
      have hunspent : e.coin.isSpent = false := by
        rw [lookup_coins he,Option.isSome_iff_ne_none,ne_eq,Coin.unspent_eq_none] at hx
        simpa using hx
      simp [CCoinsViewCache.addCoin,CoinMap.addCoin,hs,hu,ho,hx,he,hunspent,ExceptRel]
    · have hover : overwrite = false → coin.out.scriptPubKey.isUnspendable = false → v.coins x = none := by
        intro ho hu
        by_contra hne
        exact hbad ⟨ho,hu,Option.isSome_iff_ne_none.mpr hne⟩
      obtain ⟨v',hv',hwf',hcoins,hhash⟩ := CCoinsViewCache.addCoin_spec hwf hs hover
      have hflat : v.coins.addCoin x coin overwrite = .ok (CCoinsViewCache.insertCoin v.coins x coin) := by
        unfold CoinMap.addCoin CCoinsViewCache.insertCoin
        rw [if_neg (by simp [hs])]
        split
        · rfl
        rename_i hu
        rw [if_neg]
        intro hc
        rw [Bool.and_eq_true,Bool.not_eq_true'] at hc
        exact hbad ⟨hc.1,by simpa using hu,hc.2⟩
      rw [hv',hflat]
      exact ⟨hwf',hcoins,hhash,fun y hy => insertCoin_cachedAt hv' hcoins (hcached y hy)⟩

theorem fetchCoin_cachedAt (h : v.WF) (x : COutPoint) {y : COutPoint} (hy : v.CachedAt y) :
    (v.fetchCoin x).2.CachedAt y := by
  rcases hy with hy | hy
  · left
    rw [CCoinsViewCache.fetchCoin_coins h]
    exact hy
  · right
    change ((fetchFrom v.cacheCoins v.base x (v.base.getCoin x)).2.1.lookup y).isSome = true
    unfold fetchFrom
    split
    · exact hy
    split
    · exact hy
    · by_cases hyx : y = x
      · subst hyx
        simp
      · rwa [AList.lookup_insert_ne hyx]

theorem spendCoin_cachedAt (h : v.WF) (x : COutPoint) {y : COutPoint} (hy : v.CachedAt y) :
    (v.spendCoin x).2.CachedAt y := by
  by_cases hyx : y = x
  · left
    rw [(CCoinsViewCache.spendCoin_spec h x).2.1,hyx,update_self]
  rcases fetchCoin_cachedAt h x hy with hf | hf
  · left
    rw [(CCoinsViewCache.spendCoin_spec h x).2.1,update_of_ne hyx,← CCoinsViewCache.fetchCoin_coins h x]
    exact hf
  · right
    unfold CCoinsViewCache.spendCoin
    split
    · rename_i w hw
      rw [hw] at hf
      exact hf
    · rename_i it w hw
      rw [hw] at hf
      split
      · simpa [hyx] using hf
      · simpa [hyx] using hf

theorem ViewRel.fetchCoin {frame : ViewFrame} {S : COutPoint → Prop} {m : CoinMap}
    (h : ViewRel frame S v m) (x : COutPoint) : ViewRel frame S (v.fetchCoin x).2 m where
  wf := CCoinsViewCache.fetchCoin_WF h.wf x
  coins := (CCoinsViewCache.fetchCoin_coins h.wf x).trans h.coins
  frame := (CCoinsViewCache.fetchCoin_frame h.wf x).trans h.frame
  cached := fun y hy => fetchCoin_cachedAt h.wf x (h.cached y hy)

theorem ViewRel.spendCoin {frame : ViewFrame} {S : COutPoint → Prop} {m : CoinMap}
    (h : ViewRel frame S v m) (x : COutPoint) : ViewRel frame S (v.spendCoin x).2 (update m x none) where
  wf := (CCoinsViewCache.spendCoin_spec h.wf x).1
  coins := (CCoinsViewCache.spendCoin_spec h.wf x).2.1.trans (by rw [h.coins])
  frame := (CCoinsViewCache.spendCoin_frame h.wf x).trans h.frame
  cached := fun y hy => spendCoin_cachedAt h.wf x (h.cached y hy)

theorem ViewRel.access {frame : ViewFrame} {S : COutPoint → Prop} {m : CoinMap} (h : ViewRel frame S v m)
    (x : COutPoint) : CoinAgrees (fun x => (v.accessCoin x).1) m.access x := by
  obtain ⟨hwf,rfl,-,-⟩ := h
  cases hc : v.coins x with
  | some c =>
    left
    simp [CoinMap.access,hc,CCoinsViewCache.accessCoin_eq hwf hc]
  | none =>
    right
    refine ⟨CCoinsViewCache.accessCoin_spent hwf hc,?_⟩
    rw [CoinMap.access,hc]
    rfl
end Cached

section Simulation

variable {frame : ViewFrame} {S : COutPoint → Prop} {v : CCoinsViewCache} {m : CoinMap}

theorem addCoinsFrom_simulates (txid : TxId) (cb : Bool) (nHeight : Nat) (check : Bool)
    (vout : List CTxOut) (i : Nat) (h : ViewRel frame S v m)
    (hS : check = false → cb = false → ∀ n < vout.length, S ⟨txid,i+n⟩) :
    ExceptRel (ViewRel frame S) (addCoinsFrom txid cb nHeight check i vout v)
      (CoinMap.addCoinsFrom txid cb nHeight check i vout m) := by
  induction vout generalizing i v m with
  | nil => exact h
  | cons out vout ih =>
    have hrest : check = false → cb = false → ∀ n < vout.length, S ⟨txid,i+1+n⟩ := by
      intro hc hb n hn
      have hx := hS hc hb (n+1) (by simpa using hn)
      rwa [show i+1+n = i+(n+1) by omega]
    unfold addCoinsFrom CoinMap.addCoinsFrom
    cases check with
    | false =>
      apply ExceptRel.bind (R := ViewRel frame S)
      · exact addCoin_simulates h _ _ fun hcb => h.cached _ (hS rfl hcb 0 (by simp))
      · exact fun a b hab => ih (i+1) hab hrest
    | true =>
      have hhave : (v.haveCoin ⟨txid,i⟩).1 = (m ⟨txid,i⟩).isSome := by
        rw [CCoinsViewCache.haveCoin_eq h.wf,h.coins]
      have hr : ViewRel frame S (v.haveCoin ⟨txid,i⟩).2 m := h.fetchCoin _
      simp only [if_true,hhave]
      apply ExceptRel.bind (R := ViewRel frame S)
      · refine addCoin_simulates hr _ _ fun hnone => .inl ?_
        rw [hr.coins]
        simpa using hnone
      · exact fun a b hab => ih (i+1) hab hrest

theorem addCoins_simulates (tx : CTransaction) (nHeight : Nat) (check : Bool) (h : ViewRel frame S v m)
    (hS : check = false → ∀ x ∈ tx.outpoints, S x) :
    ExceptRel (ViewRel frame S) (addCoins v tx nHeight check) (m.addCoins tx nHeight check) := by
  apply addCoinsFrom_simulates _ _ _ _ _ _ h
  intro hc _ n hn
  refine hS hc _ (mem_map.mpr ⟨n,by simpa using hn,?_⟩)
  rw [Nat.zero_add]

theorem addBlockCoins_simulates (nHeight : Nat) (txs : List CTransaction) (h : ViewRel frame S v m)
    (hS : ∀ tx ∈ txs, ∀ x ∈ tx.outpoints, S x) :
    ExceptRel (ViewRel frame S) (addBlockCoins nHeight txs v) (CoinMap.addBlockCoins nHeight txs m) := by
  induction txs generalizing v m with
  | nil => exact h
  | cons tx txs ih =>
    obtain ⟨htx,htxs⟩ := forall_mem_cons.mp hS
    exact (addCoins_simulates tx nHeight false h fun _ => htx).bind fun a b hab => ih hab htxs

theorem spendCoinsFrom_spec (vin : List CTxIn) (h : ViewRel frame S v m)
    (hnd : (vin.map CTxIn.prevout).Nodup) (hhave : ∀ i ∈ vin, (m i.prevout).isSome = true) :
    ∃ v', spendCoinsFrom vin v = .ok (v',vin.map fun i => m.access i.prevout) ∧ ViewRel frame S v' (m.spend vin) := by
  induction vin generalizing v m with
  | nil => exact ⟨v,rfl,h⟩
  | cons i vin ih =>
    obtain ⟨hi,hvin⟩ := forall_mem_cons.mp hhave
    obtain ⟨hnot,hnd'⟩ := nodup_cons.mp hnd
    obtain ⟨c,hc⟩ := Option.isSome_iff_exists.mp hi
    have hkeep : ∀ j ∈ vin, update m i.prevout none j.prevout = m j.prevout := by
      intro j hj
      apply update_of_ne
      intro he
      exact hnot (he ▸ mem_map_of_mem hj)
    obtain ⟨v',hv',hrel⟩ := ih (h.spendCoin i.prevout) hnd' fun j hj => by
      rw [hkeep j hj]
      exact hvin j hj
    have hspend := CCoinsViewCache.spendCoin_some h.wf (x := i.prevout) (c := c) (by rw [h.coins,hc])
    refine ⟨v',?_,hrel⟩
    rw [spendCoinsFrom]
    rcases hsc : v.spendCoin i.prevout with ⟨o,w⟩
    rw [hsc] at hspend hv'
    subst hspend
    dsimp only
    rw [hv']
    have hmap : (vin.map fun j => CoinMap.access (update m i.prevout none) j.prevout) =
        vin.map fun j => m.access j.prevout := by
      apply map_congr_left
      intro j hj
      rw [CoinMap.access,CoinMap.access,hkeep j hj]
    simp only [Except.map,hmap,map_cons]
    rw [show m.access i.prevout = c by simp [CoinMap.access,hc]]

theorem txFee_agrees (tx : CTransaction) (nHeight : Nat) (h : ViewRel frame S v m) :
    txFee tx (fun x => (v.accessCoin x).1) nHeight = txFee tx m.access nHeight := by
  rw [txFee,txFee,checkTxInputs_congr tx fun i _ => h.access i.prevout]

theorem txFee_have {tx : CTransaction} {nHeight : Nat} {fee : Int} (hcb : tx.isCoinBase = false)
    (h : txFee tx m.access nHeight = .ok fee) : ∀ i ∈ tx.vin, (m i.prevout).isSome = true := by
  intro i hi
  rw [txFee,if_neg (by simp [hcb])] at h
  have hs := ((checkTxInputs_ok h).1 i hi).1
  cases hm : m i.prevout with
  | some c => rfl
  | none =>
    rw [CoinMap.access,hm] at hs
    cases hs

theorem check_agrees (check : TxCheck) {tx : CTransaction} {nHeight : Nat} {fee : Int}
    (h : ViewRel frame S v m) (hfee : txFee tx m.access nHeight = .ok fee) :
    check.run tx (fun x => (v.accessCoin x).1) = check.run tx m.access := by
  apply check.congr
  intro hcb i hi
  obtain ⟨c,hc⟩ := Option.isSome_iff_exists.mp (txFee_have hcb hfee i hi)
  rw [CCoinsViewCache.accessCoin_eq h.wf (c := c) (by rw [h.coins,hc]),CoinMap.access,hc]
  rfl

def ResultRel (frame : ViewFrame) (S : COutPoint → Prop) (r : CCoinsViewCache × Int × List CTxUndo)
    (s : CoinMap × Int × List CTxUndo) : Prop :=
  ViewRel frame S r.1 s.1 ∧ r.2 = s.2

theorem connectTxs_simulates (check : TxCheck) (nHeight : Nat) (txs : List CTransaction) (nFees : Int)
    (h : ViewRel frame S v m) (hnd : ∀ tx ∈ txs, tx.isCoinBase = false → (tx.vin.map CTxIn.prevout).Nodup) :
    ExceptRel (ResultRel frame S) (connectTxs check nHeight txs v nFees)
      (CoinMap.connectTxs check nHeight txs m nFees) := by
  induction txs generalizing v m nFees with
  | nil => exact ⟨h,rfl⟩
  | cons tx txs ih =>
    obtain ⟨htx,htxs⟩ := forall_mem_cons.mp hnd
    unfold connectTxs CoinMap.connectTxs
    dsimp only
    rw [txFee_agrees tx nHeight h]
    cases hfee : txFee tx m.access nHeight with
    | error e => exact rfl
    | ok fee =>
      dsimp only [Except.bind]
      cases addFee nFees fee with
      | error e => exact rfl
      | ok nFees =>
        dsimp only
        rw [check_agrees check h hfee]
        cases check.run tx m.access with
        | error e => exact rfl
        | ok _ =>
          cases hcb : tx.isCoinBase with
          | true => exact ih nFees h htxs
          | false =>
            obtain ⟨v',hv',hrel⟩ := spendCoinsFrom_spec tx.vin h (htx hcb) (txFee_have hcb hfee)
            rw [if_neg (by simp),if_neg (by simp),spendCoins,if_neg (by simp [hcb]),hv']
            apply ExceptRel.map (R := ResultRel frame S) (ih nFees hrel htxs)
            rintro a b ⟨h1,h2⟩
            refine ⟨h1,?_⟩
            rw [h2]
            rfl
end Simulation
end BitfiniteCore
