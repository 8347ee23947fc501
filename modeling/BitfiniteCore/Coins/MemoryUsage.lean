import BitfiniteCore.Coins.Cache
import Mathlib.Algebra.BigOperators.Group.List.Basic

/-!
# The memory accounting of a coin cache

The counter is an integer here, which is exact when it never falls below zero.
-/

namespace BitfiniteCore
open Function

/-- A cache, and the `DynamicMemoryUsage` of the coin at each outpoint. -/
structure AccountedCache where
  cache : CCoinsViewCache
  usage : COutPoint → Nat
  cachedCoinsUsage : Int

namespace AccountedCache

def ofBase (base : CCoinsView) : AccountedCache := ⟨.ofBase base,fun _ => 0,0⟩

variable (s : AccountedCache) (outpoint : COutPoint)

def usageAt : Nat := if (s.cache.cacheCoins.lookup outpoint).isSome then s.usage outpoint else 0

def total : Nat := (s.cache.cacheCoins.keys.map s.usage).sum

def fetchCoin (n : Nat) : AccountedCache :=
  let r := s.cache.fetchCoin outpoint
  if (s.cache.cacheCoins.lookup outpoint).isNone && r.1.isSome then
    ⟨r.2,update s.usage outpoint n,s.cachedCoinsUsage+n⟩
  else { s with cache := r.2 }

/-- The counter is reduced before the test that throws. -/
def addCoin (coin : Coin) (n : Nat) (possibleOverwrite : Bool) : AccountedCache × Option Stop :=
  if coin.isSpent then (s,some (.assertion "!coin.IsSpent()"))
  else if coin.out.scriptPubKey.isUnspendable then (s,none)
  else
    let left := s.cachedCoinsUsage-s.usageAt outpoint
    match s.cache.addCoin outpoint coin possibleOverwrite with
    | .error e => ({ s with cachedCoinsUsage := left },some e)
    | .ok cache => (⟨cache,update s.usage outpoint n,left+n⟩,none)

def spendCoin (n : Nat) : AccountedCache :=
  let s := s.fetchCoin outpoint n
  match s.cache.cacheCoins.lookup outpoint with
  | none => s
  | some it =>
    let us := if it.fresh then none else some ⟨Coin.null,true,false⟩
    ⟨{ s.cache with cacheCoins := putEntry s.cache.cacheCoins outpoint us },update s.usage outpoint 0,
      s.cachedCoinsUsage-s.usageAt outpoint⟩

abbrev WrittenCoins := List (COutPoint × CCoinsCacheEntry × Nat)

/-- One turn of the loop of `BatchWrite`. -/
def writeEntry (it : CCoinsCacheEntry) (n : Nat) : AccountedCache × Option Stop :=
  if !it.dirty then (s,none)
  else match mergeEntry (s.cache.cacheCoins.lookup outpoint) it with
  | .error e => (s,some e)
  | .ok us =>
    let n := if us.isSome then n else 0
    (⟨{ s.cache with cacheCoins := putEntry s.cache.cacheCoins outpoint us },update s.usage outpoint n,
      s.cachedCoinsUsage-s.usageAt outpoint+n⟩,none)

def batchWrite (hashBlock : BlockHash) : WrittenCoins → AccountedCache → AccountedCache × Option Stop
  | [], s => ({ s with cache := s.cache.setBestBlock hashBlock },none)
  | (outpoint,it,n)::rest, s =>
    match s.writeEntry outpoint it n with
    | (s,some e) => (s,some e)
    | (s,none) => batchWrite hashBlock rest s

/-- What is left of the cache when `BatchWrite` of its base throws is given. -/
def flush (left : CCoinsViewCache) : AccountedCache × Option Stop :=
  match s.cache.flush with
  | .error e => ({ s with cache := left },some e)
  | .ok cache => (⟨cache,fun _ => 0,0⟩,none)

def uncache : AccountedCache :=
  match s.cache.cacheCoins.lookup outpoint with
  | none => s
  | some e =>
    if !e.dirty && !e.fresh then
      ⟨s.cache.uncache outpoint,update s.usage outpoint 0,s.cachedCoinsUsage-s.usageAt outpoint⟩
    else s

/-- What `AddCoin` has to find so that it does not replace an unspent coin. -/
def Admits (coin : Coin) (possibleOverwrite : Bool) : Prop :=
  coin.out.scriptPubKey.isUnspendable = true ∨ possibleOverwrite = true ∨
    ∀ it, s.cache.cacheCoins.lookup outpoint = some it → it.coin.isSpent = true

/-- No dirty entry marked `FRESH` has an unspent entry in the cache below. -/
def Flushable : Prop :=
  ∀ below hashBlock base, s.cache.base = .cache below hashBlock base → ∀ it ∈ s.cache.cacheCoins.entries,
    it.2.dirty = true → it.2.fresh = true → ∀ us, below.lookup it.1 = some us → us.coin.isSpent = true

/-- A run of calls; the conditions on `AddCoin` and `Flush` are on the state before. -/
inductive Runs (s : AccountedCache) : AccountedCache → Prop
  | start : Runs s s
  | fetchCoin {t : AccountedCache} (h : Runs s t) (outpoint : COutPoint) (n : Nat) : Runs s (t.fetchCoin outpoint n)
  | addCoin {t : AccountedCache} (h : Runs s t) (outpoint : COutPoint) (coin : Coin) (n : Nat) (possibleOverwrite : Bool)
      (hfree : t.Admits outpoint coin possibleOverwrite) :
      Runs s (t.addCoin outpoint coin n possibleOverwrite).1
  | spendCoin {t : AccountedCache} (h : Runs s t) (outpoint : COutPoint) (n : Nat) : Runs s (t.spendCoin outpoint n)
  | batchWrite {t : AccountedCache} (h : Runs s t) (mapCoins : WrittenCoins) (hashBlock : BlockHash) :
      Runs s (batchWrite hashBlock mapCoins t).1
  | flush {t : AccountedCache} (h : Runs s t) (left : CCoinsViewCache) (hfree : t.Flushable) : Runs s (t.flush left).1
  | uncache {t : AccountedCache} (h : Runs s t) (outpoint : COutPoint) : Runs s (t.uncache outpoint)

variable {s : AccountedCache} {outpoint : COutPoint}

def Exact (s : AccountedCache) : Prop := s.cachedCoinsUsage = s.total

theorem Exact.put {t : AccountedCache} (h : s.Exact) {u : Option CCoinsCacheEntry} {n : Nat}
    (hcoins : t.cache.cacheCoins = putEntry s.cache.cacheCoins outpoint u) (husage : t.usage = update s.usage outpoint n)
    (hnone : u = none → n = 0) (hcount : t.cachedCoinsUsage = s.cachedCoinsUsage-s.usageAt outpoint+n) : t.Exact := by
  have hnodup := s.cache.cacheCoins.keys_nodup
  have hrest : (s.cache.cacheCoins.keys.erase outpoint).map t.usage =
      (s.cache.cacheCoins.keys.erase outpoint).map s.usage := by
    apply List.map_congr_left
    intro x hx
    rw [husage,update_of_ne (hnodup.mem_erase_iff.mp hx).1]
  have hbefore : s.total = s.usageAt outpoint+((s.cache.cacheCoins.keys.erase outpoint).map s.usage).sum := by
    unfold total usageAt
    by_cases hmem : outpoint ∈ s.cache.cacheCoins
    · rw [if_pos (AList.lookup_isSome.mpr hmem),List.sum_map_erase _ hmem]
    · rw [if_neg (mt AList.lookup_isSome.mp hmem),Nat.zero_add,List.erase_of_not_mem hmem]
  have hafter : t.total = n+((s.cache.cacheCoins.keys.erase outpoint).map s.usage).sum := by
    unfold total
    cases u with
    | none =>
      rw [hcoins,putEntry,AList.keys_erase,hrest,hnone rfl,Nat.zero_add]
    | some e =>
      rw [hcoins,putEntry,AList.keys_insert,List.map_cons,List.sum_cons,hrest,husage,update_self]
  rw [Exact] at h ⊢
  omega

theorem Exact.fetchCoin (h : s.Exact) (n : Nat) : (s.fetchCoin outpoint n).Exact := by
  unfold AccountedCache.fetchCoin CCoinsViewCache.fetchCoin fetchFrom
  cases hl : s.cache.cacheCoins.lookup outpoint with
  | some e => simpa [hl] using h
  | none =>
    cases hg : (s.cache.base.getCoin outpoint).1 with
    | none => simpa [hl,Exact,total] using h
    | some tmp =>
      apply h.put (u := some ⟨tmp,false,tmp.isSpent⟩) (n := n) rfl
      · rfl
      · simp
      · simp [usageAt,hl]

theorem Exact.addCoin {coin : Coin} {n : Nat} {possibleOverwrite : Bool} (h : s.Exact)
    (hfree : s.Admits outpoint coin possibleOverwrite) : (s.addCoin outpoint coin n possibleOverwrite).1.Exact := by
  unfold AccountedCache.addCoin
  split_ifs with hspent hunspendable
  · exact h
  · exact h
  · have hit : ¬(!possibleOverwrite &&
        !((s.cache.cacheCoins.lookup outpoint).getD CCoinsCacheEntry.empty).coin.isSpent) = true := by
      rcases hfree with hu | rfl | hit
      · exact absurd hu hunspendable
      · simp
      · cases hl : s.cache.cacheCoins.lookup outpoint with
        | none => simp [CCoinsCacheEntry.empty,Coin.isSpent,show Coin.null.out.isNull = true from rfl]
        | some it => simp [hit it hl]
    rw [CCoinsViewCache.addCoin,if_neg hspent,if_neg hunspendable]
    dsimp only
    rw [if_neg hit]
    exact h.put (u := some _) rfl rfl (by simp) rfl

theorem Exact.spendCoin (h : s.Exact) (n : Nat) : (s.spendCoin outpoint n).Exact := by
  have hfetch : (s.fetchCoin outpoint n).Exact := h.fetchCoin n
  unfold AccountedCache.spendCoin
  dsimp only
  split
  · exact hfetch
  · exact hfetch.put rfl rfl (fun _ => rfl) (by simp)

theorem Exact.writeEntry {it : CCoinsCacheEntry} {n : Nat} (h : s.Exact) : (s.writeEntry outpoint it n).1.Exact := by
  unfold AccountedCache.writeEntry
  split
  · exact h
  · split
    · exact h
    · exact h.put rfl rfl (fun hn => by rw [hn]; rfl) rfl

theorem Exact.batchWrite (hashBlock : BlockHash) (mapCoins : WrittenCoins) (h : s.Exact) :
    (batchWrite hashBlock mapCoins s).1.Exact := by
  induction mapCoins generalizing s with
  | nil => exact h
  | cons line rest ih =>
    obtain ⟨outpoint,it,n⟩ := line
    have hw : (s.writeEntry outpoint it n).1.Exact := h.writeEntry
    unfold AccountedCache.batchWrite
    split
    · rename_i t e ht
      rwa [ht] at hw
    · rename_i t ht
      rw [ht] at hw
      exact ih hw

theorem mergeEntries_ok {es : List (Sigma fun _ : COutPoint => CCoinsCacheEntry)} (m : CCoinsMap) (hnd : es.NodupKeys)
    (h : ∀ it ∈ es, it.2.dirty = true → it.2.fresh = true → ∀ us, m.lookup it.1 = some us → us.coin.isSpent = true) :
    ∃ m', mergeEntries m es = .ok m' := by
  induction es generalizing m with
  | nil => exact ⟨m,rfl⟩
  | cons head es ih =>
    obtain ⟨x,it⟩ := head
    have hnd' : x ∉ List.keys es ∧ es.NodupKeys := List.nodupKeys_cons.mp hnd
    rw [List.forall_mem_cons] at h
    unfold mergeEntries
    split_ifs with hd
    · exact ih m hnd'.2 h.2
    · obtain ⟨o,ho⟩ : ∃ o, mergeEntry (m.lookup x) it = .ok o := by
        unfold mergeEntry
        split
        · split_ifs <;> exact ⟨_,rfl⟩
        · rename_i us hus
          rw [if_neg (by simpa using fun hfresh => h.1 (by simpa using hd) hfresh us hus)]
          split_ifs <;> exact ⟨_,rfl⟩
      rw [ho]
      refine ih _ hnd'.2 fun y hy hdirty hfresh us hus => h.2 y hy hdirty hfresh us ?_
      -- the keys are distinct, so the entry of a later key is still the first one
      have hne : y.1 ≠ x := fun he => hnd'.1 (he ▸ List.mem_keys_of_mem hy)
      cases o with
      | none => rwa [putEntry,AList.lookup_erase_ne hne] at hus
      | some e => rwa [putEntry,AList.lookup_insert_ne hne] at hus

theorem Exact.flush {left : CCoinsViewCache} (hfree : s.Flushable) : (s.flush left).1.Exact := by
  obtain ⟨base,hbase⟩ : ∃ base, s.cache.base.batchWrite s.cache.cacheCoins s.cache.hashBlock = .ok base := by
    cases hb : s.cache.base with
    | map coins hashBlock => exact ⟨_,rfl⟩
    | cache below hashBlock base =>
      obtain ⟨m,hm⟩ := mergeEntries_ok below s.cache.cacheCoins.nodupKeys (hfree below hashBlock base hb)
      exact ⟨_,by rw [CCoinsView.batchWrite,hm]; rfl⟩
  rw [AccountedCache.flush,CCoinsViewCache.flush,hbase]
  rfl

theorem Exact.uncache (h : s.Exact) : (s.uncache outpoint).Exact := by
  unfold AccountedCache.uncache
  split
  · exact h
  · rename_i e hl
    split
    · rename_i hflags
      apply h.put (u := none) _ rfl (fun _ => rfl) (by simp)
      simp only [CCoinsViewCache.uncache,uncacheEntry,hl,if_pos hflags,putEntry]
    · exact h

/-- While `AddCoin` and `Flush` find what they need the counter is exact; an `AddCoin` that throws changes only it. -/
theorem cachedCoinsUsage_exact {base : CCoinsView} (h : Runs (ofBase base) s) :
    s.cachedCoinsUsage = s.total ∧ ∀ outpoint coin n possibleOverwrite,
      (s.addCoin outpoint coin n possibleOverwrite).2 ≠ none →
        (s.addCoin outpoint coin n possibleOverwrite).1.cache = s.cache := by
  constructor
  · change s.Exact
    induction h with
    | start => rfl
    | fetchCoin _ outpoint n ih => exact ih.fetchCoin n
    | addCoin _ outpoint coin n possibleOverwrite hfree ih => exact ih.addCoin hfree
    | spendCoin _ outpoint n ih => exact ih.spendCoin n
    | batchWrite _ mapCoins hashBlock ih => exact ih.batchWrite hashBlock mapCoins
    | flush _ left hfree ih => exact .flush hfree
    | uncache _ outpoint ih => exact ih.uncache
  · intro outpoint coin n possibleOverwrite hthrow
    unfold AccountedCache.addCoin at hthrow ⊢
    split_ifs at hthrow ⊢
    · rfl
    · rfl
    · split
      · rfl
      · rename_i hadd
        simp [hadd] at hthrow

/-- A script of 100 bytes is on the heap, where it takes 128. -/
private def paidCoin : Coin := ⟨⟨5,List.replicate 100 0x51,none⟩,2⟩

private def paidCache : AccountedCache := ((ofBase (.map (fun _ => none) 0)).addCoin ⟨7,0⟩ paidCoin 128 false).1

/-- A coin is added, overwritten, flushed and fetched again. -/
theorem cachedCoinsUsage_exact_paid :
    let s := (((paidCache.addCoin ⟨7,0⟩ paidCoin 112 true).1.flush paidCache.cache).1.fetchCoin ⟨7,0⟩ 128)
    s.cachedCoinsUsage = s.total ∧ s.total = 128 :=
  ⟨(cachedCoinsUsage_exact (.fetchCoin (.flush (.addCoin (.addCoin .start ⟨7,0⟩ paidCoin 128 false
    (.inr (.inr (by decide)))) ⟨7,0⟩ paidCoin 112 true (.inr (.inl rfl))) _ (by intro _ _ _ h; cases h)) ⟨7,0⟩ 128)).1,by decide⟩

theorem addCoin_throw_drifts : (paidCache.addCoin ⟨7,0⟩ paidCoin 128 false).2.isSome = true ∧
    (paidCache.addCoin ⟨7,0⟩ paidCoin 128 false).1.cachedCoinsUsage = 0 ∧
      (paidCache.addCoin ⟨7,0⟩ paidCoin 128 false).1.total = 128 := by
  decide
end AccountedCache
end BitfiniteCore
