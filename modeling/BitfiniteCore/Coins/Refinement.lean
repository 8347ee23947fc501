import BitfiniteCore.Coins.Cache
import BitfiniteCore.Lib.WriteBack

/-! # A stack of caches answers like one map -/

namespace BitfiniteCore
open WriteBack Function

def CCoinsCacheEntry.line (e : CCoinsCacheEntry) : Line Coin := ⟨e.coin.unspent,e.dirty,e.fresh⟩

def lines (m : CCoinsMap) (outpoint : COutPoint) : Option (Line Coin) := (m.lookup outpoint).map CCoinsCacheEntry.line

def CCoinsView.coins : CCoinsView → CoinMap
  | .map coins _ => fun outpoint => (coins outpoint).bind Coin.unspent
  | .cache cacheCoins _ base => layer (lines cacheCoins) base.coins

def CCoinsView.bestBlock : CCoinsView → BlockHash
  | .map _ hashBlock => hashBlock
  | .cache _ hashBlock base => if hashBlock = 0 then base.bestBlock else hashBlock

/-- In every layer a clean entry repeats the layer below and a fresh one hides nothing. -/
def CCoinsView.WF : CCoinsView → Prop
  | .map _ _ => True
  | .cache cacheCoins _ base => base.WF ∧ LayerSound (lines cacheCoins) base.coins

abbrev ViewFrame := BlockHash × BlockHash × CoinMap

namespace CCoinsViewCache

def coins (v : CCoinsViewCache) : CoinMap := v.toView.coins

def bestBlock (v : CCoinsViewCache) : BlockHash := v.toView.bestBlock

def WF (v : CCoinsViewCache) : Prop := v.toView.WF
end CCoinsViewCache

@[simp] theorem lines_empty : lines ∅ = fun _ => none := by
  funext x
  simp [lines]

@[simp] theorem lines_insert (m : CCoinsMap) (x : COutPoint) (e : CCoinsCacheEntry) :
    lines (m.insert x e) = update (lines m) x (some e.line) := by
  funext y
  by_cases h : y = x
  · subst h
    simp [lines]
  · simp [lines,h]

@[simp] theorem lines_erase (m : CCoinsMap) (x : COutPoint) : lines (m.erase x) = update (lines m) x none := by
  funext y
  by_cases h : y = x
  · subst h
    simp [lines]
  · simp [lines,h]

theorem lines_putEntry (m : CCoinsMap) (x : COutPoint) (o : Option CCoinsCacheEntry) :
    lines (putEntry m x o) = update (lines m) x (o.map CCoinsCacheEntry.line) := by
  cases o <;> simp [putEntry]

theorem lines_of_lookup {m : CCoinsMap} {x : COutPoint} {o : Option CCoinsCacheEntry}
    (h : m.lookup x = o) : lines m x = o.map CCoinsCacheEntry.line := by
  rw [lines,h]

theorem Coin.unspent_bind_unspent (c : Coin) : c.unspent.bind Coin.unspent = c.unspent := by
  unfold Coin.unspent
  cases h : c.isSpent <;> simp [h]

theorem CCoinsView.coins_isSpent {v : CCoinsView} {x : COutPoint} {c : Coin}
    (h : v.coins x = some c) : c.isSpent = false := by
  induction v with
  | map coins hashBlock =>
    obtain ⟨d,-,hd⟩ := Option.bind_eq_some_iff.mp h
    obtain ⟨hs,rfl⟩ := Coin.unspent_eq_some.mp hd
    exact hs
  | cache m hashBlock base ih =>
    simp only [coins,layer,lines] at h
    cases he : m.lookup x with
    | none =>
      rw [he] at h
      exact ih h
    | some e =>
      rw [he] at h
      obtain ⟨hs,rfl⟩ := Coin.unspent_eq_some.mp h
      exact hs

section Fetch

private theorem fetchFrom_spec {m : CCoinsMap} {b : CCoinsView} {x : COutPoint}
    {got : Option Coin × CCoinsView} (hs : LayerSound (lines m) b.coins)
    (hgot : got.1.bind Coin.unspent = b.coins x) (hb : got.2.coins = b.coins) :
    (fetchFrom m b x got).2.2.coins = b.coins ∧
    LayerSound (lines (fetchFrom m b x got).2.1) b.coins ∧
    layer (lines (fetchFrom m b x got).2.1) b.coins = layer (lines m) b.coins ∧
    (fetchFrom m b x got).2.1.lookup x = (fetchFrom m b x got).1 := by
  unfold fetchFrom
  cases hl : m.lookup x with
  | some e => exact ⟨rfl,hs,rfl,hl⟩
  | none =>
    cases hg : got.1 with
    | none => exact ⟨hb,hs,rfl,hl⟩
    | some tmp =>
      have hbase : b.coins x = tmp.unspent := by rw [← hgot,hg]; rfl
      have hsound : Sound (b.coins x) (CCoinsCacheEntry.line ⟨tmp,false,tmp.isSpent⟩) :=
        ⟨fun _ => hbase.symm,fun hf => hbase.trans (Coin.unspent_eq_none.mpr hf)⟩
      refine ⟨hb,?_,?_,by simp⟩
      · rw [lines_insert]
        exact hs.update fun l hl => Option.some.inj hl ▸ hsound
      · rw [lines_insert,layer_update]
        apply update_eq_self_iff.mpr
        rw [layer,lines_of_lookup hl]
        exact hbase.symm

theorem CCoinsView.getCoin_spec (v : CCoinsView) (x : COutPoint) (h : v.WF) :
    (v.getCoin x).2.WF ∧ (v.getCoin x).2.coins = v.coins ∧ (v.getCoin x).1.bind Coin.unspent = v.coins x := by
  induction v with
  | map coins hashBlock => exact ⟨trivial,rfl,rfl⟩
  | cache m hashBlock base ih =>
    obtain ⟨hwf,hcoins,hgot⟩ := ih h.1
    obtain ⟨h1,h2,h3,h4⟩ := fetchFrom_spec h.2 hgot hcoins
    have hbwf : (fetchFrom m base x (base.getCoin x)).2.2.WF := by
      unfold fetchFrom
      cases m.lookup x with
      | some e => exact h.1
      | none => cases (base.getCoin x).1 <;> exact hwf
    refine ⟨⟨hbwf,h1 ▸ h2⟩,?_,?_⟩
    · change layer _ _ = layer _ _
      rw [h1,h3]
    · rw [coins,← h3,layer,lines_of_lookup h4]
      change (Option.bind _ _).bind _ = _
      cases hf : (fetchFrom m base x (base.getCoin x)).1 with
      | some e => exact e.coin.unspent_bind_unspent
      | none =>
        have hl : m.lookup x = none ∧ (base.getCoin x).1 = none := by
          revert hf
          unfold fetchFrom
          cases m.lookup x with
          | some e => simp
          | none => cases (base.getCoin x).1 <;> simp
        simp [← hgot,hl.2]
end Fetch

namespace CCoinsViewCache

variable {v : CCoinsViewCache} {x : COutPoint}

theorem coins_isSpent {c : Coin} (h : v.coins x = some c) : c.isSpent = false := CCoinsView.coins_isSpent h

private theorem fetchCoin_spec (h : v.WF) (x : COutPoint) : (v.fetchCoin x).2.WF ∧ (v.fetchCoin x).2.coins = v.coins ∧
      (v.fetchCoin x).1.bind (fun e => e.coin.unspent) = v.coins x ∧
      (v.fetchCoin x).2.cacheCoins.lookup x = (v.fetchCoin x).1 := by
  obtain ⟨hwf,hcoins,hgot⟩ := v.toView.getCoin_spec x h
  obtain ⟨hwf',hcoins',hgot'⟩ := v.base.getCoin_spec x h.1
  refine ⟨hwf,hcoins,?_,(fetchFrom_spec h.2 hgot' hcoins').2.2.2⟩
  have hidem : ∀ o : Option CCoinsCacheEntry, (o.bind fun e => e.coin.unspent).bind Coin.unspent =
      o.bind fun e => e.coin.unspent := by
    intro o
    cases o with
    | none => rfl
    | some e => exact e.coin.unspent_bind_unspent
  exact (hidem _).symm.trans hgot

theorem fetchCoin_WF (h : v.WF) (x : COutPoint) : (v.fetchCoin x).2.WF := (fetchCoin_spec h x).1

theorem fetchCoin_coins (h : v.WF) (x : COutPoint) : (v.fetchCoin x).2.coins = v.coins := (fetchCoin_spec h x).2.1

theorem getCoin_eq (h : v.WF) (x : COutPoint) : (v.getCoin x).1 = v.coins x := (fetchCoin_spec h x).2.2.1

theorem haveCoin_eq (h : v.WF) (x : COutPoint) : (v.haveCoin x).1 = (v.coins x).isSome := by
  rw [← getCoin_eq h]
  change Option.any _ (v.fetchCoin x).1 = ((v.fetchCoin x).1.bind _).isSome
  cases (v.fetchCoin x).1 with
  | none => rfl
  | some e => cases hs : e.coin.isSpent <;> simp [Coin.unspent,hs]

theorem accessCoin_eq (h : v.WF) {c : Coin} (hc : v.coins x = some c) : (v.accessCoin x).1 = c := by
  rw [← getCoin_eq h] at hc
  obtain ⟨e,he,hs⟩ := Option.bind_eq_some_iff.mp hc
  obtain ⟨-,rfl⟩ := Coin.unspent_eq_some.mp hs
  simp [accessCoin,he]

theorem accessCoin_spent (h : v.WF) (hc : v.coins x = none) : (v.accessCoin x).1.isSpent = true := by
  rw [← getCoin_eq h] at hc
  cases he : (v.fetchCoin x).1 with
  | none =>
    simp only [accessCoin,he]
    rfl
  | some e =>
    have hs : e.coin.unspent = none := by simpa [getCoin,he] using hc
    simpa [accessCoin,he] using Coin.unspent_eq_none.mp hs

theorem accessCoin_unspent (h : v.WF) (x : COutPoint) : (v.accessCoin x).1.unspent = v.coins x := by
  cases hc : v.coins x with
  | none => exact Coin.unspent_eq_none.mpr (accessCoin_spent h hc)
  | some c => exact Coin.unspent_eq_some.mpr ⟨(accessCoin_eq h hc).symm ▸ coins_isSpent hc,accessCoin_eq h hc⟩

private theorem wf_insert (h : v.WF) {e : CCoinsCacheEntry} (he : Sound (v.base.coins x) e.line) :
    ({ v with cacheCoins := v.cacheCoins.insert x e } : CCoinsViewCache).WF := by
  refine ⟨h.1,?_⟩
  rw [lines_insert]
  exact h.2.update fun l hl => Option.some.inj hl ▸ he

private theorem coins_insert (v : CCoinsViewCache) (x : COutPoint) (e : CCoinsCacheEntry) :
    ({ v with cacheCoins := v.cacheCoins.insert x e } : CCoinsViewCache).coins = update v.coins x e.coin.unspent := by
  change layer (lines (v.cacheCoins.insert x e)) v.base.coins = _
  rw [lines_insert,layer_update]
  rfl

private theorem wf_erase (h : v.WF) (x : COutPoint) :
    ({ v with cacheCoins := v.cacheCoins.erase x } : CCoinsViewCache).WF := by
  refine ⟨h.1,?_⟩
  rw [lines_erase]
  exact h.2.update fun l hl => nomatch hl

private theorem coins_erase (v : CCoinsViewCache) (x : COutPoint) :
    ({ v with cacheCoins := v.cacheCoins.erase x } : CCoinsViewCache).coins = update v.coins x (v.base.coins x) := by
  change layer (lines (v.cacheCoins.erase x)) v.base.coins = _
  rw [lines_erase,layer_update]
  rfl

private theorem entry_sound (h : v.WF) {e : CCoinsCacheEntry} (he : v.cacheCoins.lookup x = some e) :
    Sound (v.base.coins x) e.line :=
  h.2 x e.line (lines_of_lookup he)

private theorem coins_of_lookup (he : v.cacheCoins.lookup x = none) : v.coins x = v.base.coins x := by
  change layer (lines v.cacheCoins) v.base.coins x = _
  rw [layer,lines_of_lookup he]
  rfl

private theorem coins_of_entry {e : CCoinsCacheEntry} (he : v.cacheCoins.lookup x = some e) :
    v.coins x = e.coin.unspent := by
  change layer (lines v.cacheCoins) v.base.coins x = _
  rw [layer,lines_of_lookup he]
  rfl

/-- What operations on coins leave alone. -/
def frame (v : CCoinsViewCache) : ViewFrame := (v.hashBlock,v.base.bestBlock,v.base.coins)

theorem bestBlock_eq (v : CCoinsViewCache) : v.bestBlock = if v.frame.1 = 0 then v.frame.2.1 else v.frame.1 := rfl

private theorem fetchFrom_bestBlock {m : CCoinsMap} {b : CCoinsView} {x : COutPoint}
    {got : Option Coin × CCoinsView} (hb : got.2.bestBlock = b.bestBlock) :
    (fetchFrom m b x got).2.2.bestBlock = b.bestBlock := by
  unfold fetchFrom
  split
  · rfl
  split
  · exact hb
  · exact hb

private theorem getCoin_bestBlock (v : CCoinsView) (x : COutPoint) : (v.getCoin x).2.bestBlock = v.bestBlock := by
  induction v with
  | map coins hashBlock => rfl
  | cache m hashBlock base ih =>
    unfold CCoinsView.getCoin
    dsimp only [CCoinsView.bestBlock]
    rw [fetchFrom_bestBlock ih]

theorem fetchCoin_frame (h : v.WF) (x : COutPoint) : (v.fetchCoin x).2.frame = v.frame := by
  obtain ⟨-,hcoins,hgot⟩ := v.base.getCoin_spec x h.1
  have hbest := fetchFrom_bestBlock (m := v.cacheCoins) (x := x) (getCoin_bestBlock v.base x)
  have hbase := (fetchFrom_spec h.2 hgot hcoins).1
  exact congrArg (Prod.mk v.hashBlock) (Prod.ext hbest hbase)

theorem spendCoin_frame (h : v.WF) (x : COutPoint) : (v.spendCoin x).2.frame = v.frame := by
  have hf := fetchCoin_frame h x
  unfold spendCoin
  split
  · rename_i w hw
    rw [hw] at hf
    exact hf
  · rename_i it w hw
    rw [hw] at hf
    split <;> exact hf

def insertCoin (m : CoinMap) (x : COutPoint) (coin : Coin) : CoinMap :=
  if coin.out.scriptPubKey.isUnspendable then m else update m x (some coin)

theorem addCoin_spec (h : v.WF) {coin : Coin} (hcoin : coin.isSpent = false) {overwrite : Bool}
    (hover : overwrite = false → coin.out.scriptPubKey.isUnspendable = false → v.coins x = none) :
    ∃ v', v.addCoin x coin overwrite = .ok v' ∧ v'.WF ∧ v'.coins = insertCoin v.coins x coin ∧
      v'.frame = v.frame := by
  unfold addCoin insertCoin
  rw [if_neg (by simp [hcoin])]
  by_cases hu : coin.out.scriptPubKey.isUnspendable = true
  · exact ⟨v,by rw [if_pos hu],h,by rw [if_pos hu],rfl⟩
  rw [if_neg hu,if_neg hu]
  have hnone : overwrite = false → v.coins x = none := fun ho => hover ho (by simpa using hu)
  have hspent : (!overwrite && !((v.cacheCoins.lookup x).getD CCoinsCacheEntry.empty).coin.isSpent) = false := by
    cases overwrite with
    | true => rfl
    | false =>
      cases he : v.cacheCoins.lookup x with
      | none => rfl
      | some e =>
        have hs := Coin.unspent_eq_none.mp ((coins_of_entry he).symm.trans (hnone rfl))
        simp [hs]
  simp only [hspent,Bool.false_eq_true,if_false]
  refine ⟨_,rfl,wf_insert h ?_,?_,rfl⟩
  · refine ⟨nofun,fun hf => ?_⟩
    cases he : v.cacheCoins.lookup x with
    | none =>
      rw [← coins_of_lookup he]
      apply hnone
      simpa [CCoinsCacheEntry.line,he,CCoinsCacheEntry.empty] using hf
    | some e =>
      have hsound := entry_sound h he
      simp only [CCoinsCacheEntry.line,he,Option.getD_some,Bool.or_eq_true,Bool.and_eq_true,Bool.not_eq_true'] at hf
      rcases hf with hf | ⟨ho,hd⟩
      · exact hsound.fresh hf
      · exact hsound.base_none ((coins_of_entry he).symm.trans (hnone ho)) (.inl hd)
  · rw [coins_insert,Coin.unspent_of hcoin]

theorem spendCoin_spec (h : v.WF) (x : COutPoint) :
    (v.spendCoin x).2.WF ∧ (v.spendCoin x).2.coins = update v.coins x none ∧
      (v.spendCoin x).1.bind Coin.unspent = v.coins x := by
  obtain ⟨hwf,hcoins,hget,hlook⟩ := fetchCoin_spec h x
  unfold spendCoin
  rcases hf : v.fetchCoin x with ⟨o,w⟩
  rw [hf] at hwf hcoins hget hlook
  cases o with
  | none =>
    refine ⟨hwf,?_,hget⟩
    rw [hcoins]
    exact (update_eq_self_iff.mpr hget).symm
  | some it =>
    refine ⟨?_,?_,hget⟩
    · dsimp only
      split
      · exact wf_erase hwf x
      · exact wf_insert hwf (Sound.of_dirty _ _)
    · dsimp only
      split
      · rename_i hfresh
        rw [coins_erase,(entry_sound hwf hlook).fresh hfresh,hcoins]
      · rw [coins_insert,hcoins]
        rfl

theorem spendCoin_some (h : v.WF) {c : Coin} (hc : v.coins x = some c) : (v.spendCoin x).1 = some c := by
  have hs := (spendCoin_spec h x).2.2
  rw [hc] at hs
  obtain ⟨d,hd,hdc⟩ := Option.bind_eq_some_iff.mp hs
  obtain ⟨-,rfl⟩ := Coin.unspent_eq_some.mp hdc
  exact hd
end CCoinsViewCache
end BitfiniteCore
