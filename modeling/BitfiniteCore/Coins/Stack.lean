import BitfiniteCore.Coins.Refinement

/-! # Runs of a cache stack -/

namespace BitfiniteCore
open WriteBack Function

abbrev CoinsEntries := List (Sigma fun _ : COutPoint => CCoinsCacheEntry)

private def listLines (es : CoinsEntries) (x : COutPoint) : Option (Line Coin) :=
  (es.dlookup x).map CCoinsCacheEntry.line

private theorem listLines_cons (x : COutPoint) (e : CCoinsCacheEntry) (es : CoinsEntries) :
    listLines (⟨x,e⟩::es) = update (listLines es) x (some e.line) := by
  funext y
  by_cases h : y = x
  · subst h
    simp [listLines]
  · rw [listLines,List.dlookup_cons_ne es ⟨x,e⟩ h,update_of_ne h]
    rfl

private theorem listLines_of_notMem {x : COutPoint} {es : CoinsEntries} (h : x ∉ es.keys) :
    listLines es x = none := by
  rw [listLines,List.dlookup_eq_none.mpr h]
  rfl

private theorem layer_cons {x : COutPoint} {e : CCoinsCacheEntry} {es : CoinsEntries}
    (hx : x ∉ es.keys) (coins : COutPoint → Option Coin) :
    layer (listLines (⟨x,e⟩::es)) coins = layer (listLines es) (update coins x e.coin.unspent) := by
  rw [listLines_cons,layer_update]
  funext y
  by_cases h : y = x
  · subst h
    simp [layer,listLines_of_notMem hx,CCoinsCacheEntry.line]
  · simp [layer,h]

private theorem mergeEntry_merge (us : Option CCoinsCacheEntry) {e : CCoinsCacheEntry}
    (base : Option Coin) (hd : e.dirty = true) (hs : Sound (answer (us.map CCoinsCacheEntry.line) base) e.line) :
    ∃ o, mergeEntry us e = .ok o ∧ o.map CCoinsCacheEntry.line = merge (us.map CCoinsCacheEntry.line) e.line := by
  have hnot := not_misapplied hs
  unfold mergeEntry merge
  simp only [CCoinsCacheEntry.line,hd,Bool.not_true,Bool.false_eq_true,if_false,Coin.unspent_isNone]
  cases us with
  | none =>
    dsimp only [Option.map_none]
    split <;> exact ⟨_,rfl,rfl⟩
  | some u =>
    have hmis : (e.fresh && !u.coin.isSpent) = false := by
      by_contra hc
      rw [Bool.not_eq_false,Bool.and_eq_true,Bool.not_eq_true'] at hc
      exact hnot ⟨hd,hc.1,u.line,rfl,by simp [CCoinsCacheEntry.line,Coin.unspent,hc.2]⟩
    simp only [Option.map_some,hmis,Bool.false_eq_true,if_false,CCoinsCacheEntry.line]
    split <;> exact ⟨_,rfl,rfl⟩

private theorem mergeEntries_spec (b : COutPoint → Option Coin) (es : CoinsEntries) (m : CCoinsMap)
    (hnd : es.NodupKeys) (hm : LayerSound (lines m) b) (hes : LayerSound (listLines es) (layer (lines m) b)) :
    ∃ m', mergeEntries m es = .ok m' ∧ LayerSound (lines m') b ∧
      layer (lines m') b = layer (listLines es) (layer (lines m) b) := by
  induction es generalizing m with
  | nil => exact ⟨m,rfl,hm,rfl⟩
  | cons head es ih =>
    obtain ⟨x,e⟩ := head
    have hnd' : x ∉ List.keys es ∧ es.NodupKeys := List.nodupKeys_cons.mp hnd
    have he : Sound (layer (lines m) b x) e.line := hes x e.line (by simp [listLines_cons])
    have hrest : ∀ y l, listLines es y = some l → Sound (layer (lines m) b y) l ∧ y ≠ x := by
      intro y l hl
      have hy : y ≠ x := by
        rintro rfl
        rw [listLines_of_notMem hnd'.1] at hl
        cases hl
      exact ⟨hes y l (by simpa [listLines_cons,hy] using hl),hy⟩
    rw [layer_cons hnd'.1]
    unfold mergeEntries
    cases hd : e.dirty with
    | false =>
      have hclean : update (layer (lines m) b) x e.coin.unspent = layer (lines m) b :=
        update_eq_self_iff.mpr (he.clean hd)
      simp only [Bool.not_false,if_true]
      rw [hclean]
      exact ih m hnd'.2 hm fun y l hl => (hrest y l hl).1
    | true =>
      obtain ⟨o,ho,hline⟩ := mergeEntry_merge (m.lookup x) (b x) hd he
      have hus : ∀ u, (m.lookup x).map CCoinsCacheEntry.line = some u → Sound (b x) u :=
        fun u hu => hm x u hu
      have hput : layer (lines (putEntry m x o)) b = update (layer (lines m) b) x e.coin.unspent := by
        rw [lines_putEntry,layer_update,hline,merge_answer hus he]
        rfl
      simp only [Bool.not_true,Bool.false_eq_true,if_false,ho,Except.bind]
      rw [← hput]
      apply ih _ hnd'.2
      · rw [lines_putEntry,hline]
        exact hm.update (merge_sound hus he)
      · intro y l hl
        obtain ⟨hs,hy⟩ := hrest y l hl
        rw [hput,update_of_ne hy]
        exact hs

private theorem writeEntries_spec (es : CoinsEntries) (f : COutPoint → Option Coin)
    (hnd : es.NodupKeys) (hes : LayerSound (listLines es) fun x => (f x).bind Coin.unspent) :
    (fun x => (writeEntries f es x).bind Coin.unspent) = layer (listLines es) fun x => (f x).bind Coin.unspent := by
  induction es generalizing f with
  | nil => rfl
  | cons head es ih =>
    obtain ⟨x,e⟩ := head
    have hnd' : x ∉ List.keys es ∧ es.NodupKeys := List.nodupKeys_cons.mp hnd
    have he : Sound ((f x).bind Coin.unspent) e.line := hes x e.line (by simp [listLines_cons])
    have hup : (fun y => ((if e.dirty = true then update f x e.coin.unspent else f) y).bind
        Coin.unspent) = update (fun y => (f y).bind Coin.unspent) x e.coin.unspent := by
      cases hd : e.dirty with
      | false => exact (update_eq_self_iff.mpr (he.clean hd)).symm
      | true =>
        funext y
        by_cases hy : y = x
        · subst hy
          simp [Coin.unspent_bind_unspent]
        · simp [hy]
    rw [layer_cons hnd'.1,writeEntries,← hup]
    apply ih _ hnd'.2
    intro y l hl
    have hy : y ≠ x := by
      rintro rfl
      rw [listLines_of_notMem hnd'.1] at hl
      cases hl
    rw [hup,update_of_ne hy]
    exact hes y l (by simpa [listLines_cons,hy] using hl)

theorem CCoinsView.batchWrite_spec {P : CCoinsView} {mapCoins : CCoinsMap} (hashBlock : BlockHash)
    (hP : P.WF) (hs : LayerSound (lines mapCoins) P.coins) :
    ∃ P', P.batchWrite mapCoins hashBlock = .ok P' ∧ P'.WF ∧ P'.coins = layer (lines mapCoins) P.coins := by
  cases P with
  | map f h =>
    exact ⟨_,rfl,trivial,writeEntries_spec mapCoins.entries f mapCoins.nodupKeys hs⟩
  | cache m h b =>
    obtain ⟨m',hm,hsound,hlayer⟩ :=
      mergeEntries_spec b.coins mapCoins.entries m mapCoins.nodupKeys hP.2 hs
    exact ⟨.cache m' hashBlock b,by simp [batchWrite,hm,Except.map],⟨hP.1,hsound⟩,hlayer⟩

private theorem uncacheEntry_spec {m : CCoinsMap} {b : COutPoint → Option Coin}
    (hm : LayerSound (lines m) b) (x : COutPoint) :
    LayerSound (lines (uncacheEntry m x)) b ∧ layer (lines (uncacheEntry m x)) b = layer (lines m) b := by
  unfold uncacheEntry
  cases he : m.lookup x with
  | none => exact ⟨hm,rfl⟩
  | some e =>
    dsimp only
    split
    · rename_i hf
      rw [Bool.and_eq_true,Bool.not_eq_true'] at hf
      rw [lines_erase]
      refine ⟨hm.update (fun l hl => nomatch hl),?_⟩
      rw [layer_update]
      apply update_eq_self_iff.mpr
      rw [layer,lines_of_lookup he]
      exact ((hm x e.line (lines_of_lookup he)).clean hf.1).symm
    · exact ⟨hm,rfl⟩

theorem CCoinsView.uncacheAt_spec {v : CCoinsView} (h : v.WF) (x : COutPoint) (depth : Nat) :
    (v.uncacheAt x depth).WF ∧ (v.uncacheAt x depth).coins = v.coins := by
  induction v generalizing depth with
  | map f hashBlock => cases depth <;> exact ⟨trivial,rfl⟩
  | cache m hashBlock base ih =>
    cases depth with
    | zero =>
      obtain ⟨hs,hl⟩ := uncacheEntry_spec h.2 x
      exact ⟨⟨h.1,hs⟩,hl⟩
    | succ depth =>
      obtain ⟨hwf,hc⟩ := ih h.1 depth
      exact ⟨⟨hwf,hc ▸ h.2⟩,congrArg (layer (lines m)) hc⟩

namespace CCoinsViewCache

variable {v : CCoinsViewCache}

theorem ofBase_WF {base : CCoinsView} (h : base.WF) : (ofBase base).WF := by
  refine ⟨h,fun x l hl => ?_⟩
  simp only [ofBase,lines_empty] at hl
  cases hl

theorem ofBase_coins (base : CCoinsView) : (ofBase base).coins = base.coins := by
  change layer (lines ∅) base.coins = _
  rw [lines_empty]
  rfl

theorem flush_spec (h : v.WF) : ∃ v', v.flush = .ok v' ∧ v'.WF ∧ v'.coins = v.coins := by
  obtain ⟨b,hb,hwf,hc⟩ := CCoinsView.batchWrite_spec v.hashBlock h.1 h.2
  refine ⟨⟨∅,v.hashBlock,b⟩,by simp [flush,hb,Except.map],ofBase_WF hwf,?_⟩
  exact (ofBase_coins b).trans hc

theorem uncacheAt_spec (h : v.WF) (x : COutPoint) (depth : Nat) :
    (v.uncacheAt x depth).WF ∧ (v.uncacheAt x depth).coins = v.coins := by
  have hv := CCoinsView.uncacheAt_spec (v := v.toView) h x depth
  cases depth <;> exact hv
end CCoinsViewCache

inductive CoinsOp where
  | addCoin (outpoint : COutPoint) (coin : Coin) (possibleOverwrite : Bool)
  | spendCoin (outpoint : COutPoint)
  | getCoin (outpoint : COutPoint)
  | haveCoin (outpoint : COutPoint)
  | accessCoin (outpoint : COutPoint)
  | uncache (depth : Nat) (outpoint : COutPoint)
  | newLayer
  | flush
  | dropLayer

inductive CoinsAnswer where
  | done
  | coin (c : Option Coin)
  | have (b : Bool)
deriving DecidableEq

def stackStep (v : CCoinsViewCache) : CoinsOp → Except Stop (CCoinsViewCache × CoinsAnswer)
  | .addCoin x coin overwrite => (v.addCoin x coin overwrite).map fun v => (v,.done)
  | .spendCoin x => .ok ((v.spendCoin x).2,.done)
  | .getCoin x => .ok ((v.getCoin x).2,.coin (v.getCoin x).1)
  | .haveCoin x => .ok ((v.haveCoin x).2,.have (v.haveCoin x).1)
  | .accessCoin x => .ok ((v.accessCoin x).2,.coin (v.accessCoin x).1.unspent)
  | .uncache depth x => .ok (v.uncacheAt x depth,.done)
  | .newLayer => .ok (CCoinsViewCache.ofBase v.toView,.done)
  | .flush => v.flush.map fun v => (v,.done)
  | .dropLayer =>
    match v.base with
    | .cache cacheCoins hashBlock base =>
      .ok (if v.cacheCoins.entries.isEmpty then ⟨cacheCoins,hashBlock,base⟩ else v,.done)
    | .map _ _ => .ok (v,.done)

def mapStep (m : COutPoint → Option Coin) : CoinsOp → (COutPoint → Option Coin) × CoinsAnswer
  | .addCoin x coin _ => (CCoinsViewCache.insertCoin m x coin,.done)
  | .spendCoin x => (update m x none,.done)
  | .getCoin x => (m,.coin (m x))
  | .haveCoin x => (m,.have (m x).isSome)
  | .accessCoin x => (m,.coin (m x))
  | .uncache _ _ => (m,.done)
  | .newLayer => (m,.done)
  | .flush => (m,.done)
  | .dropLayer => (m,.done)

def CoinsOp.Allowed (m : COutPoint → Option Coin) : CoinsOp → Prop
  | .addCoin x coin overwrite => coin.isSpent = false ∧ (overwrite = false → m x = none)
  | _ => True

theorem stackStep_refines {v : CCoinsViewCache} (h : v.WF) {op : CoinsOp} (hop : op.Allowed v.coins) :
    ∃ v', stackStep v op = .ok (v',(mapStep v.coins op).2) ∧ v'.WF ∧ v'.coins = (mapStep v.coins op).1 := by
  cases op with
  | addCoin x coin overwrite =>
    obtain ⟨v',hv,hwf,hc,-⟩ := CCoinsViewCache.addCoin_spec h hop.1 fun ho _ => hop.2 ho
    exact ⟨v',by simp [stackStep,hv,Except.map,mapStep],hwf,hc⟩
  | spendCoin x =>
    obtain ⟨hwf,hc,-⟩ := CCoinsViewCache.spendCoin_spec h x
    exact ⟨_,rfl,hwf,hc⟩
  | getCoin x =>
    refine ⟨(v.getCoin x).2,?_,CCoinsViewCache.fetchCoin_WF h x,CCoinsViewCache.fetchCoin_coins h x⟩
    rw [stackStep,CCoinsViewCache.getCoin_eq h]
    rfl
  | haveCoin x =>
    refine ⟨(v.haveCoin x).2,?_,CCoinsViewCache.fetchCoin_WF h x,CCoinsViewCache.fetchCoin_coins h x⟩
    rw [stackStep,CCoinsViewCache.haveCoin_eq h]
    rfl
  | accessCoin x =>
    refine ⟨(v.accessCoin x).2,?_,CCoinsViewCache.fetchCoin_WF h x,CCoinsViewCache.fetchCoin_coins h x⟩
    rw [stackStep,CCoinsViewCache.accessCoin_unspent h]
    rfl
  | uncache depth x =>
    obtain ⟨hwf,hc⟩ := CCoinsViewCache.uncacheAt_spec h x depth
    exact ⟨_,rfl,hwf,hc⟩
  | newLayer =>
    exact ⟨_,rfl,CCoinsViewCache.ofBase_WF h,CCoinsViewCache.ofBase_coins _⟩
  | flush =>
    obtain ⟨v',hv,hwf,hc⟩ := CCoinsViewCache.flush_spec h
    exact ⟨v',by simp [stackStep,hv,Except.map,mapStep],hwf,hc⟩
  | dropLayer =>
    obtain ⟨m,hash,base⟩ := v
    cases base with
    | map f hb => exact ⟨_,rfl,h,rfl⟩
    | cache m' hb b =>
      by_cases he : m.entries.isEmpty = true
      · obtain rfl : m = ∅ := AList.ext (by simpa using he)
        refine ⟨⟨m',hb,b⟩,rfl,h.1,?_⟩
        exact (CCoinsViewCache.ofBase_coins (.cache m' hb b)).symm
      · exact ⟨_,by simp only [stackStep,he]; rfl,h,rfl⟩

def stackRun (v : CCoinsViewCache) : List CoinsOp → Except Stop (CCoinsViewCache × List CoinsAnswer)
  | [] => .ok (v,[])
  | op::ops => (stackStep v op).bind fun r =>
    (stackRun r.1 ops).map fun s => (s.1,r.2::s.2)

def mapRun (m : COutPoint → Option Coin) : List CoinsOp → (COutPoint → Option Coin) × List CoinsAnswer
  | [] => (m,[])
  | op::ops =>
    let r := mapStep m op
    let s := mapRun r.1 ops
    (s.1,r.2::s.2)

def AllowedRun (m : COutPoint → Option Coin) : List CoinsOp → Prop
  | [] => True
  | op::ops => op.Allowed m ∧ AllowedRun (mapStep m op).1 ops

theorem stackRun_refines (ops : List CoinsOp) {v : CCoinsViewCache} (h : v.WF) (hops : AllowedRun v.coins ops) :
    ∃ v', stackRun v ops = .ok (v',(mapRun v.coins ops).2) ∧ v'.WF ∧ v'.coins = (mapRun v.coins ops).1 := by
  induction ops generalizing v with
  | nil => exact ⟨v,rfl,h,rfl⟩
  | cons op ops ih =>
    obtain ⟨w,hw,hwf,hc⟩ := stackStep_refines h hops.1
    obtain ⟨v',hv,hwf',hc'⟩ := ih hwf (hc ▸ hops.2)
    rw [hc] at hv hc'
    exact ⟨v',by simp [stackRun,hw,Except.bind,hv,Except.map,mapRun],hwf',hc'⟩

def emptyLayers (coins : COutPoint → Option Coin) (hashBlock : BlockHash) : Nat → CCoinsView
  | 0 => .map coins hashBlock
  | depth+1 => (CCoinsViewCache.ofBase (emptyLayers coins hashBlock depth)).toView

def emptyStack (coins : COutPoint → Option Coin) (hashBlock : BlockHash) (depth : Nat) : CCoinsViewCache :=
  CCoinsViewCache.ofBase (emptyLayers coins hashBlock depth)

theorem emptyLayers_spec (coins : COutPoint → Option Coin) (hashBlock : BlockHash) (depth : Nat) :
    (emptyLayers coins hashBlock depth).WF ∧
      (emptyLayers coins hashBlock depth).coins = fun x => (coins x).bind Coin.unspent := by
  induction depth with
  | zero => exact ⟨trivial,rfl⟩
  | succ depth ih =>
    exact ⟨CCoinsViewCache.ofBase_WF ih.1,(CCoinsViewCache.ofBase_coins _).trans ih.2⟩

/-- A stack of caches gives, operation by operation, the answers of one plain map. -/
theorem stack_refines_map (coins : COutPoint → Option Coin) (hashBlock : BlockHash) (depth : Nat)
    (ops : List CoinsOp) (hops : AllowedRun (fun x => (coins x).bind Coin.unspent) ops) :
    ∃ v, stackRun (emptyStack coins hashBlock depth) ops =
        .ok (v,(mapRun (fun x => (coins x).bind Coin.unspent) ops).2) ∧
      ∀ x, (v.getCoin x).1 = (mapRun (fun x => (coins x).bind Coin.unspent) ops).1 x ∧
        (v.haveCoin x).1 = ((mapRun (fun x => (coins x).bind Coin.unspent) ops).1 x).isSome := by
  obtain ⟨hwf,hc⟩ := emptyLayers_spec coins hashBlock depth
  have hstart : (emptyStack coins hashBlock depth).coins = fun x => (coins x).bind Coin.unspent :=
    (CCoinsViewCache.ofBase_coins _).trans hc
  rw [← hstart] at hops ⊢
  obtain ⟨v,hv,hvwf,hvc⟩ := stackRun_refines ops (CCoinsViewCache.ofBase_WF hwf) hops
  refine ⟨v,hv,fun x => ⟨?_,?_⟩⟩
  · rw [CCoinsViewCache.getCoin_eq hvwf,hvc]
    rfl
  · rw [CCoinsViewCache.haveCoin_eq hvwf,hvc]
    rfl

private def sampleCoin : Coin := Coin.ofOutput ⟨5000,[0x51],none⟩ 7 false

private def sampleOps (x : COutPoint) : List CoinsOp :=
  [.newLayer,.addCoin x sampleCoin false,.flush,.getCoin x,.uncache 1 x,.spendCoin x,.flush,
    .dropLayer,.haveCoin x,.addCoin x sampleCoin false,.addCoin x sampleCoin true,.accessCoin x]

theorem stack_refines_map_sample : ∃ v, stackRun (emptyStack (fun _ => none) 1 2) (sampleOps ⟨3,0⟩) =
        .ok (v,[.done,.done,.done,.coin (some sampleCoin),.done,.done,.done,.done,.have false,.done,
          .done,.coin (some sampleCoin)]) ∧
      ∀ x, (v.getCoin x).1 = (mapRun (fun _ => none) (sampleOps ⟨3,0⟩)).1 x ∧
        (v.haveCoin x).1 = ((mapRun (fun _ => none) (sampleOps ⟨3,0⟩)).1 x).isSome :=
  stack_refines_map (fun _ => none) 1 2 (sampleOps ⟨3,0⟩)
    ⟨trivial,⟨rfl,fun _ => rfl⟩,trivial,trivial,trivial,trivial,trivial,trivial,trivial,
      ⟨rfl,fun _ => rfl⟩,⟨rfl,nofun⟩,trivial,trivial⟩
end BitfiniteCore
