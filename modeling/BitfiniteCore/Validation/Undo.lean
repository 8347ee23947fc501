import BitfiniteCore.Validation.BlockSpec

/-! # Disconnecting a block -/

namespace BitfiniteCore
open Function List

inductive DisconnectResult where
  | ok
  | unclean
  | failed
deriving DecidableEq, Repr

/-- Undo data of height zero lacks its metadata, which is looked up at another output. -/
def undoCoinSpend (undo : Coin) (view : CCoinsViewCache) (out : COutPoint) :
    Except Stop (DisconnectResult × CCoinsViewCache) :=
  let found := view.haveCoin out
  let restore := fun (coin : Coin) (view : CCoinsViewCache) =>
    (view.addCoin out coin found.1).map fun view =>
      (if found.1 then DisconnectResult.unclean else DisconnectResult.ok,view)
  if undo.getHeight == 0 then
    let alternate := accessByTxid found.2 out.txid
    if alternate.1.isSpent then .ok (.failed,alternate.2)
    else restore (Coin.ofOutput undo.out alternate.1.getHeight alternate.1.isCoinBase) alternate.2
  else restore undo found.2

def undoInputs : List CTxIn → List Coin → CCoinsViewCache → Bool → Except Stop (Option Bool × CCoinsViewCache)
  | i::vin, undo::vprevout, view, fClean =>
    (undoCoinSpend undo view i.prevout).bind fun r =>
      match r.1 with
      | .failed => .ok (none,r.2)
      | .unclean => undoInputs vin vprevout r.2 false
      | .ok => undoInputs vin vprevout r.2 fClean
  | _, _, view, fClean => .ok (some fClean,view)

def undoTxs : List CTransaction → List CTxUndo → CCoinsViewCache → Bool → Except Stop (Option Bool × CCoinsViewCache)
  | tx::txs, txundo::undos, view, fClean =>
    if txundo.vprevout.length != tx.vin.length then .ok (none,view)
    else (undoInputs tx.vin txundo.vprevout view fClean).bind fun r =>
      match r.1 with
      | none => .ok (none,r.2)
      | some fClean => undoTxs txs undos r.2 fClean
  | _, _, view, fClean => .ok (some fClean,view)

def outputMatches (out : CTxOut) (nHeight : Nat) (isCoinbase : Bool) : Option Coin → Bool
  | none => false
  | some coin => out == coin.out && nHeight == coin.getHeight && isCoinbase == coin.isCoinBase

def revertOutputsFrom (txid : TxId) (isCoinbase : Bool) (nHeight : Nat) :
    Nat → List CTxOut → CCoinsViewCache → Bool → Bool × CCoinsViewCache
  | _, [], view, fClean => (fClean,view)
  | o, out::vout, view, fClean =>
    if out.scriptPubKey.isUnspendable then
      revertOutputsFrom txid isCoinbase nHeight (o+1) vout view fClean
    else
      let r := view.spendCoin ⟨txid,o⟩
      revertOutputsFrom txid isCoinbase nHeight (o+1) vout r.2
        (fClean && outputMatches out nHeight isCoinbase r.1)

def revertTxs (nHeight : Nat) : List CTransaction → CCoinsViewCache → Bool → Bool × CCoinsViewCache
  | [], view, fClean => (fClean,view)
  | tx::txs, view, fClean =>
    let r := revertOutputsFrom tx.getId tx.isCoinBase nHeight 0 tx.vout view fClean
    revertTxs nHeight txs r.2 r.1

def applyBlockUndo (blockUndo : CBlockUndo) (block : CBlock) (nHeight : Nat) (view : CCoinsViewCache) :
    Except Stop (DisconnectResult × CCoinsViewCache) :=
  if blockUndo.vtxundo.length+1 != block.vtx.length then .ok (.failed,view)
  else (undoTxs block.vtx.tail blockUndo.vtxundo view true).bind fun r =>
    match r.1 with
    | none => .ok (.failed,r.2)
    | some fClean =>
      let s := revertTxs nHeight block.vtx r.2 fClean
      .ok (if s.1 then .ok else .unclean,s.2.setBestBlock block.hashPrevBlock)

section Spec

/-- Undo data with its metadata, of a coin that a view can hold. -/
structure Restorable (undo : Coin) : Prop where
  height : undo.getHeight ≠ 0
  unspent : undo.isSpent = false
  spendable : undo.out.scriptPubKey.isUnspendable = false

variable {frame : ViewFrame} {S : COutPoint → Prop} {v : CCoinsViewCache} {m : CoinMap}

theorem undoCoinSpend_spec {undo : Coin} (h : ViewRel frame S v m) (hu : Restorable undo) (x : COutPoint) :
    ∃ v', undoCoinSpend undo v x = .ok (if (m x).isSome then .unclean else .ok,v') ∧
      ViewRel frame S v' (update m x (some undo)) := by
  have hfound : (v.haveCoin x).1 = (m x).isSome := by rw [CCoinsViewCache.haveCoin_eq h.wf,h.coins]
  have hr : ViewRel frame S (v.haveCoin x).2 m := h.fetchCoin x
  have hflat : m.addCoin x undo (m x).isSome = .ok (update m x (some undo)) := by
    unfold CoinMap.addCoin
    rw [if_neg (by simp [hu.unspent]),if_neg (by simp [hu.spendable]),if_neg (by simp)]
  obtain ⟨v',hv',hrel⟩ := (addCoin_simulates (x := x) hr undo (m x).isSome fun hnone =>
    .inl (by rw [hr.coins]; simpa using hnone)).ok_right hflat
  refine ⟨v',?_,hrel⟩
  unfold undoCoinSpend
  dsimp only
  rw [if_neg (by simpa using hu.height),hfound,hv']
  rfl

/-- The coins that undo data puts back. -/
def restoredOf (tx : CTransaction) (txundo : CTxUndo) : List (COutPoint × Coin) :=
  (tx.vin.map CTxIn.prevout).zip txundo.vprevout

def restored (txs : List CTransaction) (undos : List CTxUndo) : List (COutPoint × Coin) :=
  (List.zipWith restoredOf txs undos).flatten

theorem undoInputs_spec (vin : List CTxIn) (vprevout : List Coin) (fClean : Bool) (h : ViewRel frame S v m)
    (hlen : vprevout.length = vin.length) (hu : ∀ undo ∈ vprevout, Restorable undo) :
    ∃ v' b, undoInputs vin vprevout v fClean = .ok (some b,v') ∧
      ViewRel frame S v' (m.insertAll ((vin.map CTxIn.prevout).zip vprevout)) ∧
      ((vin.map CTxIn.prevout).Nodup → (∀ i ∈ vin, m i.prevout = none) → b = fClean) := by
  induction vin generalizing vprevout v m fClean with
  | nil =>
    exact ⟨v,fClean,rfl,h,fun _ _ => rfl⟩
  | cons i vin ih =>
    cases vprevout with
    | nil => cases hlen
    | cons undo vprevout =>
      obtain ⟨hundo,hrest⟩ := forall_mem_cons.mp hu
      obtain ⟨w,hw,hrel⟩ := undoCoinSpend_spec h hundo i.prevout
      obtain ⟨v',b,hv',hrel',hclean⟩ := ih vprevout (fClean && (m i.prevout).isNone) hrel
        (by simpa using hlen) hrest
      refine ⟨v',b,?_,hrel',fun hnd hnone => ?_⟩
      · rw [undoInputs,hw]
        cases hm : m i.prevout with
        | none =>
          rw [hm] at hv'
          simpa [Except.bind] using hv'
        | some c =>
          rw [hm] at hv'
          simpa [Except.bind] using hv'
      · obtain ⟨hnot,hnd'⟩ := nodup_cons.mp hnd
        obtain ⟨hi,hvin⟩ := forall_mem_cons.mp hnone
        rw [hclean hnd' fun j hj => ?_,hi]
        · simp
        · rw [update_of_ne fun he : j.prevout = i.prevout => hnot (he ▸ mem_map_of_mem hj)]
          exact hvin j hj

def UndoFits (txs : List CTransaction) (undos : List CTxUndo) : Prop :=
  List.Forall₂ (fun tx txundo => txundo.vprevout.length = tx.vin.length ∧
    ∀ undo ∈ txundo.vprevout, Restorable undo) txs undos

theorem undoTxs_spec {txs : List CTransaction} {undos : List CTxUndo} (fClean : Bool)
    (hfit : UndoFits txs undos) (h : ViewRel frame S v m) :
    ∃ v' b, undoTxs txs undos v fClean = .ok (some b,v') ∧ ViewRel frame S v' (m.insertAll (restored txs undos)) ∧
      ((txs.flatMap fun tx => tx.vin.map CTxIn.prevout).Nodup →
        (∀ tx ∈ txs, ∀ i ∈ tx.vin, m i.prevout = none) → b = fClean) := by
  induction hfit generalizing v m fClean with
  | nil => exact ⟨v,fClean,rfl,h,fun _ _ => rfl⟩
  | @cons tx txundo txs undos hd _ ih =>
    obtain ⟨w,b,hw,hrel,hclean⟩ := undoInputs_spec tx.vin txundo.vprevout fClean h hd.1 hd.2
    obtain ⟨v',b',hv',hrel',hclean'⟩ := ih b hrel
    have hflat : restored (tx::txs) (txundo::undos) =
        (tx.vin.map CTxIn.prevout).zip txundo.vprevout++restored txs undos := rfl
    refine ⟨v',b',?_,?_,fun hnd hnone => ?_⟩
    · rw [undoTxs,if_neg (by simp [hd.1]),hw]
      exact hv'
    · rw [hflat,CoinMap.insertAll_append]
      exact hrel'
    · rw [flatMap_cons,nodup_append] at hnd
      obtain ⟨hndtx,hndtxs,hdisj⟩ := hnd
      obtain ⟨htx,htxs⟩ := forall_mem_cons.mp hnone
      rw [hclean' hndtxs fun t ht i hi => ?_,hclean hndtx htx]
      rw [CoinMap.insertAll_of_notMem]
      · exact htxs t ht i hi
      · intro hmem
        obtain ⟨⟨y,c⟩,hy,hyi⟩ := mem_map.mp hmem
        have hy' := (of_mem_zip hy).1
        refine hdisj y hy' i.prevout (mem_flatMap.mpr ⟨t,ht,mem_map_of_mem hi⟩) hyi

theorem revertOutputsFrom_spec (txid : TxId) (cb : Bool) (nHeight : Nat) (i : Nat) (vout : List CTxOut)
    (fClean : Bool) (h : ViewRel frame S v m) :
    ViewRel frame S (revertOutputsFrom txid cb nHeight i vout v fClean).2
      (m.remove ((createdFrom txid cb nHeight i vout).map Prod.fst)) ∧
    (nHeight < 2^31 → (∀ p ∈ createdFrom txid cb nHeight i vout, m p.1 = some p.2) →
      (revertOutputsFrom txid cb nHeight i vout v fClean).1 = fClean) := by
  induction vout generalizing i v m fClean with
  | nil => exact ⟨by simpa [revertOutputsFrom,createdFrom,CoinMap.remove_nil] using h,fun _ _ => rfl⟩
  | cons out vout ih =>
    rw [revertOutputsFrom,createdFrom]
    split
    · exact ih (i+1) fClean h
    · obtain ⟨hrel,hclean⟩ := ih (i+1)
        (fClean && outputMatches out nHeight cb (v.spendCoin ⟨txid,i⟩).1) (h.spendCoin ⟨txid,i⟩)
      refine ⟨?_,fun hlt hall => ?_⟩
      · rw [map_cons,CoinMap.remove_cons]
        exact hrel
      · obtain ⟨hhead,hrest⟩ := forall_mem_cons.mp hall
        have hspend := CCoinsViewCache.spendCoin_some h.wf (x := ⟨txid,i⟩) (by rw [h.coins]; exact hhead)
        have hmatch : outputMatches out nHeight cb (v.spendCoin ⟨txid,i⟩).1 = true := by
          rw [hspend]
          have hh := Coin.getHeight_ofOutput out hlt cb
          have hc := Coin.isCoinBase_ofOutput out nHeight cb
          simp only [outputMatches,hh,hc,beq_self_eq_true,Bool.and_true]
          exact beq_self_eq_true out
        rw [hclean hlt fun p hp => ?_,hmatch,Bool.and_true]
        obtain ⟨n,o,-,hx,-,-⟩ := createdFrom_mem hp
        rw [update_of_ne,hrest p hp]
        intro he
        have hn := congrArg COutPoint.n (hx.symm.trans he)
        simp only at hn
        omega

theorem revertTxs_spec (nHeight : Nat) (txs : List CTransaction) (fClean : Bool) (h : ViewRel frame S v m) :
    ViewRel frame S (revertTxs nHeight txs v fClean).2 (m.remove ((blockCreated nHeight txs).map Prod.fst)) ∧
    (nHeight < 2^31 → ((blockCreated nHeight txs).map Prod.fst).Nodup →
      (∀ p ∈ blockCreated nHeight txs, m p.1 = some p.2) → (revertTxs nHeight txs v fClean).1 = fClean) := by
  induction txs generalizing v m fClean with
  | nil => exact ⟨by simpa [revertTxs,blockCreated,CoinMap.remove_nil] using h,fun _ _ _ => rfl⟩
  | cons tx txs ih =>
    obtain ⟨hrel,hclean⟩ := revertOutputsFrom_spec tx.getId tx.isCoinBase nHeight 0 tx.vout fClean h
    obtain ⟨hrel',hclean'⟩ :=
      ih (revertOutputsFrom tx.getId tx.isCoinBase nHeight 0 tx.vout v fClean).1 hrel
    rw [revertTxs,blockCreated_cons,map_append,← CoinMap.remove_remove]
    refine ⟨hrel',fun hlt hnd hall => ?_⟩
    obtain ⟨-,hndtxs,hdisj⟩ := nodup_append.mp hnd
    rw [hclean' hlt hndtxs fun p hp => ?_,hclean hlt fun p hp => hall p (mem_append_left _ hp)]
    have hnot : p.1 ∉ (createdFrom tx.getId tx.isCoinBase nHeight 0 tx.vout).map Prod.fst :=
      fun hmem => hdisj p.1 hmem p.1 (mem_map_of_mem hp) rfl
    rw [CoinMap.remove,if_neg hnot]
    exact hall p (mem_append_right _ hp)

theorem applyBlockUndo_spec {block : CBlock} {cb : CTransaction} {txs : List CTransaction}
    {undo : CBlockUndo} (nHeight : Nat) (hvtx : block.vtx = cb::txs) (hfit : UndoFits txs undo.vtxundo)
    (h : ViewRel frame S v m) :
    ∃ res v', applyBlockUndo undo block nHeight v = .ok (res,v') ∧ res ≠ .failed ∧
      ViewRel (block.hashPrevBlock,frame.2) S v'
        ((m.insertAll (restored txs undo.vtxundo)).remove ((blockCreated nHeight (cb::txs)).map Prod.fst)) ∧
      (nHeight < 2^31 → (txs.flatMap fun tx => tx.vin.map CTxIn.prevout).Nodup →
        (∀ tx ∈ txs, ∀ i ∈ tx.vin, m i.prevout = none) →
        ((blockCreated nHeight (cb::txs)).map Prod.fst).Nodup →
        (∀ p ∈ blockCreated nHeight (cb::txs), m.insertAll (restored txs undo.vtxundo) p.1 = some p.2) →
        res = .ok) := by
  obtain ⟨w,b,hw,hrel,hclean⟩ := undoTxs_spec true hfit h
  obtain ⟨hrel',hclean'⟩ := revertTxs_spec nHeight (cb::txs) b hrel
  refine ⟨if (revertTxs nHeight (cb::txs) w b).1 then .ok else .unclean,
    (revertTxs nHeight (cb::txs) w b).2.setBestBlock block.hashPrevBlock,?_,?_,
    ⟨hrel'.wf,hrel'.coins,?_,hrel'.cached⟩,fun hlt hnd hnone hkeys hall => ?_⟩
  · unfold applyBlockUndo
    rw [if_neg (by simp [hvtx,hfit.length_eq]),hvtx,tail_cons,hw]
    rfl
  · split <;> simp
  · exact congrArg (Prod.mk block.hashPrevBlock) (congrArg Prod.snd hrel'.frame)
  · rw [hclean' hlt hkeys hall,hclean hnd hnone]
    rfl
end Spec

section Inverse

variable {ctx : BlockContext} {block : CBlock} {cb : CTransaction} {txs : List CTransaction}
  {fees : List Int} {m m' : CoinMap} {undo : CBlockUndo}

theorem CoinMap.insertAll_eq_of {w : CoinMap} (ps : List (COutPoint × Coin)) (hps : ∀ p ∈ ps, w p.1 = some p.2)
    (hm : ∀ x, x ∉ ps.map Prod.fst → m x = w x) : m.insertAll ps = w := by
  induction ps generalizing m with
  | nil => exact funext fun x => hm x (by simp)
  | cons p ps ih =>
    obtain ⟨hp,hrest⟩ := forall_mem_cons.mp hps
    refine ih hrest fun x hx => ?_
    by_cases hxp : x = p.1
    · subst hxp
      rw [update_self,hp]
    · rw [update_of_ne hxp]
      exact hm x (by simp [hxp,hx])

section

variable (h : Connects ctx block cb txs fees m m' undo)

include h

theorem Connects.vtxundo :
    undo.vtxundo = txs.map (m.withBlock ctx.nHeight (cb::txs)).undoOf := by
  have hfilter : (cb::txs).filter (fun tx => !tx.isCoinBase) = txs := by
    rw [filter_cons_of_neg (by simp [h.coinbase.coinBase])]
    exact filter_eq_self.mpr fun tx htx => by simp [h.notCoinBase tx htx]
  rw [h.undo,CoinMap.undosOf,hfilter]

theorem Connects.blockSpent_eq :
    blockSpent (cb::txs) = txs.flatMap fun tx => tx.vin.map CTxIn.prevout := by
  change cb.spent++blockSpent txs = _
  rw [show cb.spent = [] by rw [CTransaction.spent,if_pos h.coinbase.coinBase],nil_append]
  apply flatMap_congr
  intro tx htx
  rw [CTransaction.spent,if_neg (by simp [h.notCoinBase tx htx])]

theorem Connects.spends_some {tx : CTransaction}
    (htx : tx ∈ txs) {i : CTxIn} (hi : i ∈ tx.vin) :
    m.withBlock ctx.nHeight (cb::txs) i.prevout = some ((m.withBlock ctx.nHeight (cb::txs)).access i.prevout) := by
  obtain ⟨fee,hacc⟩ := accepts_of_mem h.accepts (mem_cons_of_mem cb htx)
  have hx : i.prevout ∈ tx.spent := by
    rw [CTransaction.spent,if_neg (by simp [h.notCoinBase tx htx])]
    exact mem_map_of_mem hi
  obtain ⟨c,hc⟩ := Option.isSome_iff_exists.mp (hacc.have _ hx)
  rw [CoinMap.access,hc]
  rfl

omit h in
theorem restored_map (w : CoinMap) (txs : List CTransaction) : restored txs (txs.map w.undoOf) =
      txs.flatMap fun tx => tx.vin.map fun i => (i.prevout,w.access i.prevout) := by
  rw [restored,zipWith_map_right,zipWith_self,flatMap_def]
  congr 1
  apply map_congr_left
  intro tx _
  rw [restoredOf,CoinMap.undoOf,zip_map']

theorem Connects.insertAll_restored :
    m'.insertAll (restored txs undo.vtxundo) = m.withBlock ctx.nHeight (cb::txs) := by
  rw [h.vtxundo,restored_map]
  apply CoinMap.insertAll_eq_of
  · intro p hp
    obtain ⟨tx,htx,hp⟩ := mem_flatMap.mp hp
    obtain ⟨i,hi,rfl⟩ := mem_map.mp hp
    exact h.spends_some htx hi
  · intro x hx
    rw [h.coins,CoinMap.remove,if_neg]
    rw [h.blockSpent_eq]
    intro hmem
    apply hx
    obtain ⟨tx,htx,hxtx⟩ := mem_flatMap.mp hmem
    obtain ⟨i,hi,rfl⟩ := mem_map.mp hxtx
    exact mem_map.mpr ⟨_,mem_flatMap.mpr ⟨tx,htx,mem_map_of_mem hi⟩,rfl⟩

theorem Connects.remove_created :
    (m.withBlock ctx.nHeight (cb::txs)).remove ((blockCreated ctx.nHeight (cb::txs)).map Prod.fst) = m := by
  funext x
  unfold CoinMap.remove
  split
  · rename_i hx
    exact (h.created_none x hx).symm
  · rename_i hx
    exact CoinMap.insertAll_of_notMem hx m
end

/-- Coins as an accepted block leaves them: created after genesis, with a spendable script. -/
def CoinMap.Restorable (m : CoinMap) : Prop :=
  ∀ x c, m x = some c → c.getHeight ≠ 0 ∧ c.out.scriptPubKey.isUnspendable = false

theorem CoinMap.withBlock_restorable {nHeight : Nat} (vtx : List CTransaction) (hm : m.Restorable)
    (hpos : 0 < nHeight) (hlt : nHeight < 2^31) : (m.withBlock nHeight vtx).Restorable := by
  intro x c hx
  rcases CoinMap.insertAll_cases hx with hmem | ⟨-,hmx⟩
  · obtain ⟨tx,htx,hc⟩ := mem_flatMap.mp hmem
    obtain ⟨n,o,-,-,rfl,hu⟩ := createdFrom_mem hc
    exact ⟨by rw [Coin.getHeight_ofOutput o hlt]; omega,hu⟩
  · exact hm x c hmx

theorem Connects.undoFits (h : Connects ctx block cb txs fees m m' undo) (hm : m.Restorable)
    (hpos : 0 < ctx.nHeight) (hlt : ctx.nHeight < 2^31) : UndoFits txs undo.vtxundo := by
  have hw := CoinMap.withBlock_restorable (cb::txs) hm hpos hlt
  rw [h.vtxundo,UndoFits,forall₂_map_right_iff,forall₂_same]
  refine fun tx htx => ⟨by simp [CoinMap.undoOf],fun c hc => ?_⟩
  obtain ⟨i,hi,rfl⟩ := mem_map.mp hc
  obtain ⟨h1,h2⟩ := hw _ _ (h.spends_some htx hi)
  refine ⟨h1,?_,h2⟩
  obtain ⟨fee,hacc⟩ := accepts_of_mem h.accepts (mem_cons_of_mem cb htx)
  have hfee := hacc.1
  rw [txFee,if_neg (by simp [h.notCoinBase tx htx])] at hfee
  exact ((checkTxInputs_ok hfee).1 i hi).1

theorem Connects.applyBlockUndo_eq (h : Connects ctx block cb txs fees m m' undo) (hm : m.Restorable)
    (hpos : 0 < ctx.nHeight) (hlt : ctx.nHeight < 2^31) {frame : ViewFrame}
    {S : COutPoint → Prop} {v : CCoinsViewCache} (hv : ViewRel frame S v m') :
    ∃ v', applyBlockUndo undo block ctx.nHeight v = .ok (.ok,v') ∧ ViewRel (block.hashPrevBlock,frame.2) S v' m := by
  obtain ⟨res,v',hv',-,hrel,hclean⟩ := applyBlockUndo_spec _ h.vtx (h.undoFits hm hpos hlt) hv
  have hspent := h.spent
  rw [h.blockSpent_eq] at hspent
  rw [h.insertAll_restored] at hrel hclean
  rw [h.remove_created] at hrel
  have hnone : ∀ tx ∈ txs, ∀ i ∈ tx.vin, m' i.prevout = none := by
    intro tx htx i hi
    rw [h.coins,CoinMap.remove,if_pos]
    rw [h.blockSpent_eq]
    exact mem_flatMap.mpr ⟨tx,htx,mem_map_of_mem hi⟩
  rw [hclean hlt hspent hnone h.keys fun p hp => CoinMap.insertAll_of_mem h.keys hp m] at hv'
  exact ⟨v',hv',hrel⟩
end Inverse
end BitfiniteCore
