import BitfiniteCore.Validation.BlockCoins
import BitfiniteCore.Coins.Stack
import BitfiniteCore.Lib.TopologicalOrder

/-! # Outputs then inputs is sequential processing -/

namespace BitfiniteCore
open Function TopologicalOrder List

def connectSequential (check : TxCheck) (nHeight : Nat) : List CTransaction → CCoinsViewCache → Int →
    Except Stop (CCoinsViewCache × Int × List CTxUndo)
  | [], view, nFees => .ok (view,nFees,[])
  | tx::txs, view, nFees =>
    let accessCoin := fun outpoint => (view.accessCoin outpoint).1
    (txFee tx accessCoin nHeight).bind fun txfee =>
      (addFee nFees txfee).bind fun nFees =>
        (check.run tx accessCoin).bind fun _ =>
          (updateCoins view tx nHeight).bind fun r =>
            (connectSequential check nHeight txs r.1 nFees).map fun s =>
              (s.1,s.2.1,if tx.isCoinBase then s.2.2 else r.2::s.2.2)

def CoinMap.connectSequential (check : TxCheck) (nHeight : Nat) : List CTransaction → CoinMap → Int →
    Except Stop (CoinMap × Int × List CTxUndo)
  | [], m, nFees => .ok (m,nFees,[])
  | tx::txs, m, nFees =>
    (txFee tx m.access nHeight).bind fun txfee =>
      (addFee nFees txfee).bind fun nFees =>
        (check.run tx m.access).bind fun _ =>
          ((m.remove tx.spent).addCoins tx nHeight false).bind fun m' =>
            (CoinMap.connectSequential check nHeight txs m' nFees).map fun s =>
              (s.1,s.2.1,m.undosOf [tx]++s.2.2)

/-- `b` spends an output of `a`. -/
def SpendsFrom (a b : CTransaction) : Prop := ∃ x ∈ b.spent, x.txid = a.getId

section Simulation

variable {frame : ViewFrame} {S : COutPoint → Prop}

theorem connectSequential_simulates (check : TxCheck) (nHeight : Nat) (txs : List CTransaction)
    (nFees : Int) {v : CCoinsViewCache} {m : CoinMap} (h : ViewRel frame S v m)
    (hS : ∀ tx ∈ txs, ∀ x ∈ tx.outpoints, S x) (hnd : ∀ tx ∈ txs, tx.spent.Nodup) :
    ExceptRel (ResultRel frame S) (connectSequential check nHeight txs v nFees)
      (CoinMap.connectSequential check nHeight txs m nFees) := by
  induction txs generalizing v m nFees with
  | nil => exact ⟨h,rfl⟩
  | cons tx txs ih =>
    obtain ⟨htx,htxs⟩ := forall_mem_cons.mp hnd
    obtain ⟨hStx,hStxs⟩ := forall_mem_cons.mp hS
    unfold connectSequential CoinMap.connectSequential
    dsimp only
    rw [txFee_agrees tx nHeight h]
    cases hfee : txFee tx m.access nHeight with
    | error e => exact rfl
    | ok fee =>
      dsimp only [Except.bind]
      cases addFee nFees fee with
      | error e => exact rfl
      | ok nFees =>
        rw [check_agrees check h hfee]
        cases check.run tx m.access with
        | error e => exact rfl
        | ok _ =>
          have hspend : ∃ v', spendCoins v tx = .ok (v',if tx.isCoinBase then ⟨[]⟩ else m.undoOf tx) ∧
              ViewRel frame S v' (m.remove tx.spent) := by
            unfold spendCoins
            cases hcb : tx.isCoinBase with
            | true =>
              refine ⟨v,rfl,?_⟩
              rw [CTransaction.spent,if_pos hcb,CoinMap.remove_nil]
              exact h
            | false =>
              have hspent : tx.spent = tx.vin.map CTxIn.prevout := by
                rw [CTransaction.spent,if_neg (by simp [hcb])]
              obtain ⟨v',hv',hrel⟩ := spendCoinsFrom_spec tx.vin h (hspent ▸ htx) (txFee_have hcb hfee)
              refine ⟨v',by simp [hv',Except.map,CoinMap.undoOf],?_⟩
              rw [hspent,← CoinMap.spend_eq_remove]
              exact hrel
          obtain ⟨v',hv',hrel⟩ := hspend
          have hadd := addCoins_simulates tx nHeight false hrel fun _ => hStx
          unfold updateCoins
          rw [hv']
          dsimp only [Except.bind]
          cases hav : addCoins v' tx nHeight false with
          | error e =>
            have herr := (hadd.error_iff e).mp hav
            rw [herr]
            exact rfl
          | ok v2 =>
            obtain ⟨m2,hm2,hrel2⟩ := hadd.ok_left hav
            rw [hm2]
            apply ExceptRel.map (R := ResultRel frame S) (ih nFees hrel2 hStxs htxs)
            rintro a b ⟨h1,h2⟩
            refine ⟨h1,?_⟩
            rw [h2]
            cases hcb : tx.isCoinBase <;> simp [CoinMap.undosOf,hcb]
end Simulation

section Order

variable {check : TxCheck} {nHeight : Nat}

/-- No transaction spends what it or a later one creates. -/
def SpendsEarlier (nHeight : Nat) : List CTransaction → Prop
  | [] => True
  | tx::txs => (∀ x ∈ tx.spent, x ∉ (blockCreated nHeight (tx::txs)).map Prod.fst) ∧ SpendsEarlier nHeight txs

private theorem remove_insertAll {m : CoinMap} {xs : List COutPoint} {ps : List (COutPoint × Coin)}
    (h : ∀ x ∈ xs, x ∉ ps.map Prod.fst) : (m.remove xs).insertAll ps = (m.insertAll ps).remove xs := by
  induction ps generalizing m with
  | nil => rfl
  | cons p ps ih =>
    have hp : p.1 ∉ xs := fun hx => h p.1 hx (by simp)
    have hrest : ∀ x ∈ xs, x ∉ ps.map Prod.fst := fun x hx hx' => h x hx (mem_cons_of_mem _ hx')
    have hup : update (m.remove xs) p.1 (some p.2) = CoinMap.remove (update m p.1 (some p.2)) xs := by
      funext x
      by_cases hx : x = p.1
      · subst hx
        simp [CoinMap.remove,hp]
      · simp [CoinMap.remove,hx]
    rw [CoinMap.insertAll,CoinMap.insertAll,hup]
    exact ih hrest

theorem CoinMap.connectSequential_eq (txs : List CTransaction) {m : CoinMap} {n : Int}
    (hnull : ∀ tx ∈ txs, ∀ o ∈ tx.vout, o.isNull = false) (hkeys : ((blockCreated nHeight txs).map Prod.fst).Nodup)
    (hnone : ∀ x ∈ (blockCreated nHeight txs).map Prod.fst, m x = none)
    (hord : SpendsEarlier nHeight txs) (r : CoinMap × Int × List CTxUndo) :
    CoinMap.connectSequential check nHeight txs m n = .ok r ↔
      CoinMap.connectTxs check nHeight txs (m.insertAll (blockCreated nHeight txs)) n = .ok r := by
  induction txs generalizing m n r with
  | nil => rfl
  | cons tx txs ih =>
    obtain ⟨hnulltx,hnulltxs⟩ := forall_mem_cons.mp hnull
    obtain ⟨hspent,hordtxs⟩ := hord
    have hkeys' := hkeys
    rw [blockCreated_cons,map_append,nodup_append] at hkeys'
    obtain ⟨-,hkeystxs,hdisj⟩ := hkeys'
    have hsame : ∀ x ∈ tx.spent, m x = m.insertAll (blockCreated nHeight (tx::txs)) x :=
      fun x hx => (CoinMap.insertAll_of_notMem (hspent x hx) m).symm
    have hundo : m.undosOf [tx] = (m.insertAll (blockCreated nHeight (tx::txs))).undosOf [tx] := by
      apply map_congr_left
      intro t ht
      obtain ⟨hmem,hcb⟩ := mem_filter.mp ht
      obtain rfl := mem_singleton.mp hmem
      unfold CoinMap.undoOf
      congr 1
      apply map_congr_left
      intro i hi
      rw [CoinMap.access,CoinMap.access,hsame]
      rw [CTransaction.spent,if_neg (by simpa using hcb)]
      exact mem_map_of_mem hi
    have hadd : (m.remove tx.spent).addCoins tx nHeight false =
        .ok ((m.remove tx.spent).insertAll (tx.created nHeight)) := by
      refine (CoinMap.addCoins_iff tx nHeight _ _).mpr ⟨hnulltx,fun _ x hx => ?_,rfl⟩
      have hm := hnone x (by rw [blockCreated_cons,map_append]; exact mem_append_left _ hx)
      simp [CoinMap.remove,hm]
    have hmap : ((m.remove tx.spent).insertAll (tx.created nHeight)).insertAll (blockCreated nHeight txs) =
        (m.insertAll (blockCreated nHeight (tx::txs))).remove tx.spent := by
      rw [← CoinMap.insertAll_append,← blockCreated_cons,remove_insertAll hspent]
    have hnone' : ∀ x ∈ (blockCreated nHeight txs).map Prod.fst,
        (m.remove tx.spent).insertAll (tx.created nHeight) x = none := by
      intro x hx
      have hm := hnone x (by rw [blockCreated_cons,map_append]; exact mem_append_right _ hx)
      rw [CoinMap.insertAll_of_notMem fun hx' => hdisj x hx' x hx rfl]
      simp [CoinMap.remove,hm]
    rw [CoinMap.connectTxs_cons,← hundo,← hmap]
    constructor
    · intro h
      obtain ⟨fee,h1,h⟩ := except_bind_ok.mp h
      obtain ⟨n1,h2,h⟩ := except_bind_ok.mp h
      obtain ⟨⟨⟩,h3,h⟩ := except_bind_ok.mp h
      rw [hadd] at h
      dsimp only [Except.bind] at h
      cases hrest : CoinMap.connectSequential check nHeight txs
        ((m.remove tx.spent).insertAll (tx.created nHeight)) n1 with
      | error e =>
        rw [hrest] at h
        cases h
      | ok s =>
        rw [hrest] at h
        cases h
        exact ⟨fee,n1,s.2.2,(TxAccepts.congr hsame).mp ⟨h1,h3⟩,h2,
          (ih hnulltxs hkeystxs hnone' hordtxs s).mp hrest,rfl⟩
    · rintro ⟨fee,n1,us,hacc,h2,hrest,hus⟩
      obtain ⟨h1,h3⟩ := (TxAccepts.congr hsame).mpr hacc
      unfold CoinMap.connectSequential
      rw [h1,Except.bind,h2,Except.bind,h3,Except.bind,hadd,Except.bind,
        (ih hnulltxs hkeystxs hnone' hordtxs _).mpr hrest]
      simp only [Except.map]
      rw [← hus]

theorem CoinMap.connectSequential_notNull (txs : List CTransaction) {m : CoinMap} {n : Int}
    {r : CoinMap × Int × List CTxUndo} (h : CoinMap.connectSequential check nHeight txs m n = .ok r) :
    ∀ tx ∈ txs, ∀ o ∈ tx.vout, o.isNull = false := by
  induction txs generalizing m n r with
  | nil => simp
  | cons tx txs ih =>
    obtain ⟨fee,-,h⟩ := except_bind_ok.mp h
    obtain ⟨n1,-,h⟩ := except_bind_ok.mp h
    obtain ⟨⟨⟩,-,h⟩ := except_bind_ok.mp h
    obtain ⟨m1,hadd,h⟩ := except_bind_ok.mp h
    cases hrest : CoinMap.connectSequential check nHeight txs m1 n1 with
    | error e =>
      rw [hrest] at h
      cases h
    | ok s =>
      exact forall_mem_cons.mpr ⟨((CoinMap.addCoins_iff tx nHeight _ _).mp hadd).1,ih hrest⟩

theorem spendsEarlier_of_topological (txs : List CTransaction) (hself : ∀ tx ∈ txs, ¬SpendsFrom tx tx)
    (h : Topological SpendsFrom txs) : SpendsEarlier nHeight txs := by
  induction txs with
  | nil => trivial
  | cons tx txs ih =>
    obtain ⟨htx,htxs⟩ := forall_mem_cons.mp hself
    obtain ⟨hlater,hrest⟩ := pairwise_cons.mp h
    refine ⟨fun x hx hkey => ?_,ih htxs hrest⟩
    obtain ⟨⟨y,c⟩,hmem,rfl⟩ := mem_map.mp hkey
    obtain ⟨t,ht,hc⟩ := mem_flatMap.mp hmem
    have htxid := created_txid (mem_map_of_mem (f := Prod.fst) hc)
    rcases mem_cons.mp ht with rfl | ht
    · exact htx ⟨y,hx,htxid⟩
    · exact hlater t ht ⟨y,hx,htxid⟩

theorem blockCreated_nodup (nHeight : Nat) (txs : List CTransaction) (h : (txs.map CTransaction.getId).Nodup) :
    ((blockCreated nHeight txs).map Prod.fst).Nodup := by
  induction txs with
  | nil => simp [blockCreated]
  | cons tx txs ih =>
    obtain ⟨htx,htxs⟩ := nodup_cons.mp h
    rw [blockCreated_cons,map_append,nodup_append]
    refine ⟨created_nodup nHeight tx,ih htxs,?_⟩
    rintro x hx y hy rfl
    obtain ⟨⟨z,c⟩,hmem,rfl⟩ := mem_map.mp hy
    obtain ⟨t,ht,hc⟩ := mem_flatMap.mp hmem
    have h1 := created_txid hx
    have h2 := created_txid (mem_map_of_mem (f := Prod.fst) hc)
    exact htx (mem_map.mpr ⟨t,ht,h2.symm.trans h1⟩)

private theorem forall₂_perm {R : CTransaction → Int → Prop} {l l' : List CTransaction} {fs : List Int}
    (hp : l.Perm l') (h : List.Forall₂ R l fs) : ∃ fs', fs'.Perm fs ∧ List.Forall₂ R l' fs' := by
  induction hp generalizing fs with
  | nil => exact ⟨fs,List.Perm.refl _,h⟩
  | cons a _ ih =>
    cases h with
    | cons hd htl =>
      obtain ⟨fs',hfs,hall⟩ := ih htl
      exact ⟨_::fs',hfs.cons _,.cons hd hall⟩
  | swap a b l =>
    cases h with
    | cons hd htl =>
      cases htl with
      | cons hd' htl => exact ⟨_,List.Perm.swap _ _ _,.cons hd' (.cons hd htl)⟩
  | trans _ _ ih1 ih2 =>
    obtain ⟨fs1,hfs1,hall1⟩ := ih1 h
    obtain ⟨fs2,hfs2,hall2⟩ := ih2 hall1
    exact ⟨fs2,hfs2.trans hfs1,hall2⟩

theorem CoinMap.connectTxs_perm {txs txs' : List CTransaction} (hp : txs.Perm txs')
    (hnd : ∀ tx ∈ txs, tx.spent.Nodup) {m m' : CoinMap} {f : Int} {us : List CTxUndo}
    (h : CoinMap.connectTxs check nHeight txs m 0 = .ok (m',f,us)) :
    ∃ us', CoinMap.connectTxs check nHeight txs' m 0 = .ok (m',f,us') := by
  obtain ⟨fees,hall,hspent,hmax,rfl,rfl,-⟩ := (CoinMap.connectTxs_iff txs hnd moneyRange_zero).mp h
  obtain ⟨fees',hfees,hall'⟩ := forall₂_perm hp hall
  have hps : (blockSpent txs).Perm (blockSpent txs') := hp.flatMap_right _
  refine ⟨m.undosOf txs',(CoinMap.connectTxs_iff txs' (fun tx htx => hnd tx (hp.mem_iff.mpr htx))
    moneyRange_zero).mpr ⟨fees',hall',hps.nodup_iff.mp hspent,?_,?_,?_,rfl⟩⟩
  · rw [hfees.sum_eq]
    exact hmax
  · funext x
    simp only [CoinMap.remove,hps.mem_iff]
  · rw [hfees.sum_eq]
end Order

section OutputsThenInputs

def CoinMap.outputsThenInputs (check : TxCheck) (nHeight : Nat) (vtx : List CTransaction) (m : CoinMap) :
    Except Stop (CoinMap × Int × List CTxUndo) :=
  (CoinMap.addBlockCoins nHeight vtx m).bind fun m => CoinMap.connectTxs check nHeight vtx m 0

theorem catchDuplicate_ok {r : Except Stop CCoinsViewCache} {v : CCoinsViewCache} :
    catchDuplicate r = .ok v ↔ r = .ok v := by
  cases r with
  | ok w => rfl
  | error e => cases e <;> simp [catchDuplicate,dos]

theorem connectOutputsThenInputs_ok (check : TxCheck) (nHeight : Nat) {frame : ViewFrame}
    {S : COutPoint → Prop} {v : CCoinsViewCache} {m : CoinMap} {vtx : List CTransaction} (h : ViewRel frame S v m)
    (hS : ∀ tx ∈ vtx, ∀ x ∈ tx.outpoints, S x)
    (hnd : ∀ tx ∈ vtx, tx.isCoinBase = false → (tx.vin.map CTxIn.prevout).Nodup) :
    (∀ r, connectOutputsThenInputs check nHeight vtx v = .ok r →
      ∃ s, CoinMap.outputsThenInputs check nHeight vtx m = .ok s ∧ ResultRel frame S r s) ∧
    ∀ s, CoinMap.outputsThenInputs check nHeight vtx m = .ok s →
      ∃ r, connectOutputsThenInputs check nHeight vtx v = .ok r ∧ ResultRel frame S r s := by
  have hadd := addBlockCoins_simulates nHeight vtx h hS
  constructor
  · intro r hr
    obtain ⟨w,hw,hr⟩ := except_bind_ok.mp hr
    obtain ⟨m1,hm1,hrel⟩ := hadd.ok_left (catchDuplicate_ok.mp hw)
    obtain ⟨s,hs,hrs⟩ := (connectTxs_simulates check nHeight vtx 0 hrel hnd).ok_left hr
    exact ⟨s,except_bind_ok.mpr ⟨m1,hm1,hs⟩,hrs⟩
  · intro s hs
    obtain ⟨m1,hm1,hs⟩ := except_bind_ok.mp hs
    obtain ⟨w,hw,hrel⟩ := hadd.ok_right hm1
    obtain ⟨r,hr,hrs⟩ := (connectTxs_simulates check nHeight vtx 0 hrel hnd).ok_right hs
    exact ⟨r,except_bind_ok.mpr ⟨w,catchDuplicate_ok.mpr hw,hr⟩,hrs⟩

variable {check : TxCheck} {nHeight : Nat} {cb : CTransaction} {txs : List CTransaction}

/-- A block of checked transactions whose txids do not collide, over coins that hold none of
its outputs. -/
structure BlockShape (cb : CTransaction) (txs : List CTransaction) (m : CoinMap) : Prop where
  coinbase : cb.isCoinBase = true
  regular : ∀ tx ∈ txs, checkRegularTransaction tx = .ok ()
  txids : ((cb::txs).map CTransaction.getId).Nodup
  acyclic : Acyclic (cb::txs) SpendsFrom
  unspent : ∀ tx ∈ cb::txs, ∀ x ∈ tx.outpoints, m x = none

namespace BlockShape

variable {m : CoinMap} (h : BlockShape cb txs m)
include h

theorem perm {txs' : List CTransaction} (hp : txs'.Perm txs) : BlockShape cb txs' m where
  coinbase := h.coinbase
  regular := fun tx htx => h.regular tx (hp.mem_iff.mp htx)
  txids := ((hp.cons cb).map _).nodup_iff.mpr h.txids
  acyclic := h.acyclic.mono fun _ ha => (hp.cons cb).mem_iff.mp ha
  unspent := fun tx htx => h.unspent tx ((hp.cons cb).mem_iff.mp htx)

theorem notCoinBase : ∀ tx ∈ txs, tx.isCoinBase = false :=
  fun tx htx => (checkRegularTransaction_ok (h.regular tx htx)).notCoinBase

theorem spent_coinbase : cb.spent = [] := by
  rw [CTransaction.spent,if_pos h.coinbase]

theorem prevouts_nodup : ∀ tx ∈ cb::txs, tx.isCoinBase = false → (tx.vin.map CTxIn.prevout).Nodup := by
  intro tx htx hcb
  rcases mem_cons.mp htx with rfl | htx
  · rw [h.coinbase] at hcb
    cases hcb
  · exact (checkRegularTransaction_ok (h.regular tx htx)).prevouts

theorem spent_nodup : ∀ tx ∈ cb::txs, tx.spent.Nodup := fun tx htx => spent_nodup_of (h.prevouts_nodup tx htx)

theorem created_none (nHeight : Nat) : ∀ x ∈ (blockCreated nHeight (cb::txs)).map Prod.fst, m x = none := by
  intro x hx
  obtain ⟨⟨y,c⟩,hmem,rfl⟩ := mem_map.mp hx
  obtain ⟨t,ht,hc⟩ := mem_flatMap.mp hmem
  exact h.unspent t ht y (created_key (mem_map_of_mem (f := Prod.fst) hc))

theorem notSelf : ∀ tx ∈ cb::txs, ¬SpendsFrom tx tx := fun tx htx hself => h.acyclic tx (.single ⟨htx,htx,hself⟩)

theorem spendsEarlier (nHeight : Nat) (htop : Topological SpendsFrom txs) : SpendsEarlier nHeight (cb::txs) := by
  refine spendsEarlier_of_topological _ h.notSelf (pairwise_cons.mpr ⟨?_,htop⟩)
  rintro tx - ⟨x,hx,-⟩
  rw [h.spent_coinbase] at hx
  cases hx

theorem outputsThenInputs_iff (r : CoinMap × Int × List CTxUndo) :
    CoinMap.outputsThenInputs check nHeight (cb::txs) m = .ok r ↔ (∀ tx ∈ cb::txs, ∀ o ∈ tx.vout, o.isNull = false) ∧
      CoinMap.connectTxs check nHeight (cb::txs) (m.insertAll (blockCreated nHeight (cb::txs))) 0 = .ok r := by
  unfold CoinMap.outputsThenInputs
  rw [except_bind_ok]
  simp only [CoinMap.addBlockCoins_coinbase_iff nHeight h.coinbase h.notCoinBase]
  constructor
  · rintro ⟨m1,⟨hnull,-,-,rfl⟩,hr⟩
    exact ⟨hnull,hr⟩
  · rintro ⟨hnull,hr⟩
    refine ⟨_,⟨hnull,blockCreated_nodup nHeight _ h.txids,fun x hx => h.created_none nHeight x ?_,rfl⟩,hr⟩
    rw [blockCreated_cons,map_append]
    exact mem_append_right _ hx

theorem sequential_iff (htop : Topological SpendsFrom txs) (r : CoinMap × Int × List CTxUndo) :
    CoinMap.connectSequential check nHeight (cb::txs) m 0 = .ok r ↔
      CoinMap.outputsThenInputs check nHeight (cb::txs) m = .ok r := by
  have heq := fun hnull => @CoinMap.connectSequential_eq check nHeight (cb::txs) m 0 hnull
    (blockCreated_nodup nHeight _ h.txids) (h.created_none nHeight) (h.spendsEarlier nHeight htop) r
  rw [h.outputsThenInputs_iff]
  constructor
  · intro hr
    have hnull := CoinMap.connectSequential_notNull _ hr
    exact ⟨hnull,(heq hnull).mp hr⟩
  · rintro ⟨hnull,hr⟩
    exact (heq hnull).mpr hr

theorem outputsThenInputs_perm {txs' : List CTransaction} (hp : txs'.Perm txs) {m' : CoinMap} {f : Int}
    {us : List CTxUndo} (hr : CoinMap.outputsThenInputs check nHeight (cb::txs) m = .ok (m',f,us)) :
    ∃ us', CoinMap.outputsThenInputs check nHeight (cb::txs') m = .ok (m',f,us') := by
  have hp' := (hp.cons cb).symm
  obtain ⟨hnull,hr⟩ := (h.outputsThenInputs_iff _).mp hr
  obtain ⟨us',hus⟩ := CoinMap.connectTxs_perm hp' h.spent_nodup hr
  refine ⟨us',((h.perm hp).outputsThenInputs_iff _).mpr ⟨fun tx htx => hnull tx (hp'.mem_iff.mpr htx),?_⟩⟩
  have hcreated : (blockCreated nHeight (cb::txs)).Perm (blockCreated nHeight (cb::txs')) :=
    hp'.flatMap_right _
  rw [← CoinMap.insertAll_perm hcreated (blockCreated_nodup nHeight _ h.txids)]
  exact hus
end BlockShape

def SameVerdict (x y : Except Stop (CCoinsViewCache × Int × List CTxUndo)) : Prop :=
  ((∃ r, x = .ok r) ↔ ∃ s, y = .ok s) ∧ ∀ r s, x = .ok r → y = .ok s → r.1.coins = s.1.coins ∧ r.2.1 = s.2.1

private theorem sameVerdict_of {frame : ViewFrame} {S : COutPoint → Prop}
    {x y : Except Stop (CCoinsViewCache × Int × List CTxUndo)} {a b : Except Stop (CoinMap × Int × List CTxUndo)}
    (hxa : ∀ r, x = .ok r → ∃ s, a = .ok s ∧ ResultRel frame S r s)
    (hax : ∀ s, a = .ok s → ∃ r, x = .ok r ∧ ResultRel frame S r s)
    (hyb : ∀ r, y = .ok r → ∃ s, b = .ok s ∧ ResultRel frame S r s)
    (hby : ∀ s, b = .ok s → ∃ r, y = .ok r ∧ ResultRel frame S r s)
    (hab : ∀ s, a = .ok s → ∃ us, b = .ok (s.1,s.2.1,us))
    (hba : ∀ s, b = .ok s → ∃ us, a = .ok (s.1,s.2.1,us)) : SameVerdict x y := by
  refine ⟨⟨?_,?_⟩,?_⟩
  · rintro ⟨r,hr⟩
    obtain ⟨s,hs,-⟩ := hxa r hr
    obtain ⟨us,hus⟩ := hab s hs
    obtain ⟨r',hr',-⟩ := hby _ hus
    exact ⟨r',hr'⟩
  · rintro ⟨r,hr⟩
    obtain ⟨s,hs,-⟩ := hyb r hr
    obtain ⟨us,hus⟩ := hba s hs
    obtain ⟨r',hr',-⟩ := hax _ hus
    exact ⟨r',hr'⟩
  · intro r s hr hs
    obtain ⟨c,hc,hrc,hrc'⟩ := hxa r hr
    obtain ⟨d,hd,hsd,hsd'⟩ := hyb s hs
    obtain ⟨us,hus⟩ := hab c hc
    rw [hd] at hus
    cases hus
    exact ⟨hrc.coins.trans hsd.coins.symm,by rw [hrc',hsd']⟩

/-- Adding all outputs first accepts the same blocks, with the same coins and fees, as taking the transactions in any
order that respects their spends. -/
theorem outputsThenInputs_iff_sequential (check : TxCheck) (nHeight : Nat) (view : CCoinsViewCache)
    (hwf : view.WF) (cb : CTransaction) (txs : List CTransaction) (h : BlockShape cb txs view.coins) :
    (∃ order : List CTransaction, order.Perm txs ∧ Topological SpendsFrom order) ∧
    (∀ order : List CTransaction, order.Perm txs → Topological SpendsFrom order →
      SameVerdict (connectOutputsThenInputs check nHeight (cb::txs) view)
        (connectSequential check nHeight (cb::order) view 0)) ∧
    ∀ txs' : List CTransaction, txs'.Perm txs → SameVerdict (connectOutputsThenInputs check nHeight (cb::txs) view)
        (connectOutputsThenInputs check nHeight (cb::txs') view) := by
  have hrel : ViewRel view.frame (fun x => ∃ tx ∈ cb::txs, x ∈ tx.outpoints) view view.coins :=
    ⟨hwf,rfl,rfl,fun x hx => .inl (by obtain ⟨tx,htx,hx⟩ := hx; exact h.unspent tx htx x hx)⟩
  have hS : ∀ txs' : List CTransaction, txs'.Perm txs → ∀ tx ∈ cb::txs', ∀ x ∈ tx.outpoints,
      ∃ tx ∈ cb::txs, x ∈ tx.outpoints :=
    fun txs' hp tx htx x hx => ⟨tx,(hp.cons cb).mem_iff.mp htx,hx⟩
  have hoti := fun txs' (hp : List.Perm txs' txs) =>
    connectOutputsThenInputs_ok check nHeight hrel (hS txs' hp) (h.perm hp).prevouts_nodup
  obtain ⟨hxa,hax⟩ := hoti txs (List.Perm.refl _)
  refine ⟨?_,fun order hp htop => ?_,fun txs' hp => ?_⟩
  · exact (h.acyclic.mono fun _ => mem_cons_of_mem cb).exists_topological
  · have hseq := connectSequential_simulates check nHeight (cb::order) 0 hrel (hS order hp)
      (h.perm hp).spent_nodup
    refine sameVerdict_of hxa hax (fun r => hseq.ok_left) (fun s => hseq.ok_right) ?_ ?_
    · intro s hs
      obtain ⟨us,hus⟩ := h.outputsThenInputs_perm hp hs
      exact ⟨us,((h.perm hp).sequential_iff htop _).mpr hus⟩
    · intro s hs
      exact (h.perm hp).outputsThenInputs_perm hp.symm (((h.perm hp).sequential_iff htop _).mp hs)
  · obtain ⟨hyb,hby⟩ := hoti txs' hp
    exact sameVerdict_of hxa hax hyb hby (fun s hs => h.outputsThenInputs_perm hp hs)
      fun s hs => (h.perm hp).outputsThenInputs_perm hp.symm hs

private def sampleSpend (x : COutPoint) (nValue : Int) (id : TxId) : CTransaction :=
  ⟨[⟨x,[],0⟩],[⟨nValue,[0x51],none⟩],2,0,id⟩

private def sampleCoinbase : CTransaction := ⟨[⟨⟨0,outPointNullIndex⟩,[1,2],0⟩],[⟨50,[0x51],none⟩],2,0,20⟩

private def sampleView : CCoinsViewCache :=
  CCoinsViewCache.ofBase (.map (fun x =>
    if x = ⟨9,0⟩ then some (Coin.ofOutput ⟨1000,[0x51],none⟩ 3 false) else none) 1)

private def noCheck : TxCheck := ⟨fun _ _ => .ok (),fun _ _ _ _ => rfl⟩

/-- The child stands before its parent in the block. -/
theorem outputsThenInputs_iff_sequential_sample : ∃ r s, connectOutputsThenInputs noCheck 7
        [sampleCoinbase,sampleSpend ⟨21,0⟩ 800 22,sampleSpend ⟨9,0⟩ 900 21] sampleView = .ok r ∧
      connectSequential noCheck 7
        [sampleCoinbase,sampleSpend ⟨9,0⟩ 900 21,sampleSpend ⟨21,0⟩ 800 22] sampleView 0 = .ok s ∧
      r.1.coins = s.1.coins ∧ r.2.1 = s.2.1 := by
  have hshape : BlockShape sampleCoinbase [sampleSpend ⟨21,0⟩ 800 22,sampleSpend ⟨9,0⟩ 900 21]
      sampleView.coins := by
    refine ⟨rfl,by decide,by decide,acyclic_of_rank _ (fun tx => tx.getId.toNat) ?_,by decide⟩
    unfold SpendsFrom
    decide
  obtain ⟨-,hseq,-⟩ := outputsThenInputs_iff_sequential noCheck 7 sampleView
    (CCoinsViewCache.ofBase_WF trivial) _ _ hshape
  obtain ⟨hiff,hsame⟩ := hseq [sampleSpend ⟨9,0⟩ 900 21,sampleSpend ⟨21,0⟩ 800 22] (List.Perm.swap _ _ _)
    (by unfold Topological SpendsFrom; decide)
  obtain ⟨r,hr⟩ : ∃ r, connectOutputsThenInputs noCheck 7
      [sampleCoinbase,sampleSpend ⟨21,0⟩ 800 22,sampleSpend ⟨9,0⟩ 900 21] sampleView = .ok r := ⟨_,rfl⟩
  obtain ⟨s,hs⟩ := hiff.mp ⟨r,hr⟩
  exact ⟨r,s,hr,hs,hsame r s hr hs⟩
end OutputsThenInputs
end BitfiniteCore
