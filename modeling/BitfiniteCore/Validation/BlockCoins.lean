import BitfiniteCore.Validation.FlatCoins
import Mathlib.Algebra.BigOperators.Group.List.Basic
import Mathlib.Algebra.Order.BigOperators.Group.List

/-! # What a block does to the coins -/

namespace BitfiniteCore
open Function List

namespace CoinMap

def insertAll (m : CoinMap) : List (COutPoint × Coin) → CoinMap
  | [] => m
  | p::ps => insertAll (update m p.1 (some p.2)) ps

def remove (m : CoinMap) (xs : List COutPoint) : CoinMap := fun x => if x ∈ xs then none else m x

theorem insertAll_append (m : CoinMap) (ps qs : List (COutPoint × Coin)) :
    m.insertAll (ps++qs) = (m.insertAll ps).insertAll qs := by
  induction ps generalizing m with
  | nil => rfl
  | cons p ps ih => exact ih _

variable {ps : List (COutPoint × Coin)}

theorem insertAll_of_notMem {x : COutPoint} (hx : x ∉ ps.map Prod.fst) (m : CoinMap) : m.insertAll ps x = m x := by
  induction ps generalizing m with
  | nil => rfl
  | cons p ps ih =>
    simp only [map_cons,mem_cons,not_or] at hx
    rw [insertAll,ih hx.2,update_of_ne hx.1]

theorem insertAll_of_mem (hnd : (ps.map Prod.fst).Nodup)
    {x : COutPoint} {c : Coin} (hx : (x,c) ∈ ps) (m : CoinMap) : m.insertAll ps x = some c := by
  induction ps generalizing m with
  | nil => cases hx
  | cons p ps ih =>
    obtain ⟨hp,hps⟩ := nodup_cons.mp hnd
    rcases mem_cons.mp hx with rfl | hx
    · rw [insertAll,insertAll_of_notMem hp,update_self]
    · exact ih hps hx _

theorem insertAll_cases {m : CoinMap} {x : COutPoint} {c : Coin}
    (h : m.insertAll ps x = some c) : (x,c) ∈ ps ∨ (x ∉ ps.map Prod.fst ∧ m x = some c) := by
  induction ps generalizing m with
  | nil => exact .inr ⟨by simp,h⟩
  | cons p ps ih =>
    rcases ih h with hmem | ⟨hnot,hm⟩
    · exact .inl (mem_cons_of_mem p hmem)
    · by_cases hx : x = p.1
      · subst hx
        rw [update_self] at hm
        left
        rw [← Option.some.inj hm]
        exact mem_cons_self
      · rw [update_of_ne hx] at hm
        refine .inr ⟨?_,hm⟩
        simp only [map_cons,mem_cons,not_or]
        exact ⟨hx,hnot⟩

theorem insertAll_perm {qs : List (COutPoint × Coin)} (hp : ps.Perm qs)
    (hnd : (ps.map Prod.fst).Nodup) (m : CoinMap) : m.insertAll ps = m.insertAll qs := by
  funext x
  have hnd' : (qs.map Prod.fst).Nodup := (hp.map _).nodup_iff.mp hnd
  by_cases hx : x ∈ ps.map Prod.fst
  · obtain ⟨⟨y,c⟩,hmem,rfl⟩ := mem_map.mp hx
    rw [insertAll_of_mem hnd hmem,insertAll_of_mem hnd' (hp.mem_iff.mp hmem)]
  · rw [insertAll_of_notMem hx,insertAll_of_notMem (fun h => hx ((hp.map _).mem_iff.mpr h))]

theorem spend_eq_remove (m : CoinMap) (vin : List CTxIn) : m.spend vin = m.remove (vin.map CTxIn.prevout) := by
  funext x
  exact spend_apply vin m x

theorem remove_remove (m : CoinMap) (xs ys : List COutPoint) : (m.remove xs).remove ys = m.remove (xs++ys) := by
  funext x
  by_cases hx : x ∈ xs <;> by_cases hy : x ∈ ys <;> simp [remove,hx,hy]

theorem remove_cons (m : CoinMap) (x : COutPoint) (xs : List COutPoint) :
    m.remove (x::xs) = CoinMap.remove (update m x none) xs := by
  funext y
  by_cases hy : y = x
  · simp [remove,hy]
  · simp [remove,hy]

theorem remove_nil (m : CoinMap) : m.remove [] = m := by
  funext x
  simp [remove]
end CoinMap

def createdFrom (txid : TxId) (cb : Bool) (nHeight : Nat) : Nat → List CTxOut → List (COutPoint × Coin)
  | _, [] => []
  | i, out::vout =>
    if out.scriptPubKey.isUnspendable then createdFrom txid cb nHeight (i+1) vout
    else (⟨txid,i⟩,Coin.ofOutput out nHeight cb)::createdFrom txid cb nHeight (i+1) vout

def CTransaction.created (nHeight : Nat) (tx : CTransaction) : List (COutPoint × Coin) :=
  createdFrom tx.getId tx.isCoinBase nHeight 0 tx.vout

def blockCreated (nHeight : Nat) (txs : List CTransaction) : List (COutPoint × Coin) :=
  txs.flatMap (CTransaction.created nHeight)

def CTransaction.spent (tx : CTransaction) : List COutPoint :=
  if tx.isCoinBase then [] else tx.vin.map CTxIn.prevout

variable {tx : CTransaction}

theorem spent_nodup_of (h : tx.isCoinBase = false → (tx.vin.map CTxIn.prevout).Nodup) : tx.spent.Nodup := by
  unfold CTransaction.spent
  split
  · exact nodup_nil
  · rename_i hcb
    exact h (by simpa using hcb)

def blockSpent (txs : List CTransaction) : List COutPoint := txs.flatMap CTransaction.spent

theorem createdFrom_mem {txid : TxId} {cb : Bool} {nHeight i : Nat} {vout : List CTxOut}
    {x : COutPoint} {c : Coin} (h : (x,c) ∈ createdFrom txid cb nHeight i vout) :
    ∃ n out, vout[n]? = some out ∧ x = ⟨txid,i+n⟩ ∧ c = Coin.ofOutput out nHeight cb ∧
      out.scriptPubKey.isUnspendable = false := by
  induction vout generalizing i with
  | nil => cases h
  | cons out vout ih =>
    have hrest : (x,c) ∈ createdFrom txid cb nHeight (i+1) vout →
        ∃ n o, (out::vout)[n]? = some o ∧ x = ⟨txid,i+n⟩ ∧ c = Coin.ofOutput o nHeight cb ∧
          o.scriptPubKey.isUnspendable = false := by
      intro h
      obtain ⟨n,o,hn,hx,hc,hu⟩ := ih h
      exact ⟨n+1,o,by simpa using hn,by rw [hx,show i+1+n = i+(n+1) by omega],hc,hu⟩
    rw [createdFrom] at h
    split at h
    · exact hrest h
    · rename_i hu
      rcases mem_cons.mp h with h | h
      · obtain ⟨rfl,rfl⟩ := Prod.mk.inj h
        exact ⟨0,out,rfl,rfl,rfl,by simpa using hu⟩
      · exact hrest h

theorem createdFrom_nodup (txid : TxId) (cb : Bool) (nHeight i : Nat) (vout : List CTxOut) :
    ((createdFrom txid cb nHeight i vout).map Prod.fst).Nodup := by
  induction vout generalizing i with
  | nil => simp [createdFrom]
  | cons out vout ih =>
    rw [createdFrom]
    split
    · exact ih (i+1)
    · refine nodup_cons.mpr ⟨fun h => ?_,ih (i+1)⟩
      obtain ⟨⟨x,c⟩,hmem,hx⟩ := mem_map.mp h
      obtain ⟨n,o,-,hxn,-⟩ := createdFrom_mem hmem
      rw [hxn] at hx
      have hn := congrArg COutPoint.n hx
      simp only at hn
      omega

theorem created_key {nHeight : Nat} {x : COutPoint}
    (h : x ∈ (tx.created nHeight).map Prod.fst) : x ∈ tx.outpoints := by
  obtain ⟨⟨y,c⟩,hmem,rfl⟩ := mem_map.mp h
  obtain ⟨n,o,hn,hx,-⟩ := createdFrom_mem hmem
  obtain ⟨hlt,-⟩ := List.getElem?_eq_some_iff.mp hn
  refine mem_map.mpr ⟨n,by simpa using hlt,?_⟩
  simp [hx]

theorem created_txid {nHeight : Nat} {x : COutPoint}
    (h : x ∈ (tx.created nHeight).map Prod.fst) : x.txid = tx.getId := by
  obtain ⟨n,-,rfl⟩ := mem_map.mp (created_key h)
  rfl

theorem isSpent_ofOutput (out : CTxOut) (nHeight : Nat) (cb : Bool) :
    (Coin.ofOutput out nHeight cb).isSpent = out.isNull := rfl

theorem CoinMap.addCoinsFrom_iff (txid : TxId) (cb : Bool) (nHeight i : Nat) (vout : List CTxOut) (m m' : CoinMap) :
    CoinMap.addCoinsFrom txid cb nHeight false i vout m = .ok m' ↔ (∀ o ∈ vout, o.isNull = false) ∧
      (cb = false → ∀ x ∈ (createdFrom txid cb nHeight i vout).map Prod.fst, m x = none) ∧
      m' = m.insertAll (createdFrom txid cb nHeight i vout) := by
  induction vout generalizing i m with
  | nil =>
    constructor
    · exact fun h => ⟨by simp,by simp [createdFrom],(Except.ok.inj h).symm⟩
    · rintro ⟨-,-,rfl⟩
      rfl
  | cons out vout ih =>
    rw [CoinMap.addCoinsFrom,except_bind_ok,createdFrom,forall_mem_cons]
    simp only [Bool.false_eq_true,if_false,ih]
    unfold CoinMap.addCoin
    rw [isSpent_ofOutput]
    cases hnull : out.isNull with
    | true => simp
    | false =>
      by_cases hu : out.scriptPubKey.isUnspendable = true
      · have hu' : (Coin.ofOutput out nHeight cb).out.scriptPubKey.isUnspendable = true := hu
        simp [hu,hu']
      · have hu' : ¬(Coin.ofOutput out nHeight cb).out.scriptPubKey.isUnspendable = true := hu
        rw [if_neg hu,if_neg (by simp),if_neg hu']
        have hfresh : ∀ x ∈ (createdFrom txid cb nHeight (i+1) vout).map Prod.fst, x ≠ ⟨txid,i⟩ := by
          rintro x hx rfl
          have hnd := createdFrom_nodup txid cb nHeight i (out::vout)
          rw [createdFrom,if_neg hu] at hnd
          exact (nodup_cons.mp hnd).1 hx
        cases cb with
        | true => simp [CoinMap.insertAll]
        | false =>
          cases hm : m ⟨txid,i⟩ with
          | some c => simp [hm]
          | none =>
            simp only [Bool.not_false,Option.isSome_none,Bool.and_false,Bool.false_eq_true,if_false,
              Except.ok.injEq,exists_eq_left',true_and,forall_const,map_cons,forall_mem_cons,
              hm,CoinMap.insertAll]
            refine and_congr_right fun _ => and_congr_left fun _ => ?_
            refine forall₂_congr fun x hx => ?_
            rw [update_of_ne (hfresh x hx)]

theorem CoinMap.addCoins_iff (tx : CTransaction) (nHeight : Nat) (m m' : CoinMap) :
    m.addCoins tx nHeight false = .ok m' ↔ (∀ o ∈ tx.vout, o.isNull = false) ∧
      (tx.isCoinBase = false → ∀ x ∈ (tx.created nHeight).map Prod.fst, m x = none) ∧
      m' = m.insertAll (tx.created nHeight) :=
  CoinMap.addCoinsFrom_iff _ _ _ _ _ _ _

theorem blockCreated_cons (nHeight : Nat) (tx : CTransaction) (txs : List CTransaction) :
    blockCreated nHeight (tx::txs) = tx.created nHeight++blockCreated nHeight txs := rfl

theorem created_nodup (nHeight : Nat) (tx : CTransaction) : ((tx.created nHeight).map Prod.fst).Nodup :=
  createdFrom_nodup _ _ _ _ _

private theorem forall_insertAll_none (nHeight : Nat) (tx : CTransaction) (keys : List COutPoint) (m : CoinMap) :
    (∀ x ∈ keys, m.insertAll (tx.created nHeight) x = none) ↔
      (∀ a ∈ (tx.created nHeight).map Prod.fst, ∀ b ∈ keys, a ≠ b) ∧ ∀ x ∈ keys, m x = none := by
  constructor
  · intro h
    have hdisj : ∀ a ∈ (tx.created nHeight).map Prod.fst, ∀ b ∈ keys, a ≠ b := by
      rintro a ha _ hb rfl
      obtain ⟨⟨y,c⟩,hmem,rfl⟩ := mem_map.mp ha
      have hy := h y hb
      rw [CoinMap.insertAll_of_mem (created_nodup nHeight tx) hmem] at hy
      cases hy
    refine ⟨hdisj,fun x hx => ?_⟩
    rw [← h x hx,CoinMap.insertAll_of_notMem fun hx' => hdisj x hx' x hx rfl]
  · rintro ⟨hdisj,h⟩ x hx
    rw [CoinMap.insertAll_of_notMem fun hx' => hdisj x hx' x hx rfl]
    exact h x hx

theorem CoinMap.addBlockCoins_iff (nHeight : Nat) (txs : List CTransaction)
    (hcb : ∀ tx ∈ txs, tx.isCoinBase = false) (m m' : CoinMap) :
    CoinMap.addBlockCoins nHeight txs m = .ok m' ↔ (∀ tx ∈ txs, ∀ o ∈ tx.vout, o.isNull = false) ∧
      ((blockCreated nHeight txs).map Prod.fst).Nodup ∧
      (∀ x ∈ (blockCreated nHeight txs).map Prod.fst, m x = none) ∧
      m' = m.insertAll (blockCreated nHeight txs) := by
  induction txs generalizing m with
  | nil =>
    constructor
    · exact fun h => ⟨by simp,by simp [blockCreated],by simp [blockCreated],(Except.ok.inj h).symm⟩
    · rintro ⟨-,-,-,rfl⟩
      rfl
  | cons tx txs ih =>
    obtain ⟨htx,htxs⟩ := forall_mem_cons.mp hcb
    rw [CoinMap.addBlockCoins,except_bind_ok,blockCreated_cons,forall_mem_cons,map_append,
      nodup_append,CoinMap.insertAll_append,forall_mem_append]
    simp only [ih htxs,CoinMap.addCoins_iff,htx,true_imp_iff]
    constructor
    · rintro ⟨m1,⟨h1,h2,rfl⟩,h3,h4,h5,h6⟩
      obtain ⟨hdisj,hnone⟩ := (forall_insertAll_none nHeight tx _ m).mp h5
      exact ⟨⟨h1,h3⟩,⟨created_nodup nHeight tx,h4,hdisj⟩,⟨h2,hnone⟩,h6⟩
    · rintro ⟨⟨h1,h3⟩,⟨-,h4,hdisj⟩,⟨h2,hnone⟩,h6⟩
      exact ⟨_,⟨h1,h2,rfl⟩,h3,h4,(forall_insertAll_none nHeight tx _ m).mpr ⟨hdisj,hnone⟩,h6⟩

theorem CoinMap.addBlockCoins_coinbase_iff (nHeight : Nat) {cb : CTransaction} {txs : List CTransaction}
    (hcb : cb.isCoinBase = true) (htxs : ∀ tx ∈ txs, tx.isCoinBase = false) (m m' : CoinMap) :
    CoinMap.addBlockCoins nHeight (cb::txs) m = .ok m' ↔ (∀ tx ∈ cb::txs, ∀ o ∈ tx.vout, o.isNull = false) ∧
      ((blockCreated nHeight (cb::txs)).map Prod.fst).Nodup ∧
      (∀ x ∈ (blockCreated nHeight txs).map Prod.fst, m x = none) ∧
      m' = m.insertAll (blockCreated nHeight (cb::txs)) := by
  rw [CoinMap.addBlockCoins,except_bind_ok,blockCreated_cons,forall_mem_cons,map_append,
    nodup_append,CoinMap.insertAll_append]
  simp only [CoinMap.addBlockCoins_iff nHeight txs htxs,CoinMap.addCoins_iff,hcb]
  constructor
  · rintro ⟨m1,⟨h1,-,rfl⟩,h3,h4,h5,h6⟩
    obtain ⟨hdisj,hnone⟩ := (forall_insertAll_none nHeight cb _ m).mp h5
    exact ⟨⟨h1,h3⟩,⟨created_nodup nHeight cb,h4,hdisj⟩,hnone,h6⟩
  · rintro ⟨⟨h1,h3⟩,⟨-,h4,hdisj⟩,hnone,h6⟩
    exact ⟨_,⟨h1,nofun,rfl⟩,h3,h4,(forall_insertAll_none nHeight cb _ m).mpr ⟨hdisj,hnone⟩,h6⟩

def TxAccepts (check : TxCheck) (nHeight : Nat) (m : CoinMap) (tx : CTransaction) (fee : Int) : Prop :=
  txFee tx m.access nHeight = .ok fee ∧ check.run tx m.access = .ok ()

theorem txFee_nonneg {m : CoinMap} {nHeight : Nat} {fee : Int}
    (h : txFee tx m.access nHeight = .ok fee) : 0 ≤ fee := by
  unfold txFee at h
  split at h
  · exact (Except.ok.inj h).le
  · exact ((moneyRange_iff _).mp (checkTxInputs_ok h).2.2).1

theorem CTransaction.prevout_mem_spent (tx : CTransaction) (hcb : tx.isCoinBase = false) {i : CTxIn}
    (hi : i ∈ tx.vin) : i.prevout ∈ tx.spent := by
  rw [CTransaction.spent,if_neg (by simp [hcb])]
  exact mem_map_of_mem hi

theorem txFee_congr {m m' : CoinMap} {nHeight : Nat}
    (h : ∀ x ∈ tx.spent, m x = m' x) : txFee tx m.access nHeight = txFee tx m'.access nHeight := by
  unfold txFee
  cases hcb : tx.isCoinBase with
  | true => rfl
  | false =>
    rw [if_neg (by simp),if_neg (by simp)]
    refine checkTxInputs_congr tx fun i hi => .inl ?_
    have hx := tx.prevout_mem_spent hcb hi
    rw [CoinMap.access,CoinMap.access,h _ hx]

theorem TxAccepts.congr {check : TxCheck} {nHeight : Nat} {m m' : CoinMap} {fee : Int}
    (h : ∀ x ∈ tx.spent, m x = m' x) :
    TxAccepts check nHeight m tx fee ↔ TxAccepts check nHeight m' tx fee := by
  have hrun : check.run tx m.access = check.run tx m'.access := by
    apply check.congr
    intro hcb i hi
    have hx := tx.prevout_mem_spent hcb hi
    rw [CoinMap.access,CoinMap.access,h _ hx]
  rw [TxAccepts,TxAccepts,txFee_congr h,hrun]

theorem TxAccepts.have {check : TxCheck} {nHeight : Nat} {m : CoinMap} {fee : Int}
    (h : TxAccepts check nHeight m tx fee) : ∀ x ∈ tx.spent, (m x).isSome = true := by
  intro x hx
  unfold CTransaction.spent at hx
  split at hx
  · cases hx
  · rename_i hcb
    obtain ⟨i,hi,rfl⟩ := mem_map.mp hx
    exact txFee_have (by simpa using hcb) h.1 i hi

theorem addFee_iff {n fee n' : Int} (hn : moneyRange n = true) (hf : moneyRange fee = true) :
    addFee n fee = .ok n' ↔ n' = n+fee ∧ n+fee ≤ maxMoney := by
  unfold addFee
  rw [addAmount_money hn hf]
  rw [moneyRange_iff] at hn hf
  dsimp only [Except.bind]
  by_cases h : n+fee ≤ maxMoney
  · rw [if_neg (by simp only [Bool.not_eq_true',Bool.not_eq_false,moneyRange_iff]; omega)]
    simp [h,eq_comm]
  · rw [if_pos (by rw [Bool.not_eq_true',Bool.eq_false_iff,ne_eq,moneyRange_iff]; omega)]
    simp [h,dos]

theorem txFee_money {m : CoinMap} {nHeight : Nat} {fee : Int}
    (h : txFee tx m.access nHeight = .ok fee) : moneyRange fee = true := by
  unfold txFee at h
  split at h
  · cases h
    exact moneyRange_zero
  · exact (checkTxInputs_ok h).2.2

section Connect

variable {check : TxCheck} {nHeight : Nat} {m : CoinMap}

variable {xs : List COutPoint} {tx : CTransaction}

theorem TxAccepts.of_remove {fee : Int} (h : TxAccepts check nHeight (m.remove xs) tx fee) :
    (∀ x ∈ tx.spent, x ∉ xs) ∧ TxAccepts check nHeight m tx fee := by
  have hnot : ∀ x ∈ tx.spent, x ∉ xs := by
    intro x hx hxs
    have hs := h.have x hx
    simp [CoinMap.remove,hxs] at hs
  exact ⟨hnot,(TxAccepts.congr fun x hx => by simp [CoinMap.remove,hnot x hx]).mp h⟩

theorem TxAccepts.remove {fee : Int} (h : TxAccepts check nHeight m tx fee) (hnot : ∀ x ∈ tx.spent, x ∉ xs) :
    TxAccepts check nHeight (m.remove xs) tx fee :=
  (TxAccepts.congr fun x hx => by simp [CoinMap.remove,hnot x hx]).mpr h

theorem undoOf_remove (hcb : tx.isCoinBase = false)
    (hnot : ∀ x ∈ tx.spent, x ∉ xs) : (m.remove xs).undoOf tx = m.undoOf tx := by
  unfold CoinMap.undoOf
  congr 1
  apply map_congr_left
  intro i hi
  have hx := tx.prevout_mem_spent hcb hi
  simp [CoinMap.access,CoinMap.remove,hnot _ hx]

def CoinMap.undosOf (m : CoinMap) (txs : List CTransaction) : List CTxUndo :=
  (txs.filter fun tx => !tx.isCoinBase).map m.undoOf

theorem undosOf_remove (txs : List CTransaction)
    (hnot : ∀ tx ∈ txs, ∀ x ∈ tx.spent, x ∉ xs) : (m.remove xs).undosOf txs = m.undosOf txs := by
  apply map_congr_left
  intro tx htx
  obtain ⟨hmem,hcb⟩ := mem_filter.mp htx
  exact undoOf_remove (by simpa using hcb) (hnot tx hmem)

theorem accepts_of_mem {txs : List CTransaction} {fees : List Int} {m : CoinMap}
    (h : List.Forall₂ (TxAccepts check nHeight m) txs fees) (htx : tx ∈ txs) :
    ∃ fee, TxAccepts check nHeight m tx fee := by
  induction h with
  | nil => cases htx
  | cons hd _ ih =>
    rcases mem_cons.mp htx with rfl | htx
    · exact ⟨_,hd⟩
    · exact ih htx

theorem fees_nonneg {txs : List CTransaction} {fees : List Int}
    (h : List.Forall₂ (TxAccepts check nHeight m) txs fees) : 0 ≤ fees.sum := by
  induction h with
  | nil => simp
  | cons hd _ ih =>
    have h0 := txFee_nonneg hd.1
    rw [sum_cons]
    omega

theorem CoinMap.connectTxs_cons {txs : List CTransaction} {n : Int} {r : CoinMap × Int × List CTxUndo} :
    CoinMap.connectTxs check nHeight (tx::txs) m n = .ok r ↔ ∃ fee n1 us,
      TxAccepts check nHeight m tx fee ∧ addFee n fee = .ok n1 ∧
      CoinMap.connectTxs check nHeight txs (m.remove tx.spent) n1 = .ok (r.1,r.2.1,us) ∧
      r.2.2 = m.undosOf [tx]++us := by
  rw [CoinMap.connectTxs]
  cases hcb : tx.isCoinBase with
  | true =>
    have hspent : m.remove tx.spent = m := by
      rw [CTransaction.spent,if_pos hcb,CoinMap.remove_nil]
    have hundo : m.undosOf [tx] = [] := by simp [CoinMap.undosOf,hcb]
    rw [hspent,hundo]
    constructor
    · intro h
      obtain ⟨fee,h1,h⟩ := except_bind_ok.mp h
      obtain ⟨n1,h2,h⟩ := except_bind_ok.mp h
      obtain ⟨⟨⟩,h3,h⟩ := except_bind_ok.mp h
      exact ⟨fee,n1,r.2.2,⟨h1,h3⟩,h2,h,rfl⟩
    · rintro ⟨fee,n1,us,⟨h1,h3⟩,h2,h,hus⟩
      rw [h1,Except.bind,h2,Except.bind,h3,Except.bind]
      simp only [if_true,h,nil_append] at hus ⊢
      rw [← hus]
  | false =>
    have hspent : m.remove tx.spent = m.spend tx.vin := by
      rw [CTransaction.spent,if_neg (by simp [hcb]),CoinMap.spend_eq_remove]
    have hundo : m.undosOf [tx] = [m.undoOf tx] := by simp [CoinMap.undosOf,hcb]
    rw [hspent,hundo]
    constructor
    · intro h
      obtain ⟨fee,h1,h⟩ := except_bind_ok.mp h
      obtain ⟨n1,h2,h⟩ := except_bind_ok.mp h
      obtain ⟨⟨⟩,h3,h⟩ := except_bind_ok.mp h
      simp only [Bool.false_eq_true,if_false] at h
      cases hrest : CoinMap.connectTxs check nHeight txs (m.spend tx.vin) n1 with
      | error e =>
        rw [hrest] at h
        cases h
      | ok s =>
        rw [hrest] at h
        cases h
        exact ⟨fee,n1,s.2.2,⟨h1,h3⟩,h2,hrest,rfl⟩
    · rintro ⟨fee,n1,us,⟨h1,h3⟩,h2,h,hus⟩
      rw [h1,Except.bind,h2,Except.bind,h3,Except.bind]
      simp only [Bool.false_eq_true,if_false,h,Except.map,singleton_append] at hus ⊢
      rw [← hus]

theorem CoinMap.connectTxs_iff (txs : List CTransaction)
    (hnd : ∀ tx ∈ txs, tx.spent.Nodup) {m m' : CoinMap} {n n' : Int} {us : List CTxUndo} (hn : moneyRange n = true) :
    CoinMap.connectTxs check nHeight txs m n = .ok (m',n',us) ↔
      ∃ fees, List.Forall₂ (TxAccepts check nHeight m) txs fees ∧ (blockSpent txs).Nodup ∧
        n+fees.sum ≤ maxMoney ∧ m' = m.remove (blockSpent txs) ∧ n' = n+fees.sum ∧
        us = m.undosOf txs := by
  induction txs generalizing m n us with
  | nil =>
    constructor
    · intro h
      obtain ⟨rfl,rfl,rfl⟩ : m = m' ∧ n = n' ∧ [] = us := by simpa [CoinMap.connectTxs] using h
      refine ⟨[],.nil,by simp [blockSpent],?_,by simp [blockSpent,CoinMap.remove_nil],by simp,rfl⟩
      simpa using ((moneyRange_iff _).mp hn).2
    · rintro ⟨fees,hf,-,-,rfl,rfl,rfl⟩
      cases hf
      simp [CoinMap.connectTxs,blockSpent,CoinMap.remove_nil,CoinMap.undosOf]
  | cons tx txs ih =>
    obtain ⟨htx,htxs⟩ := forall_mem_cons.mp hnd
    have hflat : blockSpent (tx::txs) = tx.spent++blockSpent txs := rfl
    have hundo : m.undosOf (tx::txs) = m.undosOf [tx]++m.undosOf txs := by
      rw [CoinMap.undosOf,CoinMap.undosOf,CoinMap.undosOf,← map_append,← filter_append]
      rfl
    rw [CoinMap.connectTxs_cons,hflat,hundo,← CoinMap.remove_remove]
    constructor
    · rintro ⟨fee,n1,us',hacc,hfee,hrest,hus⟩
      obtain ⟨rfl,hle⟩ := (addFee_iff hn (txFee_money hacc.1)).mp hfee
      have hfee0 := txFee_nonneg hacc.1
      have hn1 : moneyRange (n+fee) = true := by
        rw [moneyRange_iff] at hn ⊢
        omega
      obtain ⟨fees,hf,hnd',hmax,hm,hsum,hus'⟩ := (ih htxs hn1).mp hrest
      have hall : ∀ tx' ∈ txs, ∀ x ∈ tx'.spent, x ∉ tx.spent := by
        intro tx' htx'
        obtain ⟨f,hf'⟩ := accepts_of_mem hf htx'
        exact hf'.of_remove.1
      refine ⟨fee::fees,.cons hacc (hf.imp fun _ _ h => h.of_remove.2),?_,?_,hm,?_,?_⟩
      · refine nodup_append.mpr ⟨htx,hnd',?_⟩
        rintro x hx y hy rfl
        obtain ⟨tx',htx',hx'⟩ := mem_flatMap.mp hy
        exact hall tx' htx' x hx' hx
      · rw [sum_cons]
        omega
      · rw [hsum,sum_cons]
        omega
      · rw [← undosOf_remove txs hall,← hus']
        exact hus
    · rintro ⟨fees,hf,hnd',hmax,rfl,rfl,rfl⟩
      cases hf with
      | cons hacc hf =>
        rename_i fee fees
        rw [sum_cons] at hmax
        have hcons : n+(fee::fees).sum = n+fee+fees.sum := by
          rw [sum_cons]
          omega
        have hfee0 := txFee_nonneg hacc.1
        have hsum0 := fees_nonneg hf
        obtain ⟨-,hnd2,hdisj⟩ := nodup_append.mp hnd'
        have hall : ∀ tx' ∈ txs, ∀ x ∈ tx'.spent, x ∉ tx.spent := by
          intro tx' htx' x hx hx'
          exact hdisj x hx' x (mem_flatMap.mpr ⟨tx',htx',hx⟩) rfl
        have hn1 : moneyRange (n+fee) = true := by
          rw [moneyRange_iff] at hn ⊢
          omega
        refine ⟨fee,n+fee,m.undosOf txs,hacc,(addFee_iff hn (txFee_money hacc.1)).mpr ⟨rfl,by omega⟩,?_,rfl⟩
        refine (ih htxs hn1).mpr ⟨fees,?_,hnd2,by omega,rfl,hcons,(undosOf_remove txs hall).symm⟩
        refine forall₂_iff_get.mpr ⟨hf.length_eq,fun k h1 h2 => ?_⟩
        exact ((forall₂_iff_get.mp hf).2 k h1 h2).remove (hall _ (getElem_mem h1))
end Connect
end BitfiniteCore
