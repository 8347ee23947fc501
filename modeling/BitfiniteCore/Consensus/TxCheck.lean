import BitfiniteCore.Coins.Cache
import Mathlib.Data.List.Nodup

/-! # Checks of one transaction -/

namespace BitfiniteCore
open List

def maxCoinbaseScriptSigSize : Nat := 100

def coinbaseMaturity : Int := 100

def checkOutputValues : Int → List CTxOut → Except Stop Unit
  | _, [] => .ok ()
  | nValueOut, o::vout =>
    if o.nValue < 0 then dos 100 rejectInvalid "bad-txns-vout-negative"
    else if o.nValue > maxMoney then dos 100 rejectInvalid "bad-txns-vout-toolarge"
    else (addAmount nValueOut o.nValue).bind fun nValueOut =>
      if !moneyRange nValueOut then dos 100 rejectInvalid "bad-txns-txouttotal-toolarge"
      else checkOutputValues nValueOut vout

def checkTransactionCommon (tx : CTransaction) : Except Stop Unit :=
  if tx.vin.isEmpty then dos 10 rejectInvalid "bad-txns-vin-empty"
  else if tx.vout.isEmpty then dos 10 rejectInvalid "bad-txns-vout-empty"
  else match tx.serialize with
    | none => .error (.runtimeError "std::ios_base::failure")
    | some bytes =>
      if bytes.length > maxTxSize then dos 100 rejectInvalid "bad-txns-oversize"
      else checkOutputValues 0 tx.vout

def checkCoinbase (tx : CTransaction) : Except Stop Unit :=
  if !tx.isCoinBase then dos 100 rejectInvalid "bad-cb-missing"
  else (checkTransactionCommon tx).bind fun _ =>
    let scriptSigSize := (tx.vin.head?.map fun i => i.scriptSig.length).getD 0
    if scriptSigSize < 2 || scriptSigSize > maxCoinbaseScriptSigSize then
      dos 100 rejectInvalid "bad-cb-length"
    else .ok ()

def checkPrevoutPairs : List COutPoint → Except Stop Unit
  | [] => .ok ()
  | p::ps =>
    if p.isNull then dos 10 rejectInvalid "bad-txns-prevout-null"
    else if ps.any fun q => p == q then dos 100 rejectInvalid "bad-txns-inputs-duplicate"
    else checkPrevoutPairs ps

/-- `std::adjacent_find` with equality. -/
def adjacentFind : List COutPoint → Bool
  | p::q::ps => p == q || adjacentFind (q::ps)
  | _ => false

def checkPrevoutsSorted (ps : List COutPoint) : Except Stop Unit :=
  if ps.any COutPoint.isNull then dos 10 rejectInvalid "bad-txns-prevout-null"
  else if adjacentFind (ps.mergeSort fun a b => !b.less a) then
    dos 100 rejectInvalid "bad-txns-inputs-duplicate"
  else .ok ()

def checkRegularTransaction (tx : CTransaction) : Except Stop Unit :=
  if tx.isCoinBase then dos 100 rejectInvalid "bad-tx-coinbase"
  else (checkTransactionCommon tx).bind fun _ =>
    let prevouts := tx.vin.map CTxIn.prevout
    if tx.vin.length < 120 then checkPrevoutPairs prevouts else checkPrevoutsSorted prevouts

def checkInputValues (accessCoin : COutPoint → Coin) (nSpendHeight : Nat) : Int → List CTxIn → Except Stop Int
  | nValueIn, [] => .ok nValueIn
  | nValueIn, i::vin =>
    let coin := accessCoin i.prevout
    if coin.isSpent then dos 100 rejectInvalid "bad-txns-inputs-missingorspent"
    -- the difference is one of unsigned 32-bit numbers in the source
    else if coin.isCoinBase && decide (((nSpendHeight : Int)-coin.getHeight)%2^32 < coinbaseMaturity) then
      dos 0 rejectInvalid "bad-txns-premature-spend-of-coinbase"
    else if coin.out.scriptPubKey.isUnspendable then
      dos 100 rejectInvalid "bad-txns-input-scriptpubkey-unspendable"
    else (addAmount nValueIn coin.out.nValue).bind fun nValueIn =>
      if !moneyRange coin.out.nValue || !moneyRange nValueIn then
        dos 100 rejectInvalid "bad-txns-inputvalues-outofrange"
      else checkInputValues accessCoin nSpendHeight nValueIn vin

/-- `CheckTxInputs` returns the fee of the transaction. -/
def checkTxInputs (tx : CTransaction) (accessCoin : COutPoint → Coin) (nSpendHeight : Nat) : Except Stop Int :=
  if tx.isCoinBase then .error (.assertion "!tx.IsCoinBase()")
  else (checkInputValues accessCoin nSpendHeight 0 tx.vin).bind fun nValueIn =>
    tx.getValueOut.bind fun valueOut =>
      if nValueIn < valueOut then dos 100 rejectInvalid "bad-txns-in-belowout"
      else if !moneyRange (nValueIn-valueOut) then dos 100 rejectInvalid "bad-txns-fee-outofrange"
      else .ok (nValueIn-valueOut)

def outputSum (vout : List CTxOut) : Int := (vout.map CTxOut.nValue).sum

theorem checkOutputValues_ok (vout : List CTxOut) {n : Int} (hn : moneyRange n = true)
    (h : checkOutputValues n vout = .ok ()) :
    (∀ o ∈ vout, moneyRange o.nValue = true) ∧ moneyRange (n+outputSum vout) = true := by
  induction vout generalizing n with
  | nil => simpa [outputSum] using hn
  | cons o vout ih =>
    rw [checkOutputValues] at h
    split at h
    · cases h
    split at h
    · cases h
    obtain ⟨m,hm,h⟩ := except_bind_ok.mp h
    obtain rfl := addAmount_ok hm
    split at h
    · cases h
    rename_i hrange
    obtain ⟨h1,h2⟩ := ih (by simpa using hrange) h
    have ho : moneyRange o.nValue = true := by
      rw [moneyRange_iff]
      omega
    refine ⟨forall_mem_cons.mpr ⟨ho,h1⟩,?_⟩
    rw [outputSum,map_cons,sum_cons,← add_assoc]
    exact h2

theorem checkOutputValues_ne_overflow (vout : List CTxOut) {n : Int} (hn : moneyRange n = true) :
    checkOutputValues n vout ≠ .error .overflow := by
  induction vout generalizing n with
  | nil => simp [checkOutputValues]
  | cons o vout ih =>
    rw [checkOutputValues]
    split
    · simp [dos]
    split
    · simp [dos]
    have ho : moneyRange o.nValue = true := by
      rw [moneyRange_iff]
      omega
    rw [addAmount_money hn ho]
    dsimp only [Except.bind]
    split
    · simp [dos]
    · rename_i hrange
      exact ih (by simpa using hrange)

theorem getValueOutFrom_ok (vout : List CTxOut) {n v : Int}
    (h : CTransaction.getValueOutFrom n vout = .ok v) : v = n+outputSum vout := by
  induction vout generalizing n with
  | nil => simpa [outputSum] using (Except.ok.inj h).symm
  | cons o vout ih =>
    rw [CTransaction.getValueOutFrom] at h
    obtain ⟨m,hm,h⟩ := except_bind_ok.mp h
    obtain rfl := addAmount_ok hm
    split at h
    · cases h
    · rw [ih h,outputSum,outputSum,map_cons,sum_cons,add_assoc]

theorem getValueOutFrom_eq (vout : List CTxOut) {n : Int} (hn : moneyRange n = true)
    (h : checkOutputValues n vout = .ok ()) :
    CTransaction.getValueOutFrom n vout = .ok (n+outputSum vout) := by
  induction vout generalizing n with
  | nil => simp [CTransaction.getValueOutFrom,outputSum]
  | cons o vout ih =>
    have hall := checkOutputValues_ok _ hn h
    have ho := hall.1 o mem_cons_self
    rw [checkOutputValues] at h
    split at h
    · cases h
    split at h
    · cases h
    rw [addAmount_money hn ho] at h
    dsimp only [Except.bind] at h
    split at h
    · cases h
    rename_i hrange
    rw [CTransaction.getValueOutFrom,addAmount_money hn ho]
    dsimp only [Except.bind]
    rw [if_neg (by simpa [ho] using hrange),ih (by simpa using hrange) h,outputSum,outputSum,
      map_cons,sum_cons,add_assoc]

theorem moneyRange_zero : moneyRange 0 = true := by
  simp [moneyRange,maxMoney,coinUnit]

structure CheckedCommon (tx : CTransaction) : Prop where
  vin : tx.vin ≠ []
  vout : tx.vout ≠ []
  size : ∃ bytes, tx.serialize = some bytes ∧ bytes.length ≤ maxTxSize
  values : checkOutputValues 0 tx.vout = .ok ()

theorem checkTransactionCommon_ok {tx : CTransaction} (h : checkTransactionCommon tx = .ok ()) :
    CheckedCommon tx := by
  unfold checkTransactionCommon at h
  split at h
  · cases h
  split at h
  · cases h
  rename_i hin hout
  split at h
  · cases h
  rename_i bytes hbytes
  split at h
  · cases h
  exact ⟨by simpa using hin,by simpa using hout,⟨bytes,hbytes,by omega⟩,h⟩

theorem checkTransactionCommon_ne_overflow (tx : CTransaction) : checkTransactionCommon tx ≠ .error .overflow := by
  unfold checkTransactionCommon
  split
  · simp [dos]
  split
  · simp [dos]
  split
  · simp
  split
  · simp [dos]
  · exact checkOutputValues_ne_overflow _ moneyRange_zero

theorem CheckedCommon.money {tx : CTransaction} (h : CheckedCommon tx) : ∀ o ∈ tx.vout, moneyRange o.nValue = true :=
  (checkOutputValues_ok tx.vout moneyRange_zero h.values).1

theorem CheckedCommon.getValueOut {tx : CTransaction} (h : CheckedCommon tx) :
    tx.getValueOut = .ok (outputSum tx.vout) := by
  simpa [CTransaction.getValueOut] using getValueOutFrom_eq tx.vout moneyRange_zero h.values

section Prevouts

private theorem less_iff (a b : COutPoint) : a.less b = true ↔
    a.txid.toNat < b.txid.toNat ∨ (a.txid.toNat = b.txid.toNat ∧ a.n < b.n) := by
  simp [COutPoint.less,BitVec.toNat_inj]

private theorem eq_of_not_less {a b : COutPoint} (h1 : a.less b = false) (h2 : b.less a = false) : a = b := by
  rw [Bool.eq_false_iff,ne_eq,less_iff] at h1 h2
  obtain ⟨t,n⟩ := a
  obtain ⟨u,m⟩ := b
  simp only at h1 h2
  have ht : t.toNat = u.toNat := by omega
  have hn : n = m := by omega
  rw [BitVec.eq_of_toNat_eq ht,hn]

private theorem notLess_trans (a b c : COutPoint) (h1 : (!b.less a) = true) (h2 : (!c.less b) = true) :
    (!c.less a) = true := by
  rw [Bool.not_eq_true',Bool.eq_false_iff,ne_eq,less_iff] at *
  omega

private theorem notLess_total (a b : COutPoint) : (!b.less a || !a.less b) = true := by
  rw [Bool.or_eq_true,Bool.not_eq_true',Bool.not_eq_true',Bool.eq_false_iff,Bool.eq_false_iff,ne_eq,
    ne_eq,less_iff,less_iff]
  omega

private theorem nodup_of_adjacent (ps : List COutPoint)
    (hs : ps.Pairwise fun a b => (!b.less a) = true) (h : adjacentFind ps = false) : ps.Nodup := by
  induction ps with
  | nil => exact nodup_nil
  | cons p ps ih =>
    obtain ⟨hp,hps⟩ := pairwise_cons.mp hs
    cases ps with
    | nil => simp
    | cons q ps =>
      rw [adjacentFind,Bool.or_eq_false_iff] at h
      refine nodup_cons.mpr ⟨fun hmem => ?_,ih hps h.2⟩
      have hpq : (!q.less p) = true := hp q mem_cons_self
      have hqp : (!p.less q) = true := by
        rcases mem_cons.mp hmem with rfl | hmem
        · exact hpq
        · exact (pairwise_cons.mp hps).1 p hmem
      have heq : p = q := eq_of_not_less (by simpa using hqp) (by simpa using hpq)
      simp [heq] at h

private theorem checkPrevoutPairs_ok (ps : List COutPoint) (h : checkPrevoutPairs ps = .ok ()) :
    ps.Nodup ∧ ∀ p ∈ ps, p.isNull = false := by
  induction ps with
  | nil => simp
  | cons p ps ih =>
    rw [checkPrevoutPairs] at h
    split at h
    · cases h
    split at h
    · cases h
    rename_i hnull hany
    obtain ⟨h1,h2⟩ := ih h
    refine ⟨nodup_cons.mpr ⟨fun hp => hany ?_,h1⟩,forall_mem_cons.mpr ⟨by simpa using hnull,h2⟩⟩
    exact any_eq_true.mpr ⟨p,hp,by simp⟩

private theorem checkPrevoutsSorted_ok (ps : List COutPoint) (h : checkPrevoutsSorted ps = .ok ()) :
    ps.Nodup ∧ ∀ p ∈ ps, p.isNull = false := by
  unfold checkPrevoutsSorted at h
  split at h
  · cases h
  split at h
  · cases h
  rename_i hnull hadj
  constructor
  · have hsorted := pairwise_mergeSort notLess_trans notLess_total ps
    exact (mergeSort_perm ps _).nodup_iff.mp
      (nodup_of_adjacent _ hsorted (by simpa using hadj))
  · intro p hp
    simpa using fun hc => hnull (any_eq_true.mpr ⟨p,hp,hc⟩)
end Prevouts

structure CheckedRegular (tx : CTransaction) : Prop extends CheckedCommon tx where
  notCoinBase : tx.isCoinBase = false
  prevouts : (tx.vin.map CTxIn.prevout).Nodup
  notNull : ∀ i ∈ tx.vin, i.prevout.isNull = false

theorem checkRegularTransaction_ok {tx : CTransaction} (h : checkRegularTransaction tx = .ok ()) :
    CheckedRegular tx := by
  unfold checkRegularTransaction at h
  split at h
  · cases h
  rename_i hcb
  obtain ⟨⟨⟩,hc,h⟩ := except_bind_ok.mp h
  have hps : (tx.vin.map CTxIn.prevout).Nodup ∧ ∀ p ∈ tx.vin.map CTxIn.prevout, p.isNull = false := by
    split at h
    · exact checkPrevoutPairs_ok _ h
    · exact checkPrevoutsSorted_ok _ h
  exact ⟨checkTransactionCommon_ok hc,by simpa using hcb,hps.1,fun i hi => hps.2 _ (mem_map_of_mem hi)⟩

theorem checkRegularTransaction_ne_overflow (tx : CTransaction) : checkRegularTransaction tx ≠ .error .overflow := by
  unfold checkRegularTransaction
  split
  · simp [dos]
  cases hc : checkTransactionCommon tx with
  | error e =>
    have hne := checkTransactionCommon_ne_overflow tx
    simpa [Except.bind,hc] using hne
  | ok u =>
    have hpairs : ∀ ps : List COutPoint, checkPrevoutPairs ps ≠ .error .overflow := by
      intro ps
      induction ps with
      | nil => simp [checkPrevoutPairs]
      | cons p ps ih =>
        rw [checkPrevoutPairs]
        split
        · simp [dos]
        split
        · simp [dos]
        · exact ih
    dsimp only [Except.bind]
    split
    · exact hpairs _
    · unfold checkPrevoutsSorted
      split
      · simp [dos]
      split
      · simp [dos]
      · simp

structure CheckedCoinbase (tx : CTransaction) : Prop extends CheckedCommon tx where
  coinBase : tx.isCoinBase = true

theorem checkCoinbase_ok {tx : CTransaction} (h : checkCoinbase tx = .ok ()) : CheckedCoinbase tx := by
  unfold checkCoinbase at h
  split at h
  · cases h
  rename_i hcb
  obtain ⟨⟨⟩,hc,-⟩ := except_bind_ok.mp h
  exact ⟨checkTransactionCommon_ok hc,by simpa using hcb⟩

theorem checkCoinbase_ne_overflow (tx : CTransaction) : checkCoinbase tx ≠ .error .overflow := by
  unfold checkCoinbase
  split
  · simp [dos]
  cases hc : checkTransactionCommon tx with
  | error e =>
    have hne := checkTransactionCommon_ne_overflow tx
    simpa [Except.bind,hc] using hne
  | ok u =>
    dsimp only [Except.bind]
    split <;> simp [dos]

section Inputs

variable {accessCoin : COutPoint → Coin} {nSpendHeight : Nat}

def inputSum (accessCoin : COutPoint → Coin) (vin : List CTxIn) : Int :=
  (vin.map fun i => (accessCoin i.prevout).out.nValue).sum

def CoinAgrees (f g : COutPoint → Coin) (x : COutPoint) : Prop :=
  f x = g x ∨ ((f x).isSpent = true ∧ (g x).isSpent = true)

theorem checkInputValues_congr {accessCoin' : COutPoint → Coin} (vin : List CTxIn) (n : Int)
    (h : ∀ i ∈ vin, CoinAgrees accessCoin accessCoin' i.prevout) :
    checkInputValues accessCoin nSpendHeight n vin = checkInputValues accessCoin' nSpendHeight n vin := by
  induction vin generalizing n with
  | nil => rfl
  | cons i vin ih =>
    obtain ⟨hi,hvin⟩ := forall_mem_cons.mp h
    have hrest : ∀ m, checkInputValues accessCoin nSpendHeight m vin =
      checkInputValues accessCoin' nSpendHeight m vin := fun m => ih m hvin
    rcases hi with hi | ⟨h1,h2⟩
    · simp only [checkInputValues,hi,hrest]
    · simp only [checkInputValues,h1,h2,if_true]

theorem checkTxInputs_congr {accessCoin' : COutPoint → Coin} (tx : CTransaction)
    (h : ∀ i ∈ tx.vin, CoinAgrees accessCoin accessCoin' i.prevout) :
    checkTxInputs tx accessCoin nSpendHeight = checkTxInputs tx accessCoin' nSpendHeight := by
  rw [checkTxInputs,checkTxInputs,checkInputValues_congr tx.vin 0 h]

theorem checkInputValues_ok (vin : List CTxIn) {n v : Int} (hn : moneyRange n = true)
    (h : checkInputValues accessCoin nSpendHeight n vin = .ok v) :
    (∀ i ∈ vin, (accessCoin i.prevout).isSpent = false ∧ moneyRange (accessCoin i.prevout).out.nValue = true) ∧
    v = n+inputSum accessCoin vin ∧ moneyRange v = true := by
  induction vin generalizing n with
  | nil =>
    cases h
    simpa [inputSum] using hn
  | cons i vin ih =>
    rw [checkInputValues] at h
    split at h
    · cases h
    split at h
    · cases h
    split at h
    · cases h
    rename_i hspent _ _
    obtain ⟨m,hm,h⟩ := except_bind_ok.mp h
    obtain rfl := addAmount_ok hm
    split at h
    · cases h
    rename_i hrange
    simp only [Bool.or_eq_true,Bool.not_eq_true',not_or,Bool.not_eq_false] at hrange
    obtain ⟨h1,h2,h3⟩ := ih hrange.2 h
    refine ⟨forall_mem_cons.mpr ⟨⟨by simpa using hspent,hrange.1⟩,h1⟩,?_,h3⟩
    rw [h2,inputSum,inputSum,map_cons,sum_cons,add_assoc]

theorem checkInputValues_ne_overflow (nSpendHeight : Nat) (vin : List CTxIn) {n : Int} (hn : moneyRange n = true)
    (h : ∀ i ∈ vin, (accessCoin i.prevout).isSpent = false → moneyRange (accessCoin i.prevout).out.nValue = true) :
    checkInputValues accessCoin nSpendHeight n vin ≠ .error .overflow := by
  induction vin generalizing n with
  | nil => simp [checkInputValues]
  | cons i vin ih =>
    obtain ⟨hi,hvin⟩ := forall_mem_cons.mp h
    rw [checkInputValues]
    split
    · simp [dos]
    split
    · simp [dos]
    split
    · simp [dos]
    rename_i hspent _ _
    rw [addAmount_money hn (hi (by simpa using hspent))]
    dsimp only [Except.bind]
    split
    · simp [dos]
    rename_i hrange
    simp only [Bool.or_eq_true,Bool.not_eq_true',not_or,Bool.not_eq_false] at hrange
    exact ih hrange.2 hvin

theorem checkTxInputs_ok {tx : CTransaction} {fee : Int} (h : checkTxInputs tx accessCoin nSpendHeight = .ok fee) :
    (∀ i ∈ tx.vin, (accessCoin i.prevout).isSpent = false ∧ moneyRange (accessCoin i.prevout).out.nValue = true) ∧
    fee = inputSum accessCoin tx.vin-outputSum tx.vout ∧ moneyRange fee = true := by
  unfold checkTxInputs at h
  split at h
  · cases h
  obtain ⟨v,hv,h⟩ := except_bind_ok.mp h
  obtain ⟨w,hw,h⟩ := except_bind_ok.mp h
  obtain ⟨h1,h2,-⟩ := checkInputValues_ok tx.vin moneyRange_zero hv
  have hw' := getValueOutFrom_ok tx.vout hw
  split at h
  · cases h
  split at h
  · cases h
  rename_i hrange
  cases h
  refine ⟨h1,?_,by simpa using hrange⟩
  rw [h2,hw',zero_add,zero_add]

theorem checkTxInputs_ne_overflow {tx : CTransaction} (htx : CheckedCommon tx)
    (h : ∀ i ∈ tx.vin, (accessCoin i.prevout).isSpent = false → moneyRange (accessCoin i.prevout).out.nValue = true) :
    checkTxInputs tx accessCoin nSpendHeight ≠ .error .overflow := by
  unfold checkTxInputs
  split
  · simp
  cases hv : checkInputValues accessCoin nSpendHeight 0 tx.vin with
  | error e =>
    have hne := checkInputValues_ne_overflow nSpendHeight tx.vin moneyRange_zero h
    simpa [Except.bind,hv] using hne
  | ok v =>
    rw [htx.getValueOut]
    dsimp only [Except.bind]
    split
    · simp [dos]
    split <;> simp [dos]
end Inputs
end BitfiniteCore
