import BitfiniteCore.Validation.Undo

/-!
# Transactions waiting for a block

The pool is the list of its transactions from the newest entry to the oldest.
-/

namespace BitfiniteCore
open List

section Pool

/-- `mapNextTx` holds the outpoint. -/
def poolSpends (pool : List CTransaction) (x : COutPoint) : Bool :=
  pool.any fun tx => tx.vin.any fun txin => txin.prevout == x

def poolSpendsFrom (pool : List CTransaction) (txid : TxId) : Bool :=
  pool.any fun tx => tx.vin.any fun txin => txin.prevout.txid == txid

def haveCoin (coins : CoinMap) (pool : List CTransaction) (x : COutPoint) : Bool :=
  match pool.find? fun tx => tx.getId == x.txid with
  | some tx => decide (x.n < tx.vout.length)
  | none => (coins x).isSome

def removeDescendants (txids : List TxId) : List CTransaction → List CTransaction × List TxId
  | [] => ([],txids)
  | tx::older =>
    let r := removeDescendants txids older
    if tx.getId ∈ r.2 ∨ tx.vin.any fun txin => decide (txin.prevout.txid ∈ r.2) then (r.1,tx.getId::r.2)
    else (tx::r.1,r.2)

def removeRecursive (txids : List TxId) (pool : List CTransaction) : List CTransaction :=
  (removeDescendants txids pool).1

/-- The checks that do not look at the other entries: standardness, locks, fees, tokens and scripts. -/
abbrev PoolPolicy := CoinMap → List CTransaction → CTransaction → Bool

/-- `AcceptToMemoryPool`; `trimmed` are the entries that `LimitSize` picks after the insertion. -/
def acceptToMemoryPool (policy : PoolPolicy) (coins : CoinMap) (tx : CTransaction) (trimmed : List TxId)
    (pool : List CTransaction) : List CTransaction :=
  if tx.isCoinBase then pool
  else if !policy coins pool tx then pool
  else if pool.any fun entry => entry.getId == tx.getId then pool
  else if tx.vin.any fun txin => poolSpends pool txin.prevout then pool
  else if !tx.vin.all fun txin => haveCoin coins pool txin.prevout then pool
  -- no children before parents
  else if poolSpendsFrom pool tx.getId then pool
  else removeRecursive trimmed (tx::pool)
end Pool

section Consistency

def Available (coins : CoinMap) (older : List CTransaction) (x : COutPoint) : Prop :=
  (∃ parent ∈ older, parent.getId = x.txid ∧ x.n < parent.vout.length) ∨ (coins x).isSome = true

def PoolConsistent (coins : CoinMap) : List CTransaction → Prop
  | [] => True
  | tx::older => (∀ txin ∈ tx.vin, Available coins older txin.prevout) ∧
      (∀ entry ∈ older, entry.getId ≠ tx.getId) ∧ PoolConsistent coins older

variable {coins coins' : CoinMap} {pool : List CTransaction}

theorem removeDescendants_subset (txids : List TxId) (pool : List CTransaction) :
    (removeDescendants txids pool).1 ⊆ pool := by
  induction pool with
  | nil => exact List.Subset.refl _
  | cons tx older ih =>
    unfold removeDescendants
    dsimp only
    split
    · exact List.Subset.trans ih (subset_cons_self tx older)
    · exact cons_subset_cons tx ih

theorem removeRecursive_subset (txids : List TxId) (pool : List CTransaction) : removeRecursive txids pool ⊆ pool :=
  removeDescendants_subset txids pool

theorem removeDescendants_named (txids : List TxId) {tx : CTransaction} (hmem : tx ∈ pool)
    (hnot : tx ∉ (removeDescendants txids pool).1) : tx.getId ∈ (removeDescendants txids pool).2 := by
  induction pool with
  | nil => cases hmem
  | cons head older ih =>
    unfold removeDescendants at hnot ⊢
    dsimp only at hnot ⊢
    split at hnot
    · rename_i hcond
      rw [if_pos hcond]
      obtain rfl | hold := mem_cons.mp hmem
      · exact mem_cons_self
      · exact mem_cons_of_mem _ (ih hold hnot)
    · rename_i hcond
      rw [if_neg hcond]
      rw [mem_cons,not_or] at hnot
      obtain rfl | hold := mem_cons.mp hmem
      · exact absurd rfl hnot.1
      · exact ih hold hnot.2

theorem PoolConsistent.removeRecursive (h : PoolConsistent coins pool) (txids : List TxId) :
    PoolConsistent coins (removeRecursive txids pool) := by
  induction pool with
  | nil => trivial
  | cons tx older ih =>
    obtain ⟨hin,hid,hold⟩ := h
    unfold BitfiniteCore.removeRecursive removeDescendants
    dsimp only
    split
    · exact ih hold
    · rename_i hkept
      rw [not_or] at hkept
      refine ⟨fun txin hi => ?_,fun entry he => hid entry (removeDescendants_subset txids older he),ih hold⟩
      obtain ⟨parent,hp,hpid,hn⟩ | hcoin := hin txin hi
      · left
        refine ⟨parent,?_,hpid,hn⟩
        -- had the parent been removed, this entry would have gone with it
        by_contra hgone
        apply hkept.2
        rw [any_eq_true]
        refine ⟨txin,hi,decide_eq_true ?_⟩
        rw [← hpid]
        exact removeDescendants_named txids hp hgone
      · exact .inr hcoin

theorem available_of_haveCoin {x : COutPoint} (h : haveCoin coins pool x = true) : Available coins pool x := by
  unfold haveCoin at h
  split at h
  · rename_i tx hfind
    have hid : tx.getId = x.txid := by simpa using List.find?_some hfind
    exact .inl ⟨tx,List.mem_of_find?_eq_some hfind,hid,of_decide_eq_true h⟩
  · exact .inr h

theorem PoolConsistent.accept (h : PoolConsistent coins pool) (policy : PoolPolicy) (tx : CTransaction)
    (trimmed : List TxId) : PoolConsistent coins (acceptToMemoryPool policy coins tx trimmed pool) := by
  unfold acceptToMemoryPool
  split_ifs with hcb hpolicy hknown hconflict hcoins hchildren
  · exact h
  · exact h
  · exact h
  · exact h
  · exact h
  · exact h
  · apply PoolConsistent.removeRecursive
    simp only [Bool.not_eq_eq_eq_not,Bool.not_true] at hcoins
    simp only [any_eq_true,not_exists,not_and,beq_iff_eq] at hknown
    refine ⟨fun txin hi => available_of_haveCoin ?_,hknown,h⟩
    rw [Bool.not_eq_false,all_eq_true] at hcoins
    exact hcoins txin hi

theorem accept_subset (policy : PoolPolicy) (tx : CTransaction) (trimmed : List TxId) :
    acceptToMemoryPool policy coins tx trimmed pool ⊆ tx::pool := by
  unfold acceptToMemoryPool
  split_ifs
  all_goals first
    | exact subset_cons_self tx pool
    | exact removeRecursive_subset trimmed (tx::pool)

theorem PoolConsistent.of_coins (h : PoolConsistent coins pool)
    (hkeep : ∀ tx ∈ pool, ∀ txin ∈ tx.vin, (coins txin.prevout).isSome = true →
      (coins' txin.prevout).isSome = true) : PoolConsistent coins' pool := by
  induction pool with
  | nil => trivial
  | cons tx older ih =>
    obtain ⟨hin,hid,hold⟩ := h
    rw [forall_mem_cons] at hkeep
    exact ⟨fun txin hi => (hin txin hi).imp_right (hkeep.1 txin hi),hid,ih hold hkeep.2⟩

theorem PoolConsistent.inputs (h : PoolConsistent coins pool) : ∀ tx ∈ pool, ∀ txin ∈ tx.vin,
      (∃ parent ∈ pool, parent.getId ≠ tx.getId ∧ parent.getId = txin.prevout.txid ∧
        txin.prevout.n < parent.vout.length) ∨ (coins txin.prevout).isSome = true := by
  induction pool with
  | nil => exact fun _ hmem => nomatch hmem
  | cons head older ih =>
    obtain ⟨hin,hid,hold⟩ := h
    intro tx hmem txin hi
    obtain rfl | hmem := mem_cons.mp hmem
    · obtain ⟨parent,hp,hrest⟩ | hcoin := hin txin hi
      · exact .inl ⟨parent,mem_cons_of_mem _ hp,hid parent hp,hrest⟩
      · exact .inr hcoin
    · obtain ⟨parent,hp,hrest⟩ | hcoin := ih hold tx hmem txin hi
      · exact .inl ⟨parent,mem_cons_of_mem _ hp,hrest⟩
      · exact .inr hcoin
end Consistency
end BitfiniteCore
