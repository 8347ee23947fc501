import BitfiniteCore.Script.TimeLocks

/-! # The median time past -/

namespace BitfiniteCore
open ParentTree Median

section

variable {α : Type*} (T : ParentTree α) (nTime : α → Nat)

def nMedianTimeSpan : Nat := 11

def medianLoop : Nat → Option α → List Nat → List Nat
  | i+1, some pindex, pmedian => medianLoop i (T.parent pindex) (nTime pindex::pmedian)
  | _, _, pmedian => pmedian

def medianTimePast (pindex : α) : Nat :=
  let pmedian := medianLoop T nTime nMedianTimeSpan (some pindex) []
  (pmedian.insertionSort (· ≤ ·)).getD (pmedian.length/2) 0

def mtpEnabled (activationTime : Int) (pindexPrev : Option α) : Bool :=
  match pindexPrev with
  | none => false
  | some pindexPrev => activationTime ≤ medianTimePast T nTime pindexPrev

def finalInBlock (tx : CTransaction) (block pindexPrev : α) : Bool :=
  isFinalTx tx (T.height block) (medianTimePast T nTime pindexPrev)

/-- `EvaluateSequenceLocks`. -/
def lockPairMet (lockPair : Int × Int) (block pprev : α) : Bool :=
  !(decide ((T.height block : Int) ≤ lockPair.1) || decide ((medianTimePast T nTime pprev : Int) ≤ lockPair.2))

def LaterThanMedian (tip : α) : Prop := ∀ b p, T.Anc b tip → T.parent b = some p → medianTimePast T nTime p < nTime b

def blockTimes : Nat → Option α → List Nat
  | i+1, some pindex => nTime pindex::blockTimes i (T.parent pindex)
  | _, _ => []
end

section

variable {α : Type*} {T : ParentTree α} {nTime : α → Nat} {a b p q tip : α}

theorem medianLoop_eq (i : Nat) (pindex : Option α) (pmedian : List Nat) :
    medianLoop T nTime i pindex pmedian = (blockTimes T nTime i pindex).reverse++pmedian := by
  induction i generalizing pindex pmedian with
  | zero => simp [medianLoop,blockTimes]
  | succ i ih =>
    cases pindex with
    | none => simp [medianLoop,blockTimes]
    | some pindex => simp [medianLoop,blockTimes,ih]

theorem blockTimes_take (i : Nat) (pindex : Option α) :
    (blockTimes T nTime (i+1) pindex).take i = blockTimes T nTime i pindex := by
  induction i generalizing pindex with
  | zero => simp [blockTimes]
  | succ i ih =>
    cases pindex with
    | none => simp [blockTimes]
    | some pindex => rw [blockTimes,List.take_succ_cons,ih,blockTimes]

theorem length_blockTimes (i : Nat) (pindex : Option α) : (blockTimes T nTime i pindex).length ≤ i := by
  induction i generalizing pindex with
  | zero => simp [blockTimes]
  | succ i ih =>
    cases pindex with
    | none => simp [blockTimes]
    | some pindex => simpa [blockTimes] using ih (T.parent pindex)

theorem medianTimePast_eq (b : α) : medianTimePast T nTime b = median (blockTimes T nTime 11 (some b)) := by
  have hne : blockTimes T nTime 11 (some b) ≠ [] := List.cons_ne_nil _ _
  have hmedian : medianTimePast T nTime b = median (blockTimes T nTime 11 (some b)).reverse := by
    rw [medianTimePast,nMedianTimeSpan,medianLoop_eq,List.append_nil,median]
  rw [hmedian]
  apply eq_of_forall_le_iff
  intro m
  rw [le_median_iff hne,le_median_iff (by simpa using hne),List.length_reverse,List.countP_reverse]

theorem blockTimes_lineage (i : Nat) (b : α) :
    blockTimes T nTime i (some b) = ((T.lineage b).take i).map nTime := by
  induction i generalizing b with
  | zero => rfl
  | succ i ih =>
    cases hp : T.parent b with
    | none => cases i <;> simp [blockTimes,hp,T.lineage_root hp]
    | some p => rw [blockTimes,hp,ih,T.lineage_parent hp,List.take_succ_cons,List.map_cons]

/-- The two readings of `GetMedianTimePast` agree. -/
theorem getMedianTimePast_eq (n : AblaNode) (b : BlockHash) :
    n.getMedianTimePast b = medianTimePast n.tree.toParentTree n.nTime b := by
  rw [medianTimePast_eq,blockTimes_lineage]
  rfl

theorem medianTimePast_parent (hp : T.parent b = some p) (htime : medianTimePast T nTime p < nTime b) :
    medianTimePast T nTime p ≤ medianTimePast T nTime b := by
  rw [medianTimePast_eq] at htime
  have hwindow : blockTimes T nTime 11 (some b) = nTime b::(blockTimes T nTime 11 (some p)).take (2*5) := by
    rw [blockTimes,hp,blockTimes_take]
  rw [medianTimePast_eq,medianTimePast_eq,hwindow]
  exact median_le_window (List.cons_ne_nil _ _) (length_blockTimes 11 (some p)) htime

theorem LaterThanMedian.mono (h : LaterThanMedian T nTime tip) (hab : T.Anc a b) (hb : T.Anc b tip) :
    medianTimePast T nTime a ≤ medianTimePast T nTime b := by
  induction hab with
  | refl => exact le_refl _
  | tail _ hp ih =>
    apply (ih ((Anc.of_parent hp).trans hb)).trans
    exact medianTimePast_parent hp (h _ _ hb hp)

theorem LaterThanMedian.parents (h : LaterThanMedian T nTime tip) (hab : T.Anc a b) (hb : T.Anc b tip)
    (hp : T.parent a = some p) (hq : T.parent b = some q) : medianTimePast T nTime p ≤ medianTimePast T nTime q := by
  apply h.mono _ ((Anc.of_parent hq).trans hb)
  apply ((Anc.of_parent hp).trans hab).of_height_le (Anc.of_parent hq)
  have hle := hab.height_le
  rw [T.height_parent hp,T.height_parent hq] at hle
  omega

theorem isFinalTx_mono {tx : CTransaction} {height height' time time' : Nat} (hh : height ≤ height')
    (ht : time ≤ time') (hfinal : isFinalTx tx height time = true) : isFinalTx tx height' time' = true := by
  rw [isFinalTx] at hfinal ⊢
  split_ifs at hfinal ⊢ <;> first | rfl | exact hfinal | omega
end

/-- The median time never falls along a chain, and what waits for it stays reached. -/
theorem median_time_never_back {α : Type*} {T : ParentTree α} {nTime : α → Nat} {tip : α}
    (htime : LaterThanMedian T nTime tip) :
    (∀ b p, T.Anc b tip → T.parent b = some p → medianTimePast T nTime p ≤ medianTimePast T nTime b) ∧
    (∀ a b, T.Anc a b → T.Anc b tip → ∀ activationTime, mtpEnabled T nTime activationTime (some a) = true →
      mtpEnabled T nTime activationTime (some b) = true) ∧
    (∀ a b p q, T.Anc a b → T.Anc b tip → T.parent a = some p → T.parent b = some q →
      (∀ tx, finalInBlock T nTime tx a p = true → finalInBlock T nTime tx b q = true) ∧
      ∀ lockPair, lockPairMet T nTime lockPair a p = true → lockPairMet T nTime lockPair b q = true) := by
  refine ⟨?_,?_,?_⟩
  · intro b p hb hp
    exact medianTimePast_parent hp (htime b p hb hp)
  · intro a b hab hb activationTime ha
    have hmono := htime.mono hab hb
    simp only [mtpEnabled,decide_eq_true_eq] at ha ⊢
    omega
  · intro a b p q hab hb hp hq
    have hmono := htime.parents hab hb hp hq
    have hheight := hab.height_le
    refine ⟨fun tx ha => isFinalTx_mono hheight hmono ha,fun lockPair ha => ?_⟩
    simp only [lockPairMet,Bool.not_eq_true',Bool.or_eq_false_iff,decide_eq_false_iff_not,not_le] at ha ⊢
    omega

def numberTree : ParentTree Nat where
  parent b := b.casesOn none some
  height := id
  height_parent := by
    intro b p h
    cases b with
    | zero => cases h
    | succ b => exact congrArg Nat.succ (Option.some.inj h)
  height_root := by
    intro b h
    cases b with
    | zero => rfl
    | succ b => cases h

/-- Times that go back and forth, but not below the median. -/
theorem median_time_never_back_zigzag : ∃ nTime : Nat → Nat, nTime 3 < nTime 2 ∧ LaterThanMedian numberTree nTime 3 ∧
      medianTimePast numberTree nTime 2 ≤ medianTimePast numberTree nTime 3 := by
  have htime : LaterThanMedian numberTree (fun b => [10,12,20,15].getD b 0) 3 := by
    intro b p hb hp
    have hle : b ≤ 3 := hb.height_le
    cases b with
    | zero => cases hp
    | succ b =>
      obtain rfl : b = p := Option.some.inj hp
      have hall : ∀ b < 3, medianTimePast numberTree (fun b => [10,12,20,15].getD b 0) b <
          [10,12,20,15].getD (b+1) 0 := by decide
      exact hall b hle
  exact ⟨_,by decide,htime,(median_time_never_back htime).1 3 2 (.refl 3) rfl⟩
end BitfiniteCore
