import BitfiniteCore.Lib.GuardedRun
import Mathlib.Algebra.BigOperators.Fin
import Mathlib.Algebra.Order.BigOperators.Group.Finset
import Mathlib.Data.Fintype.Option
import Mathlib.Tactic.Abel

/-!
# The script check queue

The threads are `some i` for the workers and `none` for the master.  A step is one critical section,
one check outside of it, or a call of the master.
-/

namespace BitfiniteCore

namespace CheckQueue

/-- Where a thread is in `Loop`. -/
inductive LoopState (T : Type) where
  /-- Not in the loop. -/
  | outside
  /-- Before the first lock, with `nNow = 0`. -/
  | first
  /-- In `cond.wait`. -/
  | waiting
  /-- Unlocked, with a batch of `nNow` checks of which `vChecks` are left. -/
  | batch (nNow : Nat) (vChecks : List T) (fOk : Bool)

def LoopState.nNow {T : Type} : LoopState T → Nat
  | .batch n _ _ => n
  | _ => 0

/-- The checks that the thread still holds. -/
def LoopState.vChecks {T : Type} : LoopState T → Multiset T
  | .batch _ l _ => l
  | _ => 0

/-- No failure is waiting to be folded in. -/
def LoopState.fine {T : Type} : LoopState T → Prop
  | .batch _ _ fOk => fOk = true
  | _ => True

/-- `added`, `executed` and `skipped` record what happened to the checks since the last `Wait`. -/
structure State (ι T : Type) where
  queue : List T
  nTodo : BitVec 32
  nTotal : Nat
  nIdle : Nat
  fAllOk : Bool
  threads : Option ι → LoopState T
  added : Multiset T
  executed : Multiset T
  skipped : Multiset T

variable {ι T : Type} [DecidableEq ι]

namespace State

def init : State ι T := ⟨[],0,0,0,true,fun _ => .outside,0,0,0⟩

def set (s : State ι T) (j : Option ι) (l : LoopState T) : State ι T :=
  { s with threads := Function.update s.threads j l }

variable (s : State ι T) (j : Option ι)

@[simp] theorem set_threads_self (l : LoopState T) : (s.set j l).threads j = l := by simp [set]
end State

section Loop

variable (nBatchSize : Nat) (check : T → Bool)

/-- `nNow` of the next batch; the size of the queue is cast to 32 bits. -/
def batchSize (s : State ι T) : Nat := max 1 (min nBatchSize (s.queue.length%2^32/(s.nTotal+s.nIdle+1)))

/-- The clean-up of the previous loop run. -/
def fold (s : State ι T) (j : Option ι) : State ι T :=
  match s.threads j with
  | .batch nNow _ fOk => { s with fAllOk := s.fAllOk && fOk, nTodo := s.nTodo-BitVec.ofNat 32 nNow }
  | .first => { s with nTotal := s.nTotal+1 }
  | .waiting => { s with nIdle := s.nIdle-1 }
  | .outside => s

def settle (s : State ι T) (j : Option ι) : State ι T × Option Bool :=
  if s.queue.isEmpty then
    if j = none ∧ s.nTodo = 0 then
      (State.set { s with nTotal := s.nTotal-1, fAllOk := true, added := 0, executed := 0, skipped := 0 }
        j .outside,some s.fAllOk)
    else (State.set { s with nIdle := s.nIdle+1 } j .waiting,none)
  else
    let nNow := batchSize nBatchSize s
    (State.set { s with queue := s.queue.take (s.queue.length-nNow) } j
      (.batch nNow (s.queue.drop (s.queue.length-nNow)).reverse s.fAllOk),none)

inductive Event (ι T : Type) where
  | enterLoop (j : Option ι)
  | add (vChecks : List T)
  /-- A critical section of the loop; `Wait` may return a result from it. -/
  | lock (j : Option ι) (result : Option Bool)
  | run (j : Option ι)

def Locks : LoopState T → Prop
  | .first | .waiting | .batch _ [] _ => True
  | _ => False

inductive Step : State ι T → Event ι T → State ι T → Prop
  | enterLoop {s : State ι T} {j : Option ι} (h : s.threads j = .outside) : Step s (.enterLoop j) (s.set j .first)
  | add {s : State ι T} {vChecks : List T} (h : s.threads none = .outside) : Step s (.add vChecks) { s with
        queue := s.queue++vChecks, nTodo := s.nTodo+BitVec.ofNat 32 vChecks.length, added := s.added+vChecks }
  | lock {s : State ι T} {j : Option ι} (h : Locks (s.threads j)) :
      Step s (.lock j (settle nBatchSize (fold s j) j).2) (settle nBatchSize (fold s j) j).1
  | execute {s : State ι T} {j : Option ι} {nNow : Nat} {c : T} {vChecks : List T}
      (h : s.threads j = .batch nNow (c::vChecks) true) :
      Step s (.run j) (State.set { s with executed := c ::ₘ s.executed } j (.batch nNow vChecks (check c)))
  | skip {s : State ι T} {j : Option ι} {nNow : Nat} {c : T} {vChecks : List T}
      (h : s.threads j = .batch nNow (c::vChecks) false) :
      Step s (.run j) (State.set { s with skipped := c ::ₘ s.skipped } j (.batch nNow vChecks false))

/-- With the checks that `Add` brings, fewer than `2^32` checks are queued or in a batch. -/
def FewTodo [Fintype ι] (s : State ι T) (e : Event ι T) : Prop :=
  ∀ vChecks, e = .add vChecks → s.queue.length+∑ j, (s.threads j).nNow+vChecks.length < 2^32

def Reachable [Fintype ι] (s : State ι T) : Prop := GuardedRun.Reaches (Step nBatchSize check) FewTodo State.init s
end Loop

variable [Fintype ι]

/-- Every check is queued, held, executed or skipped; a failure is known to somebody. -/
structure Inv (check : T → Bool) (s : State ι T) : Prop where
  todo : s.nTodo = BitVec.ofNat 32 (s.queue.length+∑ j, (s.threads j).nNow)
  few : s.queue.length+∑ j, (s.threads j).nNow < 2^32
  checks : s.added = s.queue+∑ j, (s.threads j).vChecks+s.executed+s.skipped
  positive : ∀ j n l b, s.threads j = .batch n l b → 0 < n
  fine : (s.fAllOk = true ∧ ∀ j, (s.threads j).fine) ↔ (∀ c ∈ s.executed, check c = true) ∧ s.skipped = 0

section Invariant

variable {nBatchSize : Nat} {check : T → Bool} {s s' : State ι T} {j : Option ι} {l : LoopState T}

omit [DecidableEq ι] [Fintype ι] in
theorem inv_init [Fintype ι] : Inv check (State.init : State ι T) where
  todo := by simp [State.init,LoopState.nNow]
  few := by simp [State.init,LoopState.nNow]
  checks := by simp [State.init,LoopState.vChecks]
  positive := by simp [State.init]
  fine := by simp [State.init,LoopState.fine]

theorem sum_update {M : Type} [AddCommMonoid M] (g : LoopState T → M) (f : Option ι → LoopState T)
    (j : Option ι) (l : LoopState T) :
    (∑ i, g (Function.update f j l i))+g (f j) = (∑ i, g (f i))+g l := by
  have hset : ∑ i, g (Function.update f j l i) = g l+∑ i ∈ Finset.univ.erase j, g (f i) := by
    rw [← Finset.add_sum_erase _ _ (Finset.mem_univ j)]
    congr 1
    · simp
    · refine Finset.sum_congr rfl fun i hi => ?_
      simp [Finset.ne_of_mem_erase hi]
  rw [hset,← Finset.add_sum_erase _ (fun i => g (f i)) (Finset.mem_univ j)]
  abel

omit [Fintype ι] in
theorem forall_update {P : LoopState T → Prop} (f : Option ι → LoopState T) (j : Option ι) (l : LoopState T) :
    (∀ i, P (Function.update f j l i)) ↔ P l ∧ ∀ i, i ≠ j → P (f i) := by
  constructor
  · intro h
    refine ⟨by simpa using h j,fun i hi => ?_⟩
    simpa [hi] using h i
  · rintro ⟨hl,hrest⟩ i
    by_cases hi : i = j
    · subst hi
      simpa using hl
    · simpa [hi] using hrest i hi

def AllGood (check : T → Bool) (s : State ι T) : Prop := (∀ c ∈ s.executed, check c = true) ∧ s.skipped = 0

/-- The counts and the checks balance at the one thread that changes. -/
theorem Inv.of_update (h : Inv check s) (ht : s'.threads = Function.update s.threads j l)
    (htodo : s'.nTodo+BitVec.ofNat 32 (s.queue.length+(s.threads j).nNow) =
      s.nTodo+BitVec.ofNat 32 (s'.queue.length+l.nNow))
    (hfew : s'.queue.length+∑ i, (s.threads i).nNow+l.nNow < 2^32+(s.threads j).nNow)
    (hchecks : s'.added+(s.queue+(s.threads j).vChecks+s.executed+s.skipped) =
      s.added+(s'.queue+l.vChecks+s'.executed+s'.skipped))
    (hpos : ∀ n k b, l = .batch n k b → 0 < n)
    (hfine : ∀ others : Prop, (s.fAllOk = true ∧ (s.threads j).fine ∧ others ↔ AllGood check s) →
      (s'.fAllOk = true ∧ l.fine ∧ others ↔ AllGood check s')) : Inv check s' := by
  have hsum := sum_update LoopState.nNow s.threads j l
  refine ⟨?_,?_,?_,?_,?_⟩
  · rw [← BitVec.add_left_inj (BitVec.ofNat 32 (s.queue.length+(s.threads j).nNow)),htodo,h.todo,ht,← BitVec.ofNat_add,← BitVec.ofNat_add]
    congr 1
    omega
  · rw [ht]
    omega
  · have hsum := sum_update LoopState.vChecks s.threads j l
    rw [ht]
    apply add_right_cancel (b := s.queue+(s.threads j).vChecks+s.executed+s.skipped)
    rw [hchecks,h.checks]
    calc _ = ((∑ i, (s.threads i).vChecks)+l.vChecks)+
          (s.queue+s.executed+s.skipped+s'.queue+s'.executed+s'.skipped) := by abel
      _ = _ := by
        rw [← hsum]
        abel
  · intro i n k b hi
    rw [ht] at hi
    by_cases he : i = j
    · subst he
      rw [Function.update_self] at hi
      exact hpos n k b hi
    · rw [Function.update_of_ne he] at hi
      exact h.positive i n k b hi
  · have hold := h.fine
    rw [← Function.update_eq_self j s.threads,forall_update] at hold
    rw [ht,forall_update]
    exact hfine _ hold

theorem Inv.move (h : Inv check s) {l' : LoopState T} (hj : s.threads j = l')
    (ht : s'.threads = Function.update s.threads j l)
    (hsame : s'.queue = s.queue ∧ s'.nTodo = s.nTodo ∧ s'.fAllOk = s.fAllOk ∧ s'.added = s.added ∧
      s'.executed = s.executed ∧ s'.skipped = s.skipped)
    (hl' : l' = .outside ∨ l' = .first ∨ l' = .waiting) (hl : l = .outside ∨ l = .first ∨ l = .waiting) :
    Inv check s' := by
  obtain ⟨hq,hn,ha,hadd,he,hs⟩ := hsame
  have hold : l'.nNow = 0 ∧ l'.vChecks = 0 ∧ l'.fine := by
    rcases hl' with rfl | rfl | rfl <;> exact ⟨rfl,rfl,trivial⟩
  have hnew : l.nNow = 0 ∧ l.vChecks = 0 ∧ l.fine := by
    rcases hl with rfl | rfl | rfl <;> exact ⟨rfl,rfl,trivial⟩
  refine h.of_update ht ?_ ?_ ?_ ?_ ?_
  · rw [hj,hold.1,hnew.1,hq,hn]
  · rw [hj,hold.1,hnew.1,hq]
    exact h.few
  · rw [hj,hold.2.1,hnew.2.1,hq,hadd,he,hs]
  · intro n k b hb
    rcases hl with rfl | rfl | rfl <;> cases hb
  · intro others hothers
    rw [hj] at hothers
    simp only [AllGood,ha,he,hs,hold.2.2,hnew.2.2] at hothers ⊢
    exact hothers

omit [DecidableEq ι] in
theorem nNow_le_sum (s : State ι T) (j : Option ι) : (s.threads j).nNow ≤ ∑ i, (s.threads i).nNow :=
  Finset.single_le_sum (f := fun i => (s.threads i).nNow) (fun _ _ => Nat.zero_le _) (Finset.mem_univ j)

theorem Inv.fold (h : Inv check s) (hlock : Locks (s.threads j)) : Inv check ((fold s j).set j .outside) := by
  unfold CheckQueue.fold
  cases hj : s.threads j with
  | outside => simp [hj,Locks] at hlock
  | first => exact h.move hj rfl ⟨rfl,rfl,rfl,rfl,rfl,rfl⟩ (.inr (.inl rfl)) (.inl rfl)
  | waiting => exact h.move hj rfl ⟨rfl,rfl,rfl,rfl,rfl,rfl⟩ (.inr (.inr rfl)) (.inl rfl)
  | batch n k fOk =>
    have hk : k = [] := by
      cases k with
      | nil => rfl
      | cons c k => simp [hj,Locks] at hlock
    subst hk
    refine h.of_update (l := .outside) rfl ?_ ?_ ?_ (by simp) ?_
    · simp only [hj,State.set,LoopState.nNow,BitVec.ofNat_add,Nat.add_zero]
      rw [BitVec.add_comm (BitVec.ofNat 32 s.queue.length),← BitVec.add_assoc,BitVec.sub_add_cancel]
    · rw [hj]
      exact Nat.lt_add_right n h.few
    · simp [hj,State.set,LoopState.vChecks]
    · intro others hothers
      simp only [hj,LoopState.fine,AllGood,State.set,Bool.and_eq_true] at hothers ⊢
      rw [← hothers]
      tauto

omit [Fintype ι] in
theorem settle_set (s : State ι T) (j : Option ι) (l : LoopState T) :
    settle nBatchSize (s.set j l) j = settle nBatchSize s j := by
  simp only [settle,State.set,batchSize,Function.update_idem]

omit [DecidableEq ι] [Fintype ι] in
theorem batchSize_le (h : s.queue ≠ []) : batchSize nBatchSize s ≤ s.queue.length := by
  have hpos : 0 < s.queue.length := List.length_pos_iff.mpr h
  have hdiv : s.queue.length%2^32/(s.nTotal+s.nIdle+1) ≤ s.queue.length :=
    (Nat.div_le_self _ _).trans (Nat.mod_le _ _)
  unfold batchSize
  omega

omit [DecidableEq ι] in
theorem Inv.no_batch (h : Inv check s) (hq : s.queue = []) (hn : s.nTodo = 0) (i : Option ι) (n : Nat)
    (k : List T) (b : Bool) : s.threads i ≠ .batch n k b := by
  intro hi
  have hle := nNow_le_sum s i
  have hpos := h.positive i n k b hi
  have hzero : ∑ j, (s.threads j).nNow = 0 := by
    have htodo := congrArg BitVec.toNat h.todo
    rw [hq,hn,List.length_nil,Nat.zero_add,BitVec.toNat_ofNat,Nat.mod_eq_of_lt (Nat.lt_of_le_of_lt (Nat.le_add_left ..) h.few)] at htodo
    exact htodo.symm
  rw [hi,hzero] at hle
  exact absurd hle (by simpa [LoopState.nNow] using hpos.ne')

omit [DecidableEq ι] in
theorem Inv.void (h : Inv check s) (hq : s.queue = []) (hn : s.nTodo = 0) (i : Option ι) :
    (s.threads i).vChecks = 0 ∧ (s.threads i).fine := by
  cases hi : s.threads i with
  | outside => exact ⟨rfl,trivial⟩
  | first => exact ⟨rfl,trivial⟩
  | waiting => exact ⟨rfl,trivial⟩
  | batch n k b => exact absurd hi (h.no_batch hq hn i n k b)

omit [DecidableEq ι] in
theorem Inv.quiet (h : Inv check s) (hq : s.queue = []) (hn : s.nTodo = 0) :
    s.added = s.executed+s.skipped ∧ (s.fAllOk = true ↔ AllGood check s) := by
  have hvoid := h.void hq hn
  constructor
  · have hchecks := h.checks
    rw [Finset.sum_eq_zero fun i _ => (hvoid i).1,hq] at hchecks
    simpa using hchecks
  · have hfine := h.fine
    rw [AllGood,← hfine]
    exact ⟨fun ha => ⟨ha,fun i => (hvoid i).2⟩,And.left⟩

theorem Inv.settle (h : Inv check s) (hj : s.threads j = .outside) : Inv check (settle nBatchSize s j).1 := by
  unfold CheckQueue.settle
  split
  · rename_i hempty
    have hq : s.queue = [] := List.isEmpty_iff.mp hempty
    split
    · rename_i hret
      -- the master returns: what is recorded starts over
      have hvoid := h.void hq hret.2
      have hthreads : Function.update s.threads j .outside = s.threads := by
        rw [← hj,Function.update_eq_self]
      have hnone : ∑ i, (s.threads i).nNow = 0 := by
        refine Finset.sum_eq_zero fun i _ => ?_
        cases hi : s.threads i with
        | batch n k b => exact absurd hi (h.no_batch hq hret.2 i n k b)
        | _ => rfl
      refine ⟨?_,?_,?_,?_,?_⟩
      · simp only [State.set,hthreads]
        exact h.todo
      · simp [State.set,hthreads,hq,hnone]
      · simp only [State.set,hthreads,hq,Finset.sum_eq_zero fun i _ => (hvoid i).1]
        simp
      · simp only [State.set,hthreads]
        exact h.positive
      · simp only [State.set,hthreads]
        exact iff_of_true ⟨trivial,fun i => (hvoid i).2⟩ ⟨by simp,trivial⟩
    · exact h.move hj rfl ⟨rfl,rfl,rfl,rfl,rfl,rfl⟩ (.inl rfl) (.inr (.inr rfl))
  · rename_i hempty
    have hq : s.queue ≠ [] := fun he => hempty (List.isEmpty_iff.mpr he)
    have hle : batchSize nBatchSize s ≤ s.queue.length := batchSize_le hq
    have hpos : 0 < batchSize nBatchSize s := Nat.lt_of_lt_of_le Nat.zero_lt_one (le_max_left ..)
    have hlen : (s.queue.take (s.queue.length-batchSize nBatchSize s)).length+batchSize nBatchSize s = s.queue.length := by
      rw [List.length_take]
      omega
    refine h.of_update (l := .batch _ _ _) rfl ?_ ?_ ?_ ?_ ?_
    · simp only [hj,State.set,LoopState.nNow,hlen,Nat.add_zero]
    · have hold := h.few
      rw [← hlen] at hold
      rw [hj]
      show (s.queue.take (s.queue.length-batchSize nBatchSize s)).length+∑ i, (s.threads i).nNow+
        batchSize nBatchSize s < 2^32+0
      omega
    · have hsplit : ((s.queue.take (s.queue.length-batchSize nBatchSize s) : List T) : Multiset T)+
          ((s.queue.drop (s.queue.length-batchSize nBatchSize s)).reverse : List T) = s.queue := by
        rw [Multiset.coe_reverse,Multiset.coe_add,List.take_append_drop]
      simp only [hj,State.set,LoopState.vChecks,hsplit,add_zero]
    · intro n k b hb
      cases hb
      exact hpos
    · intro others hothers
      simp only [hj,LoopState.fine,AllGood,State.set] at hothers ⊢
      rw [← hothers]
      tauto

theorem Inv.step {e : Event ι T} (h : Inv check s) (hguard : FewTodo s e) (hstep : Step nBatchSize check s e s') :
    Inv check s' := by
  cases hstep with
  | enterLoop hj => exact h.move hj rfl ⟨rfl,rfl,rfl,rfl,rfl,rfl⟩ (.inl rfl) (.inr (.inl rfl))
  | @add vChecks hj =>
    refine h.of_update (j := none) (l := s.threads none) (Function.update_eq_self _ _).symm ?_ ?_ ?_ ?_ ?_
    · simp only [List.length_append,BitVec.ofNat_add]
      ac_rfl
    · have hadd := hguard vChecks rfl
      simp only [List.length_append]
      omega
    · simp only [← Multiset.coe_add]
      abel
    · simp [hj]
    · exact fun _ => id
  | @lock j hlock =>
    rw [← settle_set (CheckQueue.fold s j) j .outside]
    exact (h.fold hlock).settle (State.set_threads_self ..)
  | @execute j n c k hj =>
    refine h.of_update (l := .batch n k (check c)) rfl ?_ ?_ ?_ ?_ ?_
    · simp only [hj,State.set,LoopState.nNow]
    · rw [hj]
      exact Nat.add_lt_add_right h.few n
    · simp only [hj,State.set,LoopState.vChecks,← Multiset.cons_coe,← Multiset.singleton_add]
      abel
    · intro n' k' b hb
      cases hb
      exact h.positive j n _ _ hj
    · intro others hothers
      simp only [hj,LoopState.fine,AllGood,State.set,true_and,Multiset.mem_cons,forall_eq_or_imp] at hothers ⊢
      tauto
  | @skip j n c k hj =>
    refine h.of_update (l := .batch n k false) rfl ?_ ?_ ?_ ?_ ?_
    · simp only [hj,State.set,LoopState.nNow]
    · rw [hj]
      exact Nat.add_lt_add_right h.few n
    · simp only [hj,State.set,LoopState.vChecks,← Multiset.cons_coe,← Multiset.singleton_add]
      abel
    · intro n' k' b hb
      cases hb
      exact h.positive j n _ _ hj
    · intro others _
      simp [LoopState.fine,AllGood,State.set]

theorem Reachable.inv (h : Reachable nBatchSize check s) : Inv check s :=
  GuardedRun.Reaches.invariant h inv_init fun hinv hguard hstep => hinv.step hguard hstep

omit [Fintype ι] in
theorem settle_returns {r : Bool} (hr : (settle nBatchSize s j).2 = some r) :
    j = none ∧ s.queue = [] ∧ s.nTodo = 0 ∧ r = s.fAllOk ∧ (settle nBatchSize s j).1 = State.set { s with
        nTotal := s.nTotal-1, fAllOk := true, added := 0, executed := 0, skipped := 0 } j .outside := by
  unfold CheckQueue.settle at hr ⊢
  split_ifs at hr ⊢ with hempty hret
  simp only [Option.some.injEq] at hr
  exact ⟨hret.1,List.isEmpty_iff.mp hempty,hret.2,hr.symm,rfl⟩

omit [DecidableEq ι] [Fintype ι] in
theorem fold_record (s : State ι T) (j : Option ι) :
    (fold s j).added = s.added ∧ (fold s j).executed = s.executed ∧ (fold s j).skipped = s.skipped := by
  unfold fold
  split <;> exact ⟨rfl,rfl,rfl⟩

/-- While fewer than `2^32` checks are queued or in a batch, a check is executed at most once and `Wait` returns the conjunction of
the checks of the round. -/
theorem wait_computes_conjunction (h : Reachable nBatchSize check s) : s.executed ≤ s.added ∧
    ∀ j r, Step nBatchSize check s (.lock j (some r)) s' → j = none ∧ s'.nTodo = 0 ∧ s'.queue = [] ∧
      (∀ i n k b, s'.threads i ≠ .batch n k b) ∧
      (r = true ↔ s.executed = s.added ∧ ∀ c ∈ s.executed, check c = true) ∧
      s'.fAllOk = true ∧ s'.added = 0 ∧ s'.executed = 0 := by
  have hinv := h.inv
  constructor
  · rw [hinv.checks,add_assoc,add_comm,add_assoc]
    exact Multiset.le_add_right ..
  · intro j r hstep
    have hinv' := hinv.step (by simp [FewTodo]) hstep
    generalize he : Event.lock j (some r) = e at hstep
    cases hstep with
    | @lock j' hlock =>
      rw [Event.lock.injEq] at he
      obtain ⟨rfl,hr⟩ := he
      rw [← settle_set (fold s j) j .outside] at hr hinv' ⊢
      obtain ⟨hj,hq,hn,hres,hs'⟩ := settle_returns hr.symm
      obtain ⟨hadded,hexecuted,hskipped⟩ := fold_record s j
      obtain ⟨hsplit,hgood⟩ := (hinv.fold hlock).quiet hq hn
      rw [hs'] at hinv' ⊢
      refine ⟨hj,hn,hq,hinv'.no_batch hq hn,?_,rfl,rfl,rfl⟩
      rw [hres,hgood]
      simp only [AllGood,State.set,hadded,hexecuted,hskipped] at hsplit ⊢
      rw [and_comm,hsplit]
      refine and_congr_left fun _ => ?_
      constructor
      · intro hz
        rw [hz,add_zero]
      · intro heq
        exact left_eq_add.mp heq
    | _ => cases he
end Invariant

section TwoChecks

/-- A worker and the master; each takes one of the two checks and the one of the worker fails. -/
def twoAdded : State Unit Bool := { State.init with queue := [true,false], nTodo := 2, added := {true,false} }

def workerTook : State Unit Bool := (settle 1 (fold (twoAdded.set (some ()) .first) (some ())) (some ())).1

def masterTook : State Unit Bool := (settle 1 (fold (workerTook.set none .first) none) none).1

def workerRan : State Unit Bool :=
  State.set { masterTook with executed := {false} } (some ()) (.batch 1 [] false)

def masterRan : State Unit Bool :=
  State.set { workerRan with executed := {true,false} } none (.batch 1 [] true)

def workerWaits : State Unit Bool := (settle 1 (fold masterRan (some ())) (some ())).1

theorem workerWaits_reachable : Reachable 1 id workerWaits := by
  have hadd : Reachable 1 id twoAdded :=
    GuardedRun.Reaches.refl.tail (e := .add [true,false]) (by simp [FewTodo,State.init,LoopState.nNow]) (.add rfl)
  have henter : Reachable 1 id (twoAdded.set (some ()) .first) :=
    hadd.tail (e := .enterLoop (some ())) (by simp [FewTodo]) (.enterLoop rfl)
  have htake : Reachable 1 id workerTook := henter.tail (e := .lock (some ()) none) (by simp [FewTodo]) (.lock trivial)
  have henter' : Reachable 1 id (workerTook.set none .first) :=
    htake.tail (e := .enterLoop none) (by simp [FewTodo]) (.enterLoop rfl)
  have htake' : Reachable 1 id masterTook := henter'.tail (e := .lock none none) (by simp [FewTodo]) (.lock trivial)
  have hrun : Reachable 1 id workerRan :=
    htake'.tail (e := .run (some ())) (by simp [FewTodo]) (.execute (c := false) rfl)
  have hrun' : Reachable 1 id masterRan := hrun.tail (e := .run none) (by simp [FewTodo]) (.execute (c := true) rfl)
  exact hrun'.tail (e := .lock (some ()) none) (by simp [FewTodo]) (.lock trivial)

/-- The master returns the failure that the worker found. -/
theorem wait_computes_conjunction_worker : ∃ s' : State Unit Bool,
    Step 1 id workerWaits (.lock none (some false)) s' ∧ workerWaits.executed ≤ workerWaits.added ∧
      s'.nTodo = 0 ∧ s'.queue = [] ∧ s'.fAllOk = true ∧
      ¬ (workerWaits.executed = workerWaits.added ∧ ∀ c ∈ workerWaits.executed, id c = true) := by
  have hstep : Step 1 id workerWaits (.lock none (some false)) (settle 1 (fold workerWaits none) none).1 := .lock trivial
  obtain ⟨hle,hret⟩ : _ ∧ ∀ j r, Step 1 id workerWaits (.lock j (some r)) (settle 1 (fold workerWaits none) none).1 → _ :=
    wait_computes_conjunction workerWaits_reachable
  obtain ⟨-,hn,hq,-,hr,hok,-⟩ := hret none false hstep
  exact ⟨_,hstep,hle,hn,hq,hok,fun h => Bool.false_ne_true (hr.mpr h)⟩
end TwoChecks

section Wrap

omit [Fintype ι]

variable {nBatchSize : Nat} {s start : State ι Unit} {held : BitVec 32} {n q k : Nat}

abbrev Run (nBatchSize : Nat) : State ι Unit → State ι Unit → Prop :=
  GuardedRun.Reaches (Step nBatchSize fun _ => true) fun _ _ => True

theorem settle_replicate (nBatchSize : Nat) (hq : s.queue = List.replicate q ()) (hpos : 0 < q) (j : Option ι) :
    batchSize nBatchSize s ≤ q ∧ settle nBatchSize s j =
      (State.set { s with queue := List.replicate (q-batchSize nBatchSize s) () } j
        (.batch (batchSize nBatchSize s) (List.replicate (batchSize nBatchSize s) ()) s.fAllOk),none) := by
  have hne : s.queue ≠ [] := by
    rw [hq]
    simp only [ne_eq,List.replicate_eq_nil_iff]
    omega
  have hle : batchSize nBatchSize s ≤ _ := batchSize_le hne
  rw [hq,List.length_replicate] at hle
  refine ⟨hle,?_⟩
  have hsub : q-(q-batchSize nBatchSize s) = batchSize nBatchSize s := by omega
  rw [settle,if_neg (by simpa using hne)]
  simp only [hq,List.length_replicate,List.take_replicate,List.drop_replicate,List.reverse_replicate,hsub,
    Nat.min_eq_left (Nat.sub_le ..)]

/-- The master works the queue off while the workers keep their batches. -/
structure Drains (nBatchSize : Nat) (held : BitVec 32) (start s : State ι Unit) (n k q : Nat) : Prop where
  run : Run nBatchSize start s
  queue : s.queue = List.replicate q ()
  fAllOk : s.fAllOk = true
  master : s.threads none = .batch n (List.replicate k ()) true
  todo : s.nTodo = held+BitVec.ofNat 32 n+BitVec.ofNat 32 q
  workers : ∀ i, s.threads (some i) = start.threads (some i)

theorem Drains.run_batch (h : Drains nBatchSize held start s n k q) : ∃ s', Drains nBatchSize held start s' n 0 q := by
  induction k generalizing s with
  | zero => exact ⟨s,h⟩
  | succ k ih =>
    refine ih ⟨h.run.tail trivial (.execute h.master),h.queue,h.fAllOk,?_,h.todo,fun i => ?_⟩
    · simp [State.set]
    · simpa [State.set] using h.workers i

theorem Drains.lock (h : Drains nBatchSize held start s n 0 q) : Step nBatchSize (fun _ => true) s
    (.lock none (settle nBatchSize (fold s none) none).2) (settle nBatchSize (fold s none) none).1 := by
  apply Step.lock
  rw [h.master]
  trivial

theorem Drains.take (h : Drains nBatchSize held start s n 0 q) (hpos : 0 < q) :
    ∃ s' n', 0 < n' ∧ n' ≤ q ∧ Drains nBatchSize held start s' n' n' (q-n') := by
  have hfold : fold s none = { s with fAllOk := true, nTodo := held+BitVec.ofNat 32 q } := by
    simp only [fold,h.master,h.fAllOk,h.todo,Bool.and_true]
    congr 1
    rw [BitVec.add_assoc,BitVec.add_comm (BitVec.ofNat 32 n),← BitVec.add_assoc,BitVec.add_sub_cancel]
  obtain ⟨hle,hsettle⟩ := settle_replicate nBatchSize (s := fold s none) (by rw [hfold]; exact h.queue) hpos none
  have hb : 0 < batchSize nBatchSize (fold s none) := Nat.lt_of_lt_of_le Nat.zero_lt_one (le_max_left ..)
  have hstep := h.lock
  generalize batchSize nBatchSize (fold s none) = b at hle hsettle hb
  rw [hsettle,hfold] at hstep
  refine ⟨_,b,hb,hle,h.run.tail trivial hstep,rfl,rfl,?_,?_,fun i => ?_⟩
  · simp [State.set]
  · simp only [State.set]
    rw [BitVec.add_assoc,← BitVec.ofNat_add,Nat.add_sub_cancel' hle]
  · simpa [State.set] using h.workers i

theorem Drains.empty (h : Drains nBatchSize held start s n k q) :
    ∃ s' n', Drains nBatchSize held start s' n' 0 0 := by
  induction q using Nat.strong_induction_on generalizing s n k with
  | _ q ih =>
    obtain ⟨s₁,h₁⟩ := h.run_batch
    rcases Nat.eq_zero_or_pos q with rfl | hpos
    · exact ⟨s₁,n,h₁⟩
    · obtain ⟨s₂,n',hn,hle,h₂⟩ := h₁.take hpos
      exact ih (q-n') (by omega) h₂

theorem Drains.returns (h : Drains nBatchSize 0#32 start s n 0 0) :
    ∃ s', Step nBatchSize (fun _ => true) s (.lock none (some true)) s' ∧
      ∀ i, s'.threads (some i) = start.threads (some i) := by
  have hfold : fold s none = { s with fAllOk := true, nTodo := 0 } := by
    simp [fold,h.master,h.fAllOk,h.todo]
  have hstep := h.lock
  rw [hfold,settle,if_pos (by simp [h.queue]),if_pos ⟨rfl,rfl⟩] at hstep
  refine ⟨_,hstep,fun i => ?_⟩
  simpa [State.set] using h.workers i

/-- `q` checks are queued; `t` threads are in the loop and none of them waits. -/
def filled (q t : Nat) (todo : BitVec 32) (threads : Option ι → LoopState Unit) (added : Multiset Unit) :
    State ι Unit := ⟨List.replicate q (),todo,t,0,true,threads,added,0,0⟩

variable {t m b : Nat} {todo : BitVec 32} {threads : Option ι → LoopState Unit} {added : Multiset Unit}

/-- A thread enters the loop and takes a batch of `b`. -/
theorem run_take {j : Option ι} (hj : threads j = .outside) (hpos : 0 < q)
    (hb : b = max 1 (min nBatchSize (q%2^32/(t+2)))) :
    b ≤ q ∧ Run nBatchSize (filled q t todo threads added)
      (filled (q-b) (t+1) todo (Function.update threads j (.batch b (List.replicate b ()) true)) added) := by
  have henter : Step nBatchSize (fun _ => true) (filled q t todo threads added) (.enterLoop j) _ := .enterLoop hj
  have hlock : Step nBatchSize (fun _ => true) ((filled q t todo threads added).set j .first) (.lock j _) _ := .lock (by
    rw [State.set_threads_self]
    trivial)
  have hfold : fold ((filled q t todo threads added).set j .first) j =
      filled q (t+1) todo (Function.update threads j .first) added := by
    simp [fold,State.set,filled]
  have hsize : batchSize nBatchSize (filled q (t+1) todo (Function.update threads j .first) added) = b := by
    rw [hb]
    simp [batchSize,filled]
  obtain ⟨hle,hsettle⟩ := settle_replicate nBatchSize
    (s := filled q (t+1) todo (Function.update threads j .first) added) rfl hpos j
  rw [hsize] at hle hsettle
  rw [hfold,hsettle] at hlock
  simp only [State.set,filled,Function.update_idem] at hlock
  exact ⟨hle,(GuardedRun.Reaches.refl.tail trivial henter).tail trivial hlock⟩

/-- The master adds `m` checks; worker `i` comes and takes a batch of `b`. -/
theorem run_filled {i : ι} (h : Run nBatchSize start (filled q t todo threads added))
    (hmaster : threads none = .outside) (hworker : threads (some i) = .outside) (hpos : 0 < q+m)
    (hb : b = max 1 (min nBatchSize ((q+m)%2^32/(t+2)))) :
    Run nBatchSize start (filled (q+m-b) (t+1) (todo+BitVec.ofNat 32 m)
      (Function.update threads (some i) (.batch b (List.replicate b ()) true)) (added+List.replicate m ())) := by
  have hadd : Step nBatchSize (fun _ => true) (filled q t todo threads added) (.add (List.replicate m ())) _ :=
    .add hmaster
  simp only [filled,List.replicate_append_replicate,List.length_replicate] at hadd
  exact (h.tail trivial hadd).trans (run_take hworker hpos hb).2

/-- The counter knows only the queue: `Wait` returns while the workers keep what they hold. -/
theorem filled_returns (hfilled : Run nBatchSize start (filled q t (BitVec.ofNat 32 q) threads added))
    (hmaster : threads none = .outside) (hpos : 0 < q) : ∃ s s' : State ι Unit, Run nBatchSize start s ∧
      Step nBatchSize (fun _ => true) s (.lock none (some true)) s' ∧ ∀ i, s'.threads (some i) = threads (some i) := by
  obtain ⟨b,hb⟩ : ∃ b, b = max 1 (min nBatchSize (q%2^32/(t+2))) := ⟨_,rfl⟩
  obtain ⟨hle,hrun⟩ : _ ∧ Run nBatchSize (filled q t (BitVec.ofNat 32 q) threads added) _ := run_take hmaster hpos hb
  have htodo : BitVec.ofNat 32 q = 0#32+BitVec.ofNat 32 b+BitVec.ofNat 32 (q-b) := by
    rw [BitVec.zero_add,← BitVec.ofNat_add,Nat.add_sub_cancel' hle]
  have hdrains : Drains nBatchSize 0#32 (filled q t (BitVec.ofNat 32 q) threads added) (filled (q-b) (t+1)
      (BitVec.ofNat 32 q) (Function.update threads none (.batch b (List.replicate b ()) true)) added) b b (q-b) :=
    ⟨hrun,rfl,rfl,by simp [filled],htodo,fun i => by simp [filled]⟩
  obtain ⟨s,n,h⟩ := hdrains.empty
  obtain ⟨s',hstep,hworkers⟩ := h.returns
  exact ⟨s,s',hfilled.trans h.run,hstep,hworkers⟩

theorem three_hold (nBatchSize m₁ m₂ m₃ b₁ b₂ b₃ q : Nat) (hb₁ : b₁ = max 1 (min nBatchSize ((0+m₁)%2^32/2)))
    (hb₂ : b₂ = max 1 (min nBatchSize ((0+m₁-b₁+m₂)%2^32/3)))
    (hb₃ : b₃ = max 1 (min nBatchSize ((0+m₁-b₁+m₂-b₂+m₃)%2^32/4)))
    (hadd : 0 < m₁ ∧ 0 < m₂ ∧ 0 < m₃) (hq : m₁+m₂+m₃ = 2^32+q ∧ 0+m₁-b₁+m₂-b₂+m₃-b₃ = q ∧ 0 < q) :
    ∃ s s' : State (Fin 3) Unit, Run nBatchSize State.init s ∧
      Step nBatchSize (fun _ => true) s (.lock none (some true)) s' ∧
      s'.threads (some 0) = .batch b₁ (List.replicate b₁ ()) true := by
  have h₀ : Run nBatchSize State.init (filled 0 0 0#32 (fun _ : Option (Fin 3) => .outside) 0) := .refl
  have h₁ := run_filled (i := 0) h₀ rfl rfl (by omega) hb₁
  have h₂ := run_filled (i := 1) h₁ (by simp) (by simp) (by omega) hb₂
  have h₃ := run_filled (i := 2) h₂ (by simp) (by simp) (by omega) hb₃
  have htodo : 0#32+BitVec.ofNat 32 m₁+BitVec.ofNat 32 m₂+BitVec.ofNat 32 m₃ = BitVec.ofNat 32 q := by
    rw [BitVec.zero_add,← BitVec.ofNat_add,← BitVec.ofNat_add,hq.1]
    exact BitVec.eq_of_toNat_eq (by simp)
  rw [htodo,hq.2.1] at h₃
  obtain ⟨s,s',hrun,hstep,hworkers⟩ := filled_returns h₃ (by simp) hq.2.2
  refine ⟨s,s',hrun,hstep,?_⟩
  rw [hworkers]
  simp

/-- Three workers hold `2^32` checks together, so `nTodo` counts the queue alone, and `Wait` returns true when the master
has worked the queue off. -/
theorem wait_returns_early : ∃ s s' : State (Fin 3) Unit,
    GuardedRun.Reaches (Step (2^31) fun _ => true) (fun _ _ => True) State.init s ∧
      Step (2^31) (fun _ => true) s (.lock none (some true)) s' ∧
      ∃ vChecks, s'.threads (some 0) = .batch 2147483647 vChecks true ∧ vChecks.length = 2147483647 := by
  obtain ⟨s,s',hrun,hstep,hheld⟩ := three_hold (2^31) 4294967295 2147483647 6 2147483647 1431655765 715827884 2147483652
    (by decide) (by decide) (by decide) (by decide) (by decide)
  exact ⟨s,s',hrun,hstep,_,hheld,List.length_replicate⟩
end Wrap
end CheckQueue
end BitfiniteCore
