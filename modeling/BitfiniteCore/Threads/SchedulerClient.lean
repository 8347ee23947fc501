import BitfiniteCore.Lib.GuardedRun
import Mathlib.Data.List.Infix
import Mathlib.Logic.Function.Basic

/-!
# The single-threaded client of the scheduler

A step is one critical section, one change of the task queue, or the start or the end of a callback.
`ι` names the calls that are under way.
-/

namespace BitfiniteCore
open Option

namespace SchedulerClient

inductive Phase (C : Type) where
  | idle
  /-- `AddToProcessQueue` has pushed its callback and unlocked. -/
  | added
  /-- `MaybeScheduleProcessQueue` has unlocked and is about to call `schedule`. -/
  | scheduling
  /-- A `ProcessQueue` task has been taken from the scheduler and has not locked yet. -/
  | entering
  /-- `ProcessQueue` has taken the front callback and set the flag. -/
  | taken (callback : C)
  | running (callback : C)
  /-- The callback returned or threw; the deferred action comes next. -/
  | deferred
  /-- The deferred action has cleared the flag and unlocked. -/
  | cleared

def Phase.held {C : Type} : Phase C → List C
  | .taken c => [c]
  | _ => []

def Phase.Owns {C : Type} : Phase C → Prop
  | .taken _ | .running _ | .deferred => True
  | _ => False

/-- `started` and `queued` record the callbacks that were started and added so far. -/
structure State (ι C : Type) where
  callbacksPending : List C
  areCallbacksRunning : Bool
  scheduledTasks : Nat
  phase : ι → Phase C
  queued : List C
  started : List C

variable {ι C : Type} [DecidableEq ι]

def State.init : State ι C := ⟨[],false,0,fun _ => .idle,[],[]⟩

def State.set (s : State ι C) (i : ι) (p : Phase C) : State ι C := { s with phase := Function.update s.phase i p }

@[simp] theorem State.set_phase_self (s : State ι C) (i : ι) (p : Phase C) : (s.set i p).phase i = p := by
  simp [State.set]

@[simp] theorem State.set_queued (s : State ι C) (i : ι) (p : Phase C) : (s.set i p).queued = s.queued := rfl
@[simp] theorem State.set_started (s : State ι C) (i : ι) (p : Phase C) : (s.set i p).started = s.started := rfl
@[simp] theorem State.set_callbacksPending (s : State ι C) (i : ι) (p : Phase C) :
    (s.set i p).callbacksPending = s.callbacksPending := rfl

theorem State.set_phase_of_ne (s : State ι C) {i j : ι} (p : Phase C) (h : j ≠ i) :
    (s.set i p).phase j = s.phase j := by
  simp [State.set,h]

inductive Event (ι C : Type) where
  | addToProcessQueue (i : ι) (func : C)
  | maybeSchedule (i : ι)
  | schedule (i : ι)
  | takeTask (i : ι)
  | processQueue (i : ι)
  | start (i : ι)
  | finish (i : ι)
  | defer (i : ι)

def maybeScheduleProcessQueue (s : State ι C) (i : ι) : State ι C :=
  if s.areCallbacksRunning then s.set i .idle
  else match s.callbacksPending with
    | [] => s.set i .idle
    | _::_ => s.set i .scheduling

/-- The critical section of `ProcessQueue`. -/
def processQueue (s : State ι C) (i : ι) : State ι C :=
  if s.areCallbacksRunning then s.set i .idle
  else match s.callbacksPending with
    | [] => s.set i .idle
    | callback::rest =>
      State.set { s with areCallbacksRunning := true, callbacksPending := rest } i (.taken callback)

inductive Step : State ι C → Event ι C → State ι C → Prop
  | addToProcessQueue {s : State ι C} {i : ι} {func : C} (h : s.phase i = .idle) :
      Step s (.addToProcessQueue i func) (State.set
        { s with callbacksPending := s.callbacksPending++[func], queued := s.queued++[func] } i .added)
  | maybeSchedule {s : State ι C} {i : ι} (h : s.phase i = .added ∨ s.phase i = .cleared) :
      Step s (.maybeSchedule i) (maybeScheduleProcessQueue s i)
  | schedule {s : State ι C} {i : ι} (h : s.phase i = .scheduling) :
      Step s (.schedule i) (State.set { s with scheduledTasks := s.scheduledTasks+1 } i .idle)
  | takeTask {s : State ι C} {i : ι} (h : s.phase i = .idle) (ht : 0 < s.scheduledTasks) :
      Step s (.takeTask i) (State.set { s with scheduledTasks := s.scheduledTasks-1 } i .entering)
  | processQueue {s : State ι C} {i : ι} (h : s.phase i = .entering) : Step s (.processQueue i) (processQueue s i)
  | start {s : State ι C} {i : ι} {c : C} (h : s.phase i = .taken c) :
      Step s (.start i) (State.set { s with started := s.started++[c] } i (.running c))
  -- the callback may return or throw: the deferred action runs either way
  | finish {s : State ι C} {i : ι} {c : C} (h : s.phase i = .running c) : Step s (.finish i) (s.set i .deferred)
  | defer {s : State ι C} {i : ι} (h : s.phase i = .deferred) :
      Step s (.defer i) (State.set { s with areCallbacksRunning := false } i .cleared)

def Reachable (s : State ι C) : Prop := GuardedRun.Reaches Step (fun _ _ => True) State.init s

/-- Somebody is on the way to look at the pending callbacks. -/
def Phase.Attends {C : Type} : Phase C → Prop
  | .added | .scheduling | .entering | .cleared => True
  | _ => False

/-- What every interleaving keeps, by the call `owner` for which the flag is set. -/
structure Inv (s : State ι C) (owner : Option ι) : Prop where
  flag : s.areCallbacksRunning = owner.isSome
  owns : ∀ j, (s.phase j).Owns ↔ owner = some j
  order : s.queued = s.started++owner.elim [] (fun i => (s.phase i).held)++s.callbacksPending
  attended : s.callbacksPending ≠ [] → s.areCallbacksRunning = true ∨ 0 < s.scheduledTasks ∨ ∃ i, (s.phase i).Attends

variable {s s' : State ι C} {owner : Option ι} {i : ι} {p : Phase C}

omit [DecidableEq ι] in
theorem inv_init : Inv (State.init : State ι C) none where
  flag := rfl
  owns := by simp [State.init,Phase.Owns]
  order := rfl
  attended := by simp [State.init]

section

variable (h : Inv s owner)

include h

theorem Inv.set_other (hi : ¬(s.phase i).Owns) (hp : ¬p.Owns)
    (hattended : s.callbacksPending ≠ [] → s.areCallbacksRunning = true ∨ 0 < s.scheduledTasks ∨
      p.Attends) : Inv (s.set i p) owner := by
  have hne : owner ≠ some i := fun he => hi ((h.owns i).mpr he)
  refine ⟨h.flag,?_,?_,?_⟩
  · intro j
    by_cases hj : j = i
    · subst hj
      rw [State.set_phase_self]
      exact iff_of_false hp hne
    · rw [State.set_phase_of_ne s p hj]
      exact h.owns j
  · cases owner with
    | none => exact h.order
    | some k =>
      have hk : k ≠ i := fun he => hne (he ▸ rfl)
      rw [elim_some,State.set_phase_of_ne s p hk]
      exact h.order
  · intro hpending
    refine (hattended hpending).imp_right (Or.imp_right ?_)
    intro hatt
    exact ⟨i,by rwa [State.set_phase_self]⟩

theorem Inv.set_owner (hi : (s.phase i).Owns) (hp : p.Owns) {started : List C}
    (hheld : s.started++(s.phase i).held = started++p.held) :
    Inv (State.set { s with started := started } i p) owner := by
  have howner : owner = some i := (h.owns i).mp hi
  subst howner
  refine ⟨h.flag,?_,?_,fun _ => .inl h.flag⟩
  · intro j
    by_cases hj : j = i
    · subst hj
      rw [State.set_phase_self]
      exact iff_of_true hp rfl
    · rw [State.set_phase_of_ne _ p hj]
      exact h.owns j
  · have horder := h.order
    rw [elim_some,hheld] at horder
    rw [elim_some,State.set_phase_self]
    exact horder

theorem Inv.addToProcessQueue (hi : s.phase i = .idle) (func : C) :
    Inv (State.set { s with callbacksPending := s.callbacksPending++[func], queued := s.queued++[func] } i
      .added) owner := by
  have hqueue : Inv (State.set { s with queued := s.queued, callbacksPending := s.callbacksPending } i .added)
      owner := h.set_other (by simp [hi,Phase.Owns]) (by simp [Phase.Owns]) fun _ => .inr (.inr trivial)
  refine ⟨hqueue.flag,hqueue.owns,?_,fun _ => .inr (.inr ⟨i,by rw [State.set_phase_self]; trivial⟩)⟩
  have horder := congrArg (fun l => l++[func]) hqueue.order
  simp only [List.append_assoc,State.set_queued,State.set_started,State.set_callbacksPending] at horder ⊢
  exact horder

theorem Inv.maybeSchedule (hi : s.phase i = .added ∨ s.phase i = .cleared) :
    Inv (maybeScheduleProcessQueue s i) owner := by
  have hown : ¬(s.phase i).Owns := by
    rcases hi with hi | hi <;> simp [hi,Phase.Owns]
  unfold maybeScheduleProcessQueue
  split
  · rename_i hflag
    exact h.set_other hown (by simp [Phase.Owns]) fun _ => .inl hflag
  · split
    · rename_i hempty
      exact h.set_other hown (by simp [Phase.Owns]) fun hne => absurd hempty hne
    · exact h.set_other hown (by simp [Phase.Owns]) fun _ => .inr (.inr trivial)

theorem Inv.processQueue (hi : s.phase i = .entering) :
    ∃ owner', Inv (processQueue s i) owner' := by
  have hown : ¬(s.phase i).Owns := by simp [hi,Phase.Owns]
  unfold SchedulerClient.processQueue
  split
  · rename_i hflag
    exact ⟨owner,h.set_other hown (by simp [Phase.Owns]) fun _ => .inl hflag⟩
  · rename_i hflag
    -- the flag is free, so nobody owns it and nothing is held
    have hfree : owner = none := by
      have hf := h.flag
      rw [Bool.not_eq_true] at hflag
      rw [hflag] at hf
      exact isSome_eq_false_iff.mp hf.symm |> isNone_iff_eq_none.mp
    subst hfree
    split
    · rename_i hempty
      exact ⟨none,h.set_other hown (by simp [Phase.Owns]) fun hne => absurd hempty hne⟩
    · rename_i callback rest hpending
      refine ⟨some i,rfl,?_,?_,fun _ => .inl rfl⟩
      · intro j
        by_cases hj : j = i
        · subst hj
          rw [State.set_phase_self]
          exact iff_of_true trivial rfl
        · rw [State.set_phase_of_ne _ _ hj]
          exact iff_of_false (fun ho => by simpa using (h.owns j).mp ho) (by simpa using Ne.symm hj)
      · have horder := h.order
        rw [hpending,elim_none,List.append_nil] at horder
        rw [elim_some,State.set_phase_self]
        simpa [Phase.held] using horder

theorem Inv.defer (hi : s.phase i = .deferred) :
    Inv (State.set { s with areCallbacksRunning := false } i .cleared) none := by
  have howner : owner = some i := (h.owns i).mp (by simp [hi,Phase.Owns])
  subst howner
  refine ⟨rfl,?_,?_,fun _ => .inr (.inr ⟨i,by rw [State.set_phase_self]; trivial⟩)⟩
  · intro j
    by_cases hj : j = i
    · subst hj
      rw [State.set_phase_self]
      exact iff_of_false id (by simp)
    · rw [State.set_phase_of_ne _ _ hj]
      exact iff_of_false (fun ho => hj (some.inj ((h.owns j).mp ho)).symm) (by simp)
  · have horder := h.order
    rw [elim_some,hi] at horder
    exact horder

theorem Inv.step {e : Event ι C} (hstep : Step s e s') : ∃ owner', Inv s' owner' := by
  cases hstep with
  | addToProcessQueue hi => exact ⟨owner,h.addToProcessQueue hi _⟩
  | maybeSchedule hi => exact ⟨owner,h.maybeSchedule hi⟩
  | schedule hi =>
    have h' : Inv { s with scheduledTasks := s.scheduledTasks+1 } owner :=
      ⟨h.flag,h.owns,h.order,fun _ => .inr (.inl (Nat.succ_pos _))⟩
    exact ⟨owner,h'.set_other (by simp [hi,Phase.Owns]) (by simp [Phase.Owns])
      fun _ => .inr (.inl (Nat.succ_pos _))⟩
  | @takeTask i hi ht =>
    have h' := h.set_other (i := i) (p := .entering) (by simp [hi,Phase.Owns]) (by simp [Phase.Owns])
      fun _ => .inr (.inr trivial)
    exact ⟨owner,h'.flag,h'.owns,h'.order,fun _ => .inr (.inr ⟨i,by rw [State.set_phase_self]; trivial⟩)⟩
  | processQueue hi => exact h.processQueue hi
  | start hi =>
    exact ⟨owner,h.set_owner (p := .running _) (by simp [hi,Phase.Owns]) trivial (by simp [hi,Phase.held])⟩
  | finish hi =>
    exact ⟨owner,h.set_owner (p := .deferred) (by simp [hi,Phase.Owns]) trivial (by simp [hi,Phase.held])⟩
  | defer hi => exact ⟨none,h.defer hi⟩
end

theorem Reachable.inv (h : Reachable s) : ∃ owner, Inv s owner := by
  refine GuardedRun.Reaches.invariant (P := fun s => ∃ owner, Inv s owner) h ⟨none,inv_init⟩ ?_
  rintro s e s' ⟨owner,hinv⟩ _ hstep
  exact hinv.step hstep

/-- `ProcessQueue` has taken a callback and the deferred action has not cleared the flag. -/
def CallbackRunning (s : State ι C) : Prop := ∃ i, (s.phase i).Owns

/-- One callback at a time, in the order of the queue and at most once each, and pending callbacks always have
somebody to run them. -/
theorem callbacks_in_order (h : Reachable s) : (∀ i j, (s.phase i).Owns → (s.phase j).Owns → i = j) ∧
    s.started <+: s.queued ∧
    (s.callbacksPending ≠ [] → CallbackRunning s ∨ (0 < s.scheduledTasks ∨ ∃ i, s.phase i = .entering) ∨
      (∃ i, s.phase i = .scheduling) ∨ ∃ i, s.phase i = .added ∨ s.phase i = .cleared) := by
  obtain ⟨owner,hinv⟩ := h.inv
  refine ⟨?_,?_,?_⟩
  · intro i j hi hj
    exact some.inj (((hinv.owns i).mp hi).symm.trans ((hinv.owns j).mp hj))
  · rw [hinv.order,List.append_assoc]
    exact List.prefix_append ..
  · intro hpending
    rcases hinv.attended hpending with hflag | htasks | ⟨i,hi⟩
    · obtain ⟨i,hi⟩ := isSome_iff_exists.mp (hinv.flag.symm.trans hflag)
      exact .inl ⟨i,(hinv.owns i).mpr hi⟩
    · exact .inr (.inl (.inl htasks))
    · cases hp : s.phase i with
      | added => exact .inr (.inr (.inr ⟨i,.inl hp⟩))
      | cleared => exact .inr (.inr (.inr ⟨i,.inr hp⟩))
      | scheduling => exact .inr (.inr (.inl ⟨i,hp⟩))
      | entering => exact .inr (.inl (.inr ⟨i,hp⟩))
      | idle => simp [hp,Phase.Attends] at hi
      | taken c => simp [hp,Phase.Attends] at hi
      | running c => simp [hp,Phase.Attends] at hi
      | deferred => simp [hp,Phase.Attends] at hi

def justAdded : State Unit Unit := State.set { State.init with callbacksPending := [()], queued := [()] } () .added

theorem justAdded_reachable : Reachable justAdded :=
  GuardedRun.Reaches.refl.tail (e := .addToProcessQueue () ()) trivial (.addToProcessQueue rfl)

/-- Thread `false` runs the first callback when thread `true` adds the second one. -/
def firstRuns : State Bool Nat :=
  let s := State.set { State.init with callbacksPending := [1], queued := [1] } false .added
  let s := maybeScheduleProcessQueue s false
  let s := State.set { s with scheduledTasks := s.scheduledTasks+1 } false .idle
  let s := State.set { s with scheduledTasks := s.scheduledTasks-1 } false .entering
  let s := processQueue s false
  let s := State.set { s with started := s.started++[1] } false (.running 1)
  State.set { s with callbacksPending := s.callbacksPending++[2], queued := s.queued++[2] } true .added

theorem firstRuns_reachable : Reachable firstRuns := by
  have hadd : GuardedRun.Reaches Step (fun _ _ => True) (State.init : State Bool Nat) _ :=
    GuardedRun.Reaches.refl.tail (e := .addToProcessQueue false 1) trivial (.addToProcessQueue rfl)
  have htask := (hadd.tail trivial (.maybeSchedule (i := false) (.inl rfl))).tail trivial (.schedule (i := false) rfl)
  have henter := (htask.tail trivial (.takeTask (i := false) rfl Nat.one_pos)).tail trivial
    (.processQueue (i := false) rfl)
  exact (henter.tail trivial (.start (i := false) (c := 1) rfl)).tail (e := .addToProcessQueue true 2) trivial
    (.addToProcessQueue rfl)

theorem callbacks_in_order_firstRuns : firstRuns.callbacksPending = [2] ∧ firstRuns.started <+: firstRuns.queued ∧
    (firstRuns.phase false).Owns ∧ ∀ j, (firstRuns.phase j).Owns → false = j := by
  obtain ⟨hone,horder,-⟩ := callbacks_in_order firstRuns_reachable
  exact ⟨rfl,horder,trivial,fun j hj => hone false j trivial hj⟩

theorem pending_before_maybeSchedule : ¬∀ s : State Unit Unit, Reachable s → s.callbacksPending ≠ [] →
      CallbackRunning s ∨ (0 < s.scheduledTasks ∨ ∃ i, s.phase i = .entering) ∨ ∃ i, s.phase i = .scheduling := by
  intro h
  have hadded : ∀ i, justAdded.phase i = .added := fun _ => State.set_phase_self _ _ _
  rcases h justAdded justAdded_reachable (List.cons_ne_nil _ _) with ⟨i,hi⟩ | (ht | ⟨i,hi⟩) | ⟨i,hi⟩
  · rw [hadded] at hi
    exact hi
  · exact absurd ht (by simp [justAdded,State.set,State.init])
  · rw [hadded] at hi
    cases hi
  · rw [hadded] at hi
    cases hi
end SchedulerClient
end BitfiniteCore
