import BitfiniteCore.Chain.Locators

/-! # The activation block tracker -/

namespace BitfiniteCore
open ParentTree BlockEntries GuardedRun

section

variable {α : Type*} [DecidableEq α] (s : BlockEntries α) (predicate : α → Bool)

structure TrackerState (α : Type*) where
  active : CChain α := {}
  cachedActivationBlock : Option α := none

/-- The walk back of `GetActivationBlock`. -/
def activationLoop : Nat → α → Except Stop α
  | rounds, pwalk =>
    match s.pprev pwalk with
    | none => .ok pwalk
    | some pprev => match rounds with
      | 0 => .error (.runtimeError "rounds")
      | rounds+1 =>
        -- The predicates are false for a null pointer.
        match (s.pskip pwalk).filter predicate with
        | some pskip => activationLoop rounds pskip
        | none => if !predicate pprev then .ok pwalk else activationLoop rounds pprev

variable (tracker : TrackerState α)

def TrackerState.onActive (cached pindex : α) : Bool := tracker.active.contains s cached &&
    (tracker.active.contains s pindex || (s.pprev pindex).any (tracker.active.contains s ·)) &&
    s.nHeight cached ≤ s.nHeight pindex

def TrackerState.getActivationBlock (pindex : α) : Except Stop (α × TrackerState α) :=
  let slowPath := (activationLoop s predicate (s.nHeight pindex) pindex).map fun pwalk =>
    (pwalk,{ tracker with cachedActivationBlock := some pwalk })
  match tracker.cachedActivationBlock with
  | none => slowPath
  | some cached =>
    if tracker.onActive s cached pindex then .ok (cached,tracker)
    else (s.getAncestor pindex (s.nHeight cached)).bind fun ancestor =>
      if ancestor = some cached then .ok (cached,tracker) else slowPath

inductive TrackerEvent (α : Type*)
  | setTip (pindex : Option α)
  | getActivationBlock (pindex : α)
  | resetActivationBlockCache

inductive TrackerStep : TrackerState α → TrackerEvent α → TrackerState α → Prop
  | setTip {tracker : TrackerState α} {pindex : Option α} {active : CChain α}
      (hset : tracker.active.setTip s pindex = .ok active) :
      TrackerStep tracker (.setTip pindex) { tracker with active }
  | getActivationBlock {tracker tracker' : TrackerState α} {pindex block : α}
      (hquery : tracker.getActivationBlock s predicate pindex = .ok (block,tracker')) :
      TrackerStep tracker (.getActivationBlock pindex) tracker'
  | reset {tracker : TrackerState α} :
      TrackerStep tracker .resetActivationBlockCache { tracker with cachedActivationBlock := none }

/-- Tips are entries of the tree, and so are the blocks of queries, which have the upgrade. -/
def TrackerAllowed : TrackerState α → TrackerEvent α → Prop
  | _, .setTip pindex => ∀ x, pindex = some x → x ∈ s.known
  | _, .getActivationBlock pindex => pindex ∈ s.known ∧ predicate pindex = true
  | _, .resetActivationBlockCache => True

def StaysEnabled : Prop := ∀ {b p}, s.pprev b = some p → predicate p = true → predicate b = true

def EarliestEnabled (T : ParentTree α) (p c : α) : Prop :=
  T.Anc c p ∧ predicate c = true ∧ ∀ a, T.Anc a p → predicate a = true → T.Anc c a

def TrackerState.besideCached (pindex : α) : Prop :=
  ∃ cached, tracker.cachedActivationBlock = some cached ∧ tracker.active.contains s cached = true ∧
    pindex ≠ cached ∧ s.nHeight pindex = s.nHeight cached ∧
    ∃ pprev, s.pprev pindex = some pprev ∧ tracker.active.contains s pprev = true
end

section

variable {α : Type*} {s : BlockEntries α} {predicate : α → Bool} {a b c p : α}

def Activates (s : BlockEntries α) (predicate : α → Bool) (c : α) : Prop :=
  predicate c = true ∧ ∀ q, s.pprev c = some q → predicate q = false

theorem StaysEnabled.anc (hmono : StaysEnabled s predicate) (h : Linked s) (hab : h.tree.Anc a b)
    (ha : predicate a = true) : predicate b = true := by
  induction hab with
  | refl => exact ha
  | tail _ hp ih => exact hmono hp ih

theorem Activates.earliest (hmono : StaysEnabled s predicate) (h : Linked s) (hc : Activates s predicate c)
    (hcp : h.tree.Anc c p) : EarliestEnabled predicate h.tree p c := by
  classical
  refine ⟨hcp,hc.1,fun a hap ha => ?_⟩
  rcases Anc.comparable hap hcp with hac | hca
  · by_cases hne : a = c
    · rw [hne]
      exact .refl c
    · obtain ⟨q,hq,haq⟩ := hac.parent_of_ne hne
      have hqt := hmono.anc h haq ha
      rw [hc.2 q hq] at hqt
      cases hqt
  · exact hca

theorem activationLoop_ok (hs : Skipping s) (rounds : Nat) (pwalk : α) (hp : predicate pwalk = true)
    (hrounds : s.nHeight pwalk ≤ rounds) :
    ∃ c, activationLoop s predicate rounds pwalk = .ok c ∧ hs.toLinked.tree.Anc c pwalk ∧
      Activates s predicate c := by
  induction rounds generalizing pwalk with
  | zero =>
    cases hq : s.pprev pwalk with
    | none => exact ⟨pwalk,by rw [activationLoop,hq],.refl _,hp,fun q hq' => by rw [hq] at hq'; cases hq'⟩
    | some q =>
      have := hs.height_parent hq
      omega
  | succ rounds ih =>
    rw [activationLoop]
    cases hq : s.pprev pwalk with
    | none => exact ⟨pwalk,rfl,.refl _,hp,fun q hq' => by rw [hq] at hq'; cases hq'⟩
    | some q =>
      have hheight := hs.height_parent hq
      dsimp only
      cases hskip : (s.pskip pwalk).filter predicate with
      | some pskip =>
        obtain ⟨hpskip,hpred⟩ := Option.filter_eq_some_iff.mp hskip
        obtain ⟨_,hanc,_,hlt⟩ := hs.up hpskip
        obtain ⟨c,hc,hcanc,hact⟩ := ih pskip hpred (by omega)
        exact ⟨c,hc,hcanc.trans hanc,hact⟩
      | none =>
        cases hpred : predicate q with
        | false =>
          refine ⟨pwalk,rfl,.refl _,hp,fun q' hq' => ?_⟩
          cases hq.symm.trans hq'
          exact hpred
        | true =>
          obtain ⟨c,hc,hcanc,hact⟩ := ih q hpred (by omega)
          exact ⟨c,hc,hcanc.trans (.of_parent hq),hact⟩
end

section

variable {α : Type*} [DecidableEq α] {s : BlockEntries α} {predicate : α → Bool} {chain : CChain α}
  {tracker tracker' : TrackerState α} {a b c p : α}

theorem contains_anc (hs : Skipping s) (hc : CChain.Set s chain) (ha : chain.contains s a = true)
    (hb : chain.contains s b = true) (hle : s.nHeight a ≤ s.nHeight b) : hs.toLinked.tree.Anc a b := by
  rcases set_holds hs hc with hempty | ⟨t,_,hholds⟩
  · rw [CChain.contains,CChain.entry,hempty] at ha
    cases ha
  · rw [hholds.contains,decide_eq_true_eq] at ha hb
    exact ha.of_height_le hb hle

theorem TrackerState.onActive_anc (hs : Skipping s) (hc : CChain.Set s tracker.active)
    (hcached : tracker.cachedActivationBlock = some c) (hbeside : ¬ tracker.besideCached s p)
    (hactive : tracker.onActive s c p = true) : hs.toLinked.tree.Anc c p := by
  simp only [TrackerState.onActive,Bool.and_eq_true,Bool.or_eq_true,decide_eq_true_eq] at hactive
  obtain ⟨⟨hcc,hcp⟩,hle⟩ := hactive
  rcases hcp with hcp | hcq
  · exact contains_anc hs hc hcc hcp hle
  · obtain ⟨q,hq,hqc⟩ := (Option.any_eq_true _ _).mp hcq
    have hheight := hs.height_parent hq
    by_cases hpc : p = c
    · rw [hpc]
      exact .refl c
    · have hne : s.nHeight p ≠ s.nHeight c := fun heq => hbeside ⟨c,hcached,hcc,hpc,heq,q,hq,hqc⟩
      exact (contains_anc hs hc hcc hqc (by omega)).trans (.of_parent hq)

structure TrackerOk (s : BlockEntries α) (predicate : α → Bool) (tracker : TrackerState α) : Prop where
  active : CChain.Set s tracker.active
  cached : ∀ c, tracker.cachedActivationBlock = some c → Activates s predicate c

theorem TrackerOk.getActivationBlock (hs : Skipping s) (hok : TrackerOk s predicate tracker)
    (hp : predicate p = true) :
    ∃ c tracker', tracker.getActivationBlock s predicate p = .ok (c,tracker') ∧ TrackerOk s predicate tracker' ∧
      Activates s predicate c ∧ (¬ tracker.besideCached s p → hs.toLinked.tree.Anc c p) := by
  obtain ⟨c,hloop,hcp,hact⟩ := activationLoop_ok hs (s.nHeight p) p hp (le_refl _)
  have hslow : TrackerOk s predicate { tracker with cachedActivationBlock := some c } :=
    ⟨hok.active,fun c' hc' => Option.some.inj hc' ▸ hact⟩
  rw [TrackerState.getActivationBlock,hloop]
  cases hcached : tracker.cachedActivationBlock with
  | none => exact ⟨c,_,rfl,hslow,hact,fun _ => hcp⟩
  | some cached =>
    have hcact := hok.cached cached hcached
    dsimp only
    split_ifs with hactive
    · exact ⟨cached,tracker,rfl,hok,hcact,fun hbeside => TrackerState.onActive_anc hs hok.active hcached hbeside hactive⟩
    · rw [hs.toLinked.getAncestor_eq hs.up]
      simp only [Except.bind,Except.map]
      split_ifs with hanc
      · exact ⟨cached,tracker,rfl,hok,hcact,fun _ => (getAncestor_eq_some.mp hanc).1⟩
      · exact ⟨c,_,rfl,hslow,hact,fun _ => hcp⟩

theorem TrackerOk.step {e : TrackerEvent α} (hs : Skipping s) (hok : TrackerOk s predicate tracker)
    (hguard : TrackerAllowed s predicate tracker e) (hstep : TrackerStep s predicate tracker e tracker') :
    TrackerOk s predicate tracker' := by
  cases hstep with
  | setTip hset => exact ⟨hok.active.setTip hguard hset,hok.cached⟩
  | getActivationBlock hquery =>
    obtain ⟨c,tracker'',hc,hok',_⟩ := hok.getActivationBlock hs hguard.2
    rw [hquery] at hc
    obtain ⟨_,rfl⟩ := Prod.mk.inj (Except.ok.inj hc)
    exact hok'
  | reset => exact ⟨hok.active,nofun⟩
end

/-- Beside the cached block a query returns the cached one, which is no ancestor. -/
theorem TrackerState.besideCached.not_anc {α : Type*} [DecidableEq α] {s : BlockEntries α} {predicate : α → Bool}
    {tracker : TrackerState α} {pindex : α} (hbeside : tracker.besideCached s pindex) (h : Linked s) :
    ∃ c, tracker.getActivationBlock s predicate pindex = .ok (c,tracker) ∧ ¬ h.tree.Anc c pindex := by
  obtain ⟨c,hc,hactive,hne,hheight,p,hp,hpp⟩ := hbeside
  refine ⟨c,?_,fun hanc => hne (Anc.eq_of_height_le hanc hheight.le).symm⟩
  have hon : tracker.onActive s c pindex = true := by
    simp [TrackerState.onActive,hactive,hp,hpp,hheight]
  simp [TrackerState.getActivationBlock,hc,hon]

/-- A query finds the earliest ancestor with the upgrade, unless its block is beside the cached one. -/
theorem getActivationBlock_earliest {α : Type*} [DecidableEq α] {s : BlockEntries α} (hs : Built s)
    {predicate : α → Bool} (hmono : StaysEnabled s predicate) {tracker : TrackerState α}
    (run : Reaches (TrackerStep s predicate) (TrackerAllowed s predicate) {} tracker) {pindex : α}
    (hp : predicate pindex = true) (hbeside : ¬ tracker.besideCached s pindex) :
    ∃ T : ParentTree α, T.parent = s.pprev ∧ ∃ block tracker',
      tracker.getActivationBlock s predicate pindex = .ok (block,tracker') ∧
      EarliestEnabled predicate T pindex block := by
  have hk := hs.skipping
  have hok : TrackerOk s predicate tracker :=
    run.invariant ⟨.empty,nofun⟩ fun hok hguard hstep => hok.step hk hguard hstep
  obtain ⟨c,tracker',hc,_,hact,hanc⟩ := hok.getActivationBlock hk hp
  exact ⟨hk.toLinked.tree,rfl,c,tracker',hc,hact.earliest hmono hk.toLinked (hanc hbeside)⟩

theorem two_activations : ∃ s : BlockEntries Nat, Built s ∧ 2 ∈ s.known ∧ s.pprev 0 = none ∧ s.pprev 2 = some 0 ∧
    StaysEnabled s (0 < ·) ∧
    ∃ tracker : TrackerState Nat, Reaches (TrackerStep s (0 < ·)) (TrackerAllowed s (0 < ·)) {} tracker ∧
      tracker.cachedActivationBlock = some 1 ∧ tracker.getActivationBlock s (0 < ·) 2 = .ok (1,tracker) := by
  have h0 : Built (genesis 0) := .genesis 0
  have h1 := h0.insert (by decide) (by decide) (show (genesis 0).insert 1 0 = _ from rfl)
  have h2 := h1.insert (by decide) (by decide) (show BlockEntries.insert _ 2 0 = _ from rfl)
  refine ⟨_,h2,List.mem_cons_self,rfl,rfl,?_,⟨⟨[some 0,some 1]⟩,some 1⟩,?_,rfl,rfl⟩
  · intro b p hb _
    rcases Nat.eq_zero_or_pos b with rfl | hpos
    · cases hb
    · exact decide_eq_true hpos
  · have hset : ∀ x, some 1 = some x → x ∈ [2,1,0] := fun x hx => Option.some.inj hx ▸ by decide
    have hquery : 1 ∈ [2,1,0] ∧ decide (0 < 1) = true := by decide
    apply Reaches.tail (e := .getActivationBlock 1) (.tail (e := .setTip (some 1)) .refl hset (.setTip rfl)) hquery
    exact .getActivationBlock rfl

theorem getActivationBlock_beside_cached : ∃ (s : BlockEntries Nat) (predicate : Nat → Bool) (tracker : TrackerState Nat),
    Built s ∧ StaysEnabled s predicate ∧ Reaches (TrackerStep s predicate) (TrackerAllowed s predicate) {} tracker ∧
    TrackerAllowed s predicate tracker (.getActivationBlock 2) ∧
    tracker.getActivationBlock s predicate 2 = .ok (1,tracker) ∧
    ∀ T : ParentTree Nat, T.parent = s.pprev → EarliestEnabled predicate T 2 2 ∧ ¬ T.Anc 1 2 := by
  obtain ⟨s,hs,h2,hp0,hp2,hmono,tracker,run,_,hquery⟩ := two_activations
  refine ⟨s,(0 < ·),tracker,hs,hmono,run,⟨h2,rfl⟩,hquery,fun T hT => ?_⟩
  have hbelow : ∀ a, T.Anc a 2 → 0 < a → a = 2 := by
    intro a ha hpos
    by_contra hne
    obtain ⟨q,hq,haq⟩ := ha.parent_of_ne hne
    rw [hT,hp2] at hq
    cases hq
    have hzero : a = 0 := haq.root (by rw [hT,hp0])
    omega
  constructor
  · refine ⟨.refl 2,rfl,fun a ha hpos => ?_⟩
    rw [hbelow a ha (of_decide_eq_true hpos)]
    exact .refl 2
  · intro h
    exact absurd (hbelow 1 h Nat.one_pos) (by decide)

theorem getActivationBlock_earliest_cached : ∃ (s : BlockEntries Nat) (predicate : Nat → Bool) (tracker : TrackerState Nat),
    Built s ∧ StaysEnabled s predicate ∧ Reaches (TrackerStep s predicate) (TrackerAllowed s predicate) {} tracker ∧
    predicate 1 = true ∧ ¬ tracker.besideCached s 1 ∧ ∃ T : ParentTree Nat, T.parent = s.pprev ∧ ∃ block tracker',
      tracker.getActivationBlock s predicate 1 = .ok (block,tracker') ∧ EarliestEnabled predicate T 1 block := by
  obtain ⟨s,hs,_,_,_,hmono,tracker,run,hcached,_⟩ := two_activations
  have hbeside : ¬ tracker.besideCached s 1 := by
    intro h
    obtain ⟨c,hc,_,hne,_⟩ := h
    exact hne (Option.some.inj (hcached.symm.trans hc))
  exact ⟨s,(0 < ·),tracker,hs,hmono,run,rfl,hbeside,getActivationBlock_earliest hs hmono run rfl hbeside⟩
end BitfiniteCore
