import BitfiniteCore.Chain.AblaLookahead
import BitfiniteCore.Chain.ActivationBlock

/-! # Verifying the block size limits at start -/

namespace BitfiniteCore
open Function ParentTree BlockEntries

section

variable {α : Type*} [DecidableEq α] (s : BlockEntries α) (config : AblaConfig)
  (readBlockSizeFromDisk : α → Option Nat) (chain : CChain α)

structure VerifyState (α : Type*) where
  prevState : Option AblaState := none
  rebuilding : Bool := false
  states : α → Option AblaState

variable (pbase pcur : α) (v : VerifyState α)

def VerifyState.bad : Except Stop Bool :=
  match v.states pcur with
  | none => .ok true
  | some cur =>
    if !cur.isValid config then .ok true
    else if (readBlockSizeFromDisk pcur).getD cur.blockSize ≠ cur.blockSize then .ok true
    else match readBlockSizeFromDisk pcur, v.prevState with
      | some size, some prev => (prev.nextBlockState config size).map fun next => decide (next ≠ cur)
      | _, _ => .ok false

def VerifyState.fromParent (size : Nat) : Except Stop AblaState :=
  if pcur = pbase then .ok (.ofConfig config size)
  else match s.pprev pcur with
    | none => .error (.assertion "pcur->pprev")
    | some pprev => match v.states pprev with
      | none => .error (.assertion "prevState")
      | some prev => prev.nextBlockState config size

def VerifyState.rebuild : Except Stop (Option AblaState) :=
  match readBlockSizeFromDisk pcur with
  | none => .ok none
  | some size => (v.fromParent s config pbase pcur size).bind fun state =>
    if state.isValid config then .ok (some state) else .error (.assertion "state.IsValid(ablaConfig)")

def VerifyState.round (ht : Nat) : Except Stop (Option (VerifyState α)) :=
  match chain.entry ht with
  | none => .error (.assertion "pcur")
  | some pcur =>
    (if v.rebuilding then .ok true else v.bad config readBlockSizeFromDisk pcur).bind fun rebuilding =>
      if !rebuilding then .ok (some { v with prevState := v.states pcur })
      else (v.rebuild s config readBlockSizeFromDisk pbase pcur).map fun state =>
        state.map fun state => { v with rebuilding := true, states := update v.states pcur (some state) }

def verifyLoop : Nat → Nat → VerifyState α → Except Stop (Option (VerifyState α))
  | 0, _, v => .ok (some v)
  | count+1, ht, v => (v.round s config readBlockSizeFromDisk chain pbase ht).bind fun
    | none => .ok none
    | some v => verifyLoop count (ht+1) v

/-- `VerifyAblaStateForChain` with a fresh tracker: the states afterwards, or none where it returns false. -/
def verifyAblaStateForChain (predicate : α → Bool) (states : α → Option AblaState) :
    Except Stop (Option (α → Option AblaState)) :=
  match chain.tip with
  | none => .ok (some states)
  | some ptip =>
    if !predicate ptip then .ok (some states)
    else (TrackerState.getActivationBlock s predicate { active := chain } ptip).bind fun r =>
      (verifyLoop s config readBlockSizeFromDisk chain r.1 (s.nHeight ptip+1-s.nHeight r.1) (s.nHeight r.1)
        { states }).map fun v => v.map VerifyState.states

def ablaAfter (size : α → Nat) : Nat → α → Except Stop AblaState
  | 0, _ => .ok (.ofConfig config (size pbase))
  | count+1, b => match s.pprev b with
    | none => .error (.assertion "pcur->pprev")
    | some p => (ablaAfter size count p).bind fun st => st.nextBlockState config (size b)

def CarriesAbla (size : α → Nat) (states : α → Option AblaState) (b : α) : Prop :=
  ∃ st, ablaAfter s config pbase size (s.nHeight b-s.nHeight pbase) b = .ok st ∧ states b = some st
end

section

variable {α : Type*} [DecidableEq α] {s : BlockEntries α} {config : AblaConfig}
  {readBlockSizeFromDisk : α → Option Nat} {size : α → Nat} {chain : CChain α} {pbase pcur ptip b p : α}
  {v v' : VerifyState α}

omit [DecidableEq α] in
theorem VerifyState.bad_false (hread : readBlockSizeFromDisk pcur = some (size pcur))
    (hbad : v.bad config readBlockSizeFromDisk pcur = .ok false) :
    ∃ cur, v.states pcur = some cur ∧ cur.isValid config = true ∧ cur.blockSize = size pcur ∧
      ∀ prev, v.prevState = some prev → prev.nextBlockState config (size pcur) = .ok cur := by
  rw [VerifyState.bad,hread] at hbad
  cases hcur : v.states pcur with
  | none =>
    rw [hcur] at hbad
    cases hbad
  | some cur =>
    rw [hcur] at hbad
    dsimp only [Option.getD_some] at hbad
    split_ifs at hbad with hvalid hsize
    · cases hbad
    · cases hbad
    · rw [Bool.not_eq_true',Bool.not_eq_false] at hvalid
      refine ⟨cur,rfl,hvalid,(not_not.mp hsize).symm,fun prev hprev => ?_⟩
      rw [hprev] at hbad
      dsimp only at hbad
      cases hnext : prev.nextBlockState config (size pcur) with
      | error e =>
        rw [hnext] at hbad
        cases hbad
      | ok next =>
        rw [hnext,Except.map] at hbad
        have heq := Except.ok.inj hbad
        rw [decide_eq_false_iff_not,not_not] at heq
        rw [heq]

omit [DecidableEq α] in
theorem VerifyState.bad_ok (hread : readBlockSizeFromDisk pcur = some (size pcur))
    (hprev : ∀ prev, v.prevState = some prev → ∃ next, prev.nextBlockState config (size pcur) = .ok next) :
    ∃ r, v.bad config readBlockSizeFromDisk pcur = .ok r := by
  rw [VerifyState.bad,hread]
  cases v.states pcur with
  | none => exact ⟨true,rfl⟩
  | some cur =>
    dsimp only [Option.getD_some]
    split_ifs
    · exact ⟨true,rfl⟩
    · exact ⟨true,rfl⟩
    · cases hstate : v.prevState with
      | none => exact ⟨false,rfl⟩
      | some prev =>
        obtain ⟨next,hnext⟩ := hprev prev hstate
        refine ⟨decide (next ≠ cur),?_⟩
        dsimp only
        rw [hnext,Except.map]

omit [DecidableEq α] in
theorem ablaAfter_base : ablaAfter s config pbase size (s.nHeight pbase-s.nHeight pbase) pbase =
    .ok (.ofConfig config (size pbase)) := by
  rw [Nat.sub_self,ablaAfter]

omit [DecidableEq α] in
theorem ablaAfter_child (h : Linked s) (hp : s.pprev b = some p) (hle : s.nHeight pbase ≤ s.nHeight p) :
    ablaAfter s config pbase size (s.nHeight b-s.nHeight pbase) b =
      (ablaAfter s config pbase size (s.nHeight p-s.nHeight pbase) p).bind fun st =>
        st.nextBlockState config (size b) := by
  rw [h.height_parent hp,Nat.sub_add_comm hle,ablaAfter,hp]

omit [DecidableEq α] in
theorem ablaAfter_ok (size : α → Nat) (hconfig : config.Safe) (h : Linked s) (hb : h.tree.Anc pbase b) :
    ∃ st, ablaAfter s config pbase size (s.nHeight b-s.nHeight pbase) b = .ok st ∧ st.isValid config = true := by
  induction hb with
  | refl =>
    refine ⟨_,ablaAfter_base,?_⟩
    simp [AblaState.isValid,AblaState.ofConfig,hconfig.epsilon,hconfig.beta]
  | @tail p b hanc hp ih =>
    obtain ⟨st,hst,hvalid⟩ := ih
    refine ⟨_,?_,AblaState.exactNext_isValid hconfig hvalid (size b)⟩
    rw [ablaAfter_child h hp (Anc.height_le hanc),hst,Except.bind,(AblaState.next_ok hconfig hvalid _).1]

theorem VerifyState.fromParent_eq (h : Linked s) (hbase : h.tree.Anc pbase pcur)
    (hprev : ∀ p, s.pprev pcur = some p → s.nHeight pbase ≤ s.nHeight p → CarriesAbla s config pbase size v.states p) :
    v.fromParent s config pbase pcur (size pcur) =
      ablaAfter s config pbase size (s.nHeight pcur-s.nHeight pbase) pcur := by
  rw [VerifyState.fromParent]
  split_ifs with heq
  · rw [heq,ablaAfter_base]
  · obtain ⟨p,hp,hanc⟩ := hbase.parent_of_ne (Ne.symm heq)
    have hle : s.nHeight pbase ≤ s.nHeight p := hanc.height_le
    obtain ⟨prev,hprev,hstate⟩ := hprev p hp hle
    have hp' : s.pprev pcur = some p := hp
    rw [hp']
    dsimp only
    rw [hstate,ablaAfter_child h hp hle,hprev]
    rfl

structure Verified (h : Linked s) (config : AblaConfig) (size : α → Nat) (pbase ptip : α) (ht : Nat)
    (v : VerifyState α) : Prop where
  done : ∀ b, h.tree.Anc pbase b → h.tree.Anc b ptip → s.nHeight b < ht → CarriesAbla s config pbase size v.states b
  prev : v.rebuilding = false → s.nHeight pbase < ht →
    ∃ p, h.tree.Anc p ptip ∧ s.nHeight p+1 = ht ∧ v.prevState = v.states p
  first : v.rebuilding = false → ht = s.nHeight pbase → v.prevState = none ∧ ∀ st, v.states pbase = some st →
    st.isValid config = true → st.blockSize = size pbase → st = .ofConfig config (size pbase)

variable {ht : Nat}

omit [DecidableEq α] in
theorem Verified.parent {h : Linked s} (hv : Verified h config size pbase ptip ht v) (hcur : h.tree.Anc pcur ptip)
    (hheight : s.nHeight pcur = ht) (hp : s.pprev pcur = some p) (hle : s.nHeight pbase ≤ s.nHeight p)
    (hbase : h.tree.Anc pbase ptip) : CarriesAbla s config pbase size v.states p := by
  have hanc : h.tree.Anc p ptip := (Anc.of_parent hp).trans hcur
  have hpar := h.height_parent hp
  exact hv.done p (hbase.of_height_le hanc hle) hanc (by omega)

theorem Verified.advance {h : Linked s} (hv : Verified h config size pbase ptip ht v) {st : AblaState}
    (hcur : h.tree.Anc pcur ptip) (hheight : s.nHeight pcur = ht)
    (hst : ablaAfter s config pbase size (s.nHeight pcur-s.nHeight pbase) pcur = .ok st) (hle : s.nHeight pbase ≤ ht)
    (hstates : v'.states = update v.states pcur (some st))
    (hprev : v'.rebuilding = false → v'.prevState = some st) : Verified h config size pbase ptip (ht+1) v' := by
  have hself : v'.states pcur = some st := by
    rw [hstates]
    exact update_self ..
  refine ⟨?_,?_,?_⟩
  · intro b hb hbt hlt
    by_cases hbc : b = pcur
    · rw [hbc]
      exact ⟨st,hst,hself⟩
    · have hne : s.nHeight b ≠ ht := by
        intro heq
        apply hbc
        exact (hbt.of_height_le hcur (by rw [← hheight] at heq; exact heq.le)).eq_of_height_le
          (by rw [← hheight] at heq; exact heq.ge)
      obtain ⟨stb,hstb,hb'⟩ := hv.done b hb hbt (by omega)
      refine ⟨stb,hstb,?_⟩
      rw [hstates,update_of_ne hbc]
      exact hb'
  · intro hreb _
    exact ⟨pcur,hcur,by omega,by rw [hprev hreb,hself]⟩
  · intro _ heq
    omega

theorem VerifyState.rebuild_spec (h : Linked s) (hread : readBlockSizeFromDisk pcur = some (size pcur))
    (hbase : h.tree.Anc pbase pcur)
    (hprev : ∀ p, s.pprev pcur = some p → s.nHeight pbase ≤ s.nHeight p → CarriesAbla s config pbase size v.states p) :
    (∀ state, v.rebuild s config readBlockSizeFromDisk pbase pcur = .ok state → ∃ st, state = some st ∧
      ablaAfter s config pbase size (s.nHeight pcur-s.nHeight pbase) pcur = .ok st) ∧
    (config.Safe → ∃ st, v.rebuild s config readBlockSizeFromDisk pbase pcur = .ok (some st)) := by
  rw [VerifyState.rebuild,hread]
  dsimp only
  rw [VerifyState.fromParent_eq h hbase hprev]
  constructor
  · intro state hrebuild
    obtain ⟨st,hst,hvalid⟩ := except_bind_ok.mp hrebuild
    split_ifs at hvalid
    exact ⟨st,(Except.ok.inj hvalid).symm,hst⟩
  · intro hconfig
    obtain ⟨st,hst,hvalid⟩ := ablaAfter_ok size hconfig h hbase
    exact ⟨st,by rw [hst,Except.bind,if_pos hvalid]⟩

omit [DecidableEq α] in
/-- The state that the next one is compared with. -/
theorem Verified.prevState_eq {h : Linked s} (hv : Verified h config size pbase ptip ht v)
    (hreb : v.rebuilding = false) (hcur : h.tree.Anc pcur ptip) (hheight : s.nHeight pcur = ht)
    (hbase : h.tree.Anc pbase ptip) (hle : s.nHeight pbase ≤ ht) :
    (pcur = pbase ∧ v.prevState = none) ∨ ∃ p st, s.pprev pcur = some p ∧ s.nHeight pbase ≤ s.nHeight p ∧
      ablaAfter s config pbase size (s.nHeight p-s.nHeight pbase) p = .ok st ∧ v.prevState = some st := by
  rcases Nat.eq_or_lt_of_le hle with heq | hlt
  · left
    refine ⟨?_,(hv.first hreb heq.symm).1⟩
    have hanc := hcur.of_height_le hbase (by show s.nHeight pcur ≤ s.nHeight pbase; omega)
    exact hanc.eq_of_height_le (by show s.nHeight pbase ≤ s.nHeight pcur; omega)
  · right
    obtain ⟨p,hpt,hpheight,hprev⟩ := hv.prev hreb hlt
    have hanc : h.tree.Anc p pcur := hpt.of_height_le hcur (by show s.nHeight p ≤ s.nHeight pcur; omega)
    obtain ⟨q,hq,hpq⟩ := hanc.parent_of_ne (by
      intro heq
      rw [heq] at hpheight
      omega)
    have hqheight := h.height_parent hq
    obtain rfl := hpq.eq_of_height_le (by show s.nHeight q ≤ s.nHeight p; omega)
    obtain ⟨st,hst,hstate⟩ := hv.parent hcur hheight hq (by omega) hbase
    exact ⟨p,st,hq,by omega,hst,by rw [hprev,hstate]⟩

theorem Verified.round (hs : Skipping s) (hv : Verified hs.toLinked config size pbase ptip ht v)
    (hc : Holds hs.toLinked chain.vChain ptip) (hbase : hs.toLinked.tree.Anc pbase ptip)
    (hread : ∀ b, hs.toLinked.tree.Anc pbase b → hs.toLinked.tree.Anc b ptip → readBlockSizeFromDisk b = some (size b))
    (hle : s.nHeight pbase ≤ ht) (hht : ht ≤ s.nHeight ptip) :
    (∀ r, v.round s config readBlockSizeFromDisk chain pbase ht = .ok r →
      ∃ v', r = some v' ∧ Verified hs.toLinked config size pbase ptip (ht+1) v') ∧
    (config.Safe → ∃ v', v.round s config readBlockSizeFromDisk chain pbase ht = .ok (some v')) := by
  obtain ⟨pcur,hget,hcur,hheight⟩ := exists_getAncestor (T := hs.toLinked.tree) hht
  have hpb : hs.toLinked.tree.Anc pbase pcur := hbase.of_height_le hcur (by rw [hheight]; exact hle)
  have hheight' : s.nHeight pcur = ht := hheight
  have hreadc := hread pcur hpb hcur
  -- Rebuilding the state at this height, whether it starts here or below.
  have hpart : (∀ r, ((v.rebuild s config readBlockSizeFromDisk pbase pcur).map fun state => state.map fun state =>
        { v with rebuilding := true, states := update v.states pcur (some state) }) = .ok r →
      ∃ v', r = some v' ∧ Verified hs.toLinked config size pbase ptip (ht+1) v') ∧
      (config.Safe → ∃ v', ((v.rebuild s config readBlockSizeFromDisk pbase pcur).map fun state =>
        state.map fun state => { v with rebuilding := true, states := update v.states pcur (some state) }) =
          .ok (some v')) := by
    obtain ⟨hrebuild,hrebuild'⟩ := VerifyState.rebuild_spec (v := v) hs.toLinked hreadc hpb
      fun p hp hlep => hv.parent hcur hheight' hp hlep hbase
    constructor
    · intro r hr
      cases hstate : v.rebuild s config readBlockSizeFromDisk pbase pcur with
      | error e =>
        rw [hstate] at hr
        cases hr
      | ok state =>
        obtain ⟨st,rfl,hst⟩ := hrebuild state hstate
        rw [hstate] at hr
        exact ⟨_,(Except.ok.inj hr).symm,hv.advance hcur hheight' hst hle rfl nofun⟩
    · intro hconfig
      obtain ⟨st,hst⟩ := hrebuild' hconfig
      exact ⟨_,by rw [hst,Except.map,Option.map_some]⟩
  rw [VerifyState.round,hc.entry,hget]
  dsimp only
  cases hreb : v.rebuilding with
  | true => exact hpart
  | false =>
    have hprev := hv.prevState_eq hreb hcur hheight' hbase hle
    cases hbad : v.bad config readBlockSizeFromDisk pcur with
    | error e =>
      refine ⟨fun r hr => (nomatch hr),fun hconfig => ?_⟩
      have hnext : ∀ prev, v.prevState = some prev → ∃ next, prev.nextBlockState config (size pcur) = .ok next := by
        intro prev hprevState
        rcases hprev with ⟨_,hnone⟩ | ⟨p,st,hp,hlep,hst,hsome⟩
        · rw [hnone] at hprevState
          cases hprevState
        · have hbasep : hs.toLinked.tree.Anc pbase p := hbase.of_height_le ((Anc.of_parent hp).trans hcur) hlep
          obtain ⟨st',hst',hvalid⟩ := ablaAfter_ok size hconfig hs.toLinked hbasep
          cases hst.symm.trans hst'
          cases hsome.symm.trans hprevState
          exact ⟨_,(AblaState.next_ok hconfig hvalid _).1⟩
      obtain ⟨r,hr⟩ := VerifyState.bad_ok hreadc hnext
      rw [hbad] at hr
      cases hr
    | ok bad =>
      cases bad with
      | true => exact hpart
      | false =>
        obtain ⟨cur,hstate,hvalid,hsize,hnext⟩ := VerifyState.bad_false hreadc hbad
        refine ⟨fun r hr => ⟨_,(Except.ok.inj hr).symm,?_⟩,fun _ => ⟨_,rfl⟩⟩
        have hst : ablaAfter s config pbase size (s.nHeight pcur-s.nHeight pbase) pcur = .ok cur := by
          rcases hprev with ⟨rfl,_⟩ | ⟨p,st,hp,hlep,hst,hsome⟩
          · rw [ablaAfter_base,(hv.first hreb hheight'.symm).2 cur hstate hvalid hsize]
          · rw [ablaAfter_child hs.toLinked hp hlep,hst]
            exact hnext st hsome
        apply hv.advance hcur hheight' hst hle
        · rw [← hstate]
          exact (update_eq_self pcur v.states).symm
        · intro _
          exact hstate

theorem Verified.loop (hs : Skipping s) (hc : Holds hs.toLinked chain.vChain ptip)
    (hbase : hs.toLinked.tree.Anc pbase ptip)
    (hread : ∀ b, hs.toLinked.tree.Anc pbase b → hs.toLinked.tree.Anc b ptip → readBlockSizeFromDisk b = some (size b))
    (count : Nat) (hv : Verified hs.toLinked config size pbase ptip ht v) (hle : s.nHeight pbase ≤ ht)
    (hcount : ht+count = s.nHeight ptip+1) :
    (∀ r, verifyLoop s config readBlockSizeFromDisk chain pbase count ht v = .ok r →
      ∃ v', r = some v' ∧ Verified hs.toLinked config size pbase ptip (s.nHeight ptip+1) v') ∧
    (config.Safe → ∃ v', verifyLoop s config readBlockSizeFromDisk chain pbase count ht v = .ok (some v')) := by
  induction count generalizing ht v with
  | zero =>
    obtain rfl : ht = s.nHeight ptip+1 := by omega
    exact ⟨fun r hr => ⟨v,(Except.ok.inj hr).symm,hv⟩,fun _ => ⟨v,rfl⟩⟩
  | succ count ih =>
    obtain ⟨hround,hround'⟩ := hv.round hs hc hbase hread hle (by omega)
    constructor
    · intro r hr
      rw [verifyLoop] at hr
      cases hr' : v.round s config readBlockSizeFromDisk chain pbase ht with
      | error e =>
        rw [hr'] at hr
        cases hr
      | ok r' =>
        obtain ⟨v',rfl,hv'⟩ := hround r' hr'
        rw [hr'] at hr
        exact (ih hv' (by omega) (by omega)).1 r hr
    · intro hconfig
      obtain ⟨v',hv'⟩ := hround' hconfig
      obtain ⟨v'',hv'',hverified⟩ := hround _ hv'
      cases hv''
      obtain ⟨w,hw⟩ := (ih hverified (by omega) (by omega)).2 hconfig
      refine ⟨w,?_⟩
      rw [verifyLoop,hv']
      exact hw

theorem VerifyState.round_keeps (hentry : chain.entry ht ≠ some b)
    (hr : v.round s config readBlockSizeFromDisk chain pbase ht = .ok (some v')) : v'.states b = v.states b := by
  rw [VerifyState.round] at hr
  cases hcur : chain.entry ht with
  | none =>
    rw [hcur] at hr
    cases hr
  | some pcur =>
    have hne : b ≠ pcur := fun heq => hentry (heq ▸ hcur)
    rw [hcur] at hr
    obtain ⟨rebuilding,-,hr⟩ := except_bind_ok.mp hr
    split_ifs at hr
    · cases Option.some.inj (Except.ok.inj hr)
      rfl
    · obtain ⟨state,-,hstate⟩ := except_map_ok.mp hr
      obtain ⟨st,-,rfl⟩ := Option.map_eq_some_iff.mp hstate
      exact update_of_ne hne ..

theorem verifyLoop_keeps (count : Nat) (hentry : ∀ ht' ≥ ht, chain.entry ht' ≠ some b)
    (hr : verifyLoop s config readBlockSizeFromDisk chain pbase count ht v = .ok (some v')) :
    v'.states b = v.states b := by
  induction count generalizing ht v with
  | zero =>
    cases Option.some.inj (Except.ok.inj hr)
    rfl
  | succ count ih =>
    rw [verifyLoop] at hr
    obtain ⟨o,ho,hr⟩ := except_bind_ok.mp hr
    cases o with
    | none => cases hr
    | some w => rw [ih (fun ht' hle => hentry ht' (by omega)) hr,VerifyState.round_keeps (hentry ht le_rfl) ho]

/-- A first state that is valid and has the right size is neither rebuilt nor looked at again. -/
theorem verifyLoop_first (hs : Skipping s) (hc : Holds hs.toLinked chain.vChain ptip)
    (hbase : hs.toLinked.tree.Anc pbase ptip) (hread : readBlockSizeFromDisk pbase = some (size pbase))
    {states : α → Option AblaState} {st : AblaState} (hst : states pbase = some st) (hvalid : st.isValid config = true)
    (hsize : st.blockSize = size pbase) {count : Nat}
    (hr : verifyLoop s config readBlockSizeFromDisk chain pbase (count+1) (s.nHeight pbase) { states } = .ok (some v')) :
    v'.states pbase = some st := by
  have hentry : ∀ ht, chain.entry ht = some pbase → ht = s.nHeight pbase := by
    intro ht hht
    rw [hc.entry] at hht
    exact (getAncestor_eq_some.mp hht).2.symm
  have hself : chain.entry (s.nHeight pbase) = some pbase := by
    rw [hc.entry]
    exact getAncestor_anc.mpr hbase
  have hbad : VerifyState.bad config readBlockSizeFromDisk pbase { states } = .ok false := by
    simp [VerifyState.bad,hst,hvalid,hread,hsize]
  have hround : VerifyState.round s config readBlockSizeFromDisk chain pbase { states } (s.nHeight pbase) =
      .ok (some { prevState := some st, states }) := by
    rw [VerifyState.round,hself]
    dsimp only
    rw [if_neg (by simp),hbad]
    simp [Except.bind,hst]
  rw [verifyLoop,hround] at hr
  rw [verifyLoop_keeps count (fun ht' hle he => by have := hentry ht' he; omega) hr]
  exact hst

/-- The call is the loop from the activation block to the tip. -/
theorem verifyAblaStateForChain_eq (hs : Skipping s) (hc : CChain.Set s chain) {predicate : α → Bool}
    (hmono : StaysEnabled s predicate) (htip : chain.tip = some ptip) (henabled : predicate ptip = true)
    (hbase : EarliestEnabled predicate hs.toLinked.tree ptip pbase) (states : α → Option AblaState) :
    Holds hs.toLinked chain.vChain ptip ∧
    verifyAblaStateForChain s config readBlockSizeFromDisk chain predicate states =
      (verifyLoop s config readBlockSizeFromDisk chain pbase (s.nHeight ptip-s.nHeight pbase+1) (s.nHeight pbase)
        { states }).map fun v => v.map VerifyState.states := by
  have hne : chain.vChain ≠ [] := by
    intro hempty
    rw [CChain.tip,hempty] at htip
    cases htip
  obtain ⟨t,_,hholds⟩ := (set_holds hs hc).resolve_left hne
  cases htip.symm.trans hholds.tip
  refine ⟨hholds,?_⟩
  have hok : TrackerOk s predicate { active := chain } := ⟨hc,fun _ h => by cases h⟩
  obtain ⟨c,tracker',hquery,_,hact,hanc⟩ := hok.getActivationBlock hs henabled
  have hbeside : ¬ TrackerState.besideCached s { active := chain } ptip := by
    intro h
    obtain ⟨_,hcached,_⟩ := h
    cases hcached
  have hcanc := hanc hbeside
  have hearliest := hact.earliest hmono hs.toLinked hcanc
  obtain rfl : pbase = c := (hbase.2.2 c hcanc hact.1).antisymm (hearliest.2.2 pbase hbase.1 hbase.2.1)
  have hle : s.nHeight pbase ≤ s.nHeight ptip := hcanc.height_le
  have henabled' : (!predicate ptip) = false := by rw [henabled]; rfl
  rw [verifyAblaStateForChain,htip]
  dsimp only
  rw [henabled',hquery,← Nat.sub_add_comm hle]
  rfl
end

/-- When the function returns true, every block carries the state that the sizes give exactly if a valid state of
the right size at the activation block is the first one. -/
theorem verifyAblaStateForChain_sound_iff {α : Type*} [DecidableEq α] {s : BlockEntries α} (hs : Built s)
    {chain : CChain α} (hc : CChain.Set s chain) {predicate : α → Bool} (hmono : StaysEnabled s predicate)
    {ptip : α} (htip : chain.tip = some ptip) (henabled : predicate ptip = true) (config : AblaConfig)
    {T : ParentTree α} (hT : T.parent = s.pprev) (hheight : T.height = s.nHeight) {pbase : α}
    (hbase : EarliestEnabled predicate T ptip pbase) {readBlockSizeFromDisk : α → Option Nat} {size : α → Nat}
    (hread : ∀ b, T.Anc pbase b → T.Anc b ptip → readBlockSizeFromDisk b = some (size b))
    (states : α → Option AblaState) :
    (∀ states', verifyAblaStateForChain s config readBlockSizeFromDisk chain predicate states = .ok (some states') →
      ((∀ b, T.Anc pbase b → T.Anc b ptip → CarriesAbla s config pbase size states' b) ↔
        ∀ st, states pbase = some st → st.isValid config = true → st.blockSize = size pbase →
          st = .ofConfig config (size pbase))) ∧
    (config.Safe → (∀ st, states pbase = some st → st.isValid config = true → st.blockSize = size pbase →
        st = .ofConfig config (size pbase)) → ∃ states',
      verifyAblaStateForChain s config readBlockSizeFromDisk chain predicate states = .ok (some states')) := by
  have hk := hs.skipping
  obtain rfl : T = hk.toLinked.tree := by
    cases T
    cases hT
    cases hheight
    rfl
  obtain ⟨hholds,heq⟩ : _ ∧ verifyAblaStateForChain s config readBlockSizeFromDisk chain predicate states = _ :=
    verifyAblaStateForChain_eq hk hc hmono htip henabled hbase states
  have hle : s.nHeight pbase ≤ s.nHeight ptip := hbase.1.height_le
  have hstart : (∀ st, states pbase = some st → st.isValid config = true → st.blockSize = size pbase →
      st = .ofConfig config (size pbase)) → Verified hk.toLinked config size pbase ptip (s.nHeight pbase) { states } :=
    fun hfirst => ⟨fun b hb _ hlt => absurd hlt (Nat.not_lt_of_le hb.height_le),
      fun _ hlt => absurd hlt (lt_irrefl _),fun _ _ => ⟨rfl,hfirst⟩⟩
  have hloop := fun hfirst => Verified.loop hk hholds hbase.1 hread (s.nHeight ptip-s.nHeight pbase+1)
    (hstart hfirst) (le_refl _) (by omega)
  rw [heq]
  refine ⟨fun states' hverify => ?_,fun hconfig hfirst => ?_⟩
  · obtain ⟨r,hr,hmap⟩ := except_map_ok.mp hverify
    obtain ⟨w,rfl,rfl⟩ := Option.map_eq_some_iff.mp hmap
    constructor
    · intro hcarries st hst hvalid hsize
      obtain ⟨st',hafter,hstate⟩ := hcarries pbase (.refl _) hbase.1
      rw [ablaAfter_base] at hafter
      rw [verifyLoop_first hk hholds hbase.1 (hread pbase (.refl _) hbase.1) hst hvalid hsize hr] at hstate
      rw [Option.some.inj hstate,← Except.ok.inj hafter]
    · intro hfirst b hb hbt
      obtain ⟨v',hv',hverified⟩ := (hloop hfirst).1 _ hr
      cases hv'
      exact hverified.done b hb hbt (Nat.lt_succ_of_le hbt.height_le)
  · obtain ⟨v',hv'⟩ := (hloop hfirst).2 hconfig
    exact ⟨v'.states,by rw [hv']; rfl⟩

theorem verify_genesis (st : AblaState) (hvalid : st.isValid defaultAbla = true) (hsize : st.blockSize = 100) :
    verifyAblaStateForChain (genesis 0) defaultAbla (fun _ => some 100) ⟨[some 0]⟩ (fun _ => true) (fun _ => some st) =
      .ok (some fun _ => some st) := by
  have hbad : VerifyState.bad defaultAbla (fun _ => some 100) 0 { states := fun _ : Nat => some st } = .ok false := by
    simp [VerifyState.bad,hvalid,hsize]
  have hround : VerifyState.round (genesis 0) defaultAbla (fun _ => some 100) ⟨[some 0]⟩ 0
      { states := fun _ : Nat => some st } 0 = .ok (some { prevState := some st, states := fun _ => some st }) := by
    rw [VerifyState.round]
    simp [CChain.entry,hbad,Except.bind]
  have hloop : verifyLoop (genesis 0) defaultAbla (fun _ => some 100) ⟨[some 0]⟩ 0 1 0
      { states := fun _ : Nat => some st } = .ok (some { prevState := some st, states := fun _ => some st }) := by
    rw [verifyLoop,hround]
    rfl
  have hquery : TrackerState.getActivationBlock (genesis 0) (fun _ => true) { active := ⟨[some 0]⟩ } 0 =
      .ok (0,{ active := ⟨[some 0]⟩, cachedActivationBlock := some 0 }) := rfl
  have htip : CChain.tip (CChain.mk [some 0]) = some 0 := rfl
  have hheight : (genesis 0).nHeight 0 = 0 := rfl
  rw [verifyAblaStateForChain,htip]
  dsimp only
  rw [if_neg (by decide),hquery,Except.bind,hheight,hloop]
  rfl

theorem set_genesis : CChain.Set (genesis 0) ⟨[some 0]⟩ :=
  .setTip .empty (fun _ hx => Option.some.inj hx ▸ List.mem_singleton_self 0) rfl

theorem verifyAblaStateForChain_keeps_wrong : ∃ config, AblaConfig.makeDefault 32000000 false = .ok config ∧
    config.Safe ∧ ∃ (s : BlockEntries Nat) (chain : CChain Nat) (states states' : Nat → Option AblaState),
      Built s ∧ CChain.Set s chain ∧ chain.tip = some 0 ∧ s.pprev 0 = none ∧
      verifyAblaStateForChain s config (fun _ => some 100) chain (fun _ => true) states = .ok (some states') ∧
      ¬ CarriesAbla s config 0 (fun _ => 100) states' 0 := by
  have hvalid : (AblaState.mk 100 16000001 16000000).isValid defaultAbla = true := by
    simp [AblaState.isValid,defaultAbla]
  refine ⟨defaultAbla,makeDefault_eq,defaultAbla_safe,genesis 0,⟨[some 0]⟩,_,_,.genesis 0,set_genesis,rfl,rfl,
    verify_genesis _ hvalid rfl,?_⟩
  intro h
  obtain ⟨st,hst,hstate⟩ := h
  rw [ablaAfter_base] at hst
  have heq := congrArg AblaState.controlBlockSize ((Except.ok.inj hst).trans (Option.some.inj hstate).symm)
  simp [AblaState.ofConfig,defaultAbla] at heq

/-- Three blocks of different sizes; the second has no state and the third a wrong one. -/
theorem verifyAblaStateForChain_sound_iff_rebuilt : ∃ config, AblaConfig.makeDefault 32000000 false = .ok config ∧
    ∃ (s : BlockEntries Nat) (chain : CChain Nat) (states states' : Nat → Option AblaState),
      Built s ∧ CChain.Set s chain ∧ chain.vChain = [some 0,some 1,some 2] ∧ states 1 = none ∧
      states 2 = some ⟨7,7,7⟩ ∧
      verifyAblaStateForChain s config (fun b => some (100*b+100)) chain (fun _ => true) states = .ok (some states') ∧
      ∀ b ∈ [0,1,2], CarriesAbla s config 0 (fun b => 100*b+100) states' b := by
  have h0 : Built (genesis 0) := .genesis 0
  have h1 := h0.insert (by decide) (by decide) (show (genesis 0).insert 1 0 = _ from rfl)
  have h2 := h1.insert (by decide) (by decide) (show BlockEntries.insert _ 2 1 = _ from rfl)
  have hset {s : BlockEntries Nat} {chain : CChain Nat} (_ : Built s) (ht : 2 ∈ s.known)
      (h : CChain.setTip s {} (some 2) = .ok chain) : CChain.Set s chain :=
    .setTip .empty (fun x hx => Option.some.inj hx ▸ ht) h
  have hc := hset h2 (by decide) (show _ = Except.ok (CChain.mk [some 0,some 1,some 2]) from rfl)
  let states : Nat → Option AblaState := fun b =>
    if b = 0 then some (.ofConfig defaultAbla 100) else if b = 1 then none else some ⟨7,7,7⟩
  have hlinked := h2.skipping.toLinked
  have h12 : hlinked.tree.Anc 1 2 := .of_parent rfl
  have h02 : hlinked.tree.Anc 0 2 := (Anc.of_parent rfl).trans h12
  have hbase : EarliestEnabled (fun _ => true) hlinked.tree 2 0 :=
    ⟨h02,rfl,fun a ha _ => h02.of_height_le ha (Nat.zero_le _)⟩
  obtain ⟨hiff,hreturns⟩ := verifyAblaStateForChain_sound_iff h2 hc (fun _ _ => rfl) rfl rfl defaultAbla rfl rfl hbase
    (fun b _ _ => (rfl : some (100*b+100) = some (100*b+100))) states
  have hfirst : ∀ st, states 0 = some st → st.isValid defaultAbla = true → st.blockSize = 100*0+100 →
      st = .ofConfig defaultAbla (100*0+100) := fun st hst _ _ => (Option.some.inj hst).symm
  obtain ⟨states',hverify⟩ := hreturns defaultAbla_safe hfirst
  have hall := (hiff states' hverify).mpr hfirst
  refine ⟨defaultAbla,makeDefault_eq,_,_,states,states',h2,hc,rfl,rfl,rfl,hverify,?_⟩
  simp only [List.forall_mem_cons,List.not_mem_nil,false_implies,implies_true,and_true]
  exact ⟨hall 0 (.refl 0) h02,hall 1 (h02.of_height_le h12 (Nat.zero_le _)) h12,hall 2 h02 (.refl 2)⟩
end BitfiniteCore
