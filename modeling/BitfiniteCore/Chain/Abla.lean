import BitfiniteCore.Chain.BlockIndex
import BitfiniteCore.Lib.GuardedRun
import BitfiniteCore.Lib.Median

/-!
# The adaptive block size limit

A block is named by its hash, and its serialized size is a function of it.
-/

namespace BitfiniteCore
open Function ParentTree GuardedRun List

structure AblaConfig where
  epsilon0 : Nat
  beta0 : Nat
  gammaReciprocal : Nat
  zeta_xB7 : Nat
  thetaReciprocal : Nat
  delta : Nat
  epsilonMax : Nat
  betaMax : Nat

structure AblaState where
  blockSize : Nat
  controlBlockSize : Nat
  elasticBufferSize : Nat
deriving DecidableEq, Repr

def u64Add (x y : Nat) : Nat := (x+y)%2^64

def u64Sub (x y : Nat) : Nat := (x+2^64-y%2^64)%2^64

def muldiv (x y z : Nat) : Except Stop Nat :=
  if z = 0 then .error (.assertion "z != 0")
  else if 2^64-1 < x*y/z then .error (.assertion "res <= std::numeric_limits<uint64_t>::max()")
  else .ok (x*y/z)

namespace AblaState

def ofConfig (config : AblaConfig) (blkSize : Nat) : AblaState := ⟨blkSize,config.epsilon0,config.beta0⟩

def isValid (st : AblaState) (config : AblaConfig) : Bool :=
  decide (config.epsilon0 ≤ st.controlBlockSize) && decide (st.controlBlockSize ≤ config.epsilonMax) &&
    decide (config.beta0 ≤ st.elasticBufferSize) && decide (st.elasticBufferSize ≤ config.betaMax)

def nextControlBlockSize (st : AblaState) (config : AblaConfig) (amplifiedCurrentBlockSize : Nat) : Except Stop Nat :=
  if st.controlBlockSize < amplifiedCurrentBlockSize then
    let bytesToAdd := u64Sub amplifiedCurrentBlockSize st.controlBlockSize
    (muldiv config.zeta_xB7 (u64Add st.controlBlockSize st.elasticBufferSize) 128).bind fun amplifiedBlockSizeLimit =>
    let bytesMax := u64Sub amplifiedBlockSizeLimit st.controlBlockSize
    (muldiv config.zeta_xB7 st.elasticBufferSize 128).bind fun amplifiedBuffer =>
    (muldiv amplifiedBuffer bytesToAdd bytesMax).map fun scalingOffset =>
      u64Add st.controlBlockSize (u64Sub bytesToAdd scalingOffset/config.gammaReciprocal)
  else
    let bytesToRemove := u64Sub st.controlBlockSize amplifiedCurrentBlockSize
    .ok (max (u64Sub st.controlBlockSize (bytesToRemove/config.gammaReciprocal)) config.epsilon0)

/-- `State::NextBlockState`, in 64-bit arithmetic. -/
def nextBlockState (st : AblaState) (config : AblaConfig) (nextBlockSize : Nat) : Except Stop AblaState :=
  let clampedBlockSize := min st.blockSize (u64Add st.controlBlockSize st.elasticBufferSize)
  (muldiv config.zeta_xB7 clampedBlockSize 128).bind fun amplifiedCurrentBlockSize =>
  (st.nextControlBlockSize config amplifiedCurrentBlockSize).bind fun controlBlockSize =>
  let bufferDecay := st.elasticBufferSize/config.thetaReciprocal
  let decayed := u64Sub st.elasticBufferSize bufferDecay
  let elasticBufferSize := if st.controlBlockSize < amplifiedCurrentBlockSize then
      u64Add decayed (u64Sub controlBlockSize st.controlBlockSize*config.delta%2^64)
    else decayed
  let ret : AblaState := ⟨nextBlockSize,min controlBlockSize config.epsilonMax,
    min (max elasticBufferSize config.beta0) config.betaMax⟩
  if ret.isValid config then .ok ret else .error (.assertion "ret.IsValid(config)")

def getBlockSizeLimit (st : AblaState) : Nat := min (u64Add st.controlBlockSize st.elasticBufferSize) 2000000000

def getNextBlockSizeLimit (st : AblaState) (config : AblaConfig) : Except Stop Nat :=
  (st.nextBlockState config 0).map getBlockSizeLimit
end AblaState

section Errors

variable {α β : Type} {e : Stop}

private theorem bind_ne_error {x : Except Stop α} {f : α → Except Stop β} (hx : x ≠ .error e)
    (hf : ∀ a, f a ≠ .error e) : x.bind f ≠ .error e := by
  cases x with
  | error e' => exact fun h => hx (congrArg Except.error (Except.error.inj h))
  | ok a => exact hf a

private theorem map_ne_error {x : Except Stop α} {f : α → β} (hx : x ≠ .error e) : x.map f ≠ .error e := by
  cases x with
  | error e' => exact fun h => hx (congrArg Except.error (Except.error.inj h))
  | ok a => exact nofun

private theorem muldiv_ne_error (x y z : Nat) : muldiv x y z ≠ .error (.assertion "ablaStateOpt") := by
  unfold muldiv
  split
  · simp
  split
  · simp
  · simp

private theorem nextBlockState_ne_error (st : AblaState) (config : AblaConfig) (size : Nat) :
    st.nextBlockState config size ≠ .error (.assertion "ablaStateOpt") := by
  apply bind_ne_error (muldiv_ne_error _ _ _)
  intro amplified
  apply bind_ne_error
  · unfold AblaState.nextControlBlockSize
    split
    · apply bind_ne_error (muldiv_ne_error _ _ _)
      intro limit
      apply bind_ne_error (muldiv_ne_error _ _ _)
      intro buffer
      exact map_ne_error (muldiv_ne_error _ _ _)
    · simp
  · intro control
    dsimp only
    generalize (if st.controlBlockSize < amplified then _ else _ : Nat) = elastic
    split
    · simp
    · simp
end Errors

structure AblaParams where
  ablaConfig : AblaConfig
  upgrade10ActivationTime : Nat
  confMaxBlockSize : Nat
  serializeSize : BlockHash → Nat

/-- The times and cached states of block index entries, the blocks received and the active tip. -/
structure AblaNode where
  tree : BlockTree
  nTime : BlockHash → Nat
  ablaState : BlockHash → Option AblaState
  received : List BlockHash
  tip : BlockHash

namespace AblaNode

variable (params : AblaParams) (n : AblaNode)

def getMedianTimePast (b : BlockHash) : Nat := Median.median (((n.tree.lineage b).take 11).map n.nTime)

def isUpgrade10Enabled (b : BlockHash) : Bool := decide (params.upgrade10ActivationTime ≤ n.getMedianTimePast b)

def maintainAblaState (b : BlockHash) : Except Stop AblaNode :=
  if !n.isUpgrade10Enabled params b then .ok n
  else if !(n.tree.parent b).any (n.isUpgrade10Enabled params) then
    .ok { n with
      ablaState := update n.ablaState b (some (.ofConfig params.ablaConfig (params.serializeSize b))) }
  else
    match (n.tree.parent b).bind n.ablaState with
    | none => .ok n
    | some st =>
      (st.nextBlockState params.ablaConfig (params.serializeSize b)).map fun st =>
        { n with ablaState := update n.ablaState b (some st) }

def getNextBlockSizeLimit (pindexPrev : BlockHash) : Except Stop Nat :=
  if !n.isUpgrade10Enabled params pindexPrev then .ok params.confMaxBlockSize
  else
    match n.ablaState pindexPrev with
    | none => .error (.assertion "ablaStateOpt")
    | some st => (st.getNextBlockSizeLimit params.ablaConfig).map (max params.confMaxBlockSize)

inductive Event where
  | header (hash prev : BlockHash) (nTime proof : Nat)
  | acceptBlock (b : BlockHash)
  | connectBlock (b : BlockHash)
  | disconnectTip

/-- A header not later than the median time of its parent is too old. -/
def next : Event → Except Stop AblaNode
  | .header hash prev nTime proof =>
    if h : hash ∉ n.tree.known ∧ prev ∈ n.tree.known ∧ 0 < proof ∧ n.getMedianTimePast prev < nTime then
      .ok { n with
        tree := n.tree.add hash prev proof 0 h.1 h.2.1 h.2.2.1
        nTime := update n.nTime hash nTime }
    else .ok n
  | .acceptBlock b =>
    if b ∈ n.tree.known ∧ b ∉ n.received then maintainAblaState params { n with received := b::n.received } b
    else .ok n
  | .connectBlock b =>
    if n.tree.parent b = some n.tip ∧ b ∈ n.received then
      (n.getNextBlockSizeLimit params n.tip).bind fun nMaxBlockSize =>
        if nMaxBlockSize < params.serializeSize b then .ok n
        else (n.maintainAblaState params b).map fun n => { n with tip := b }
    else .ok n
  | .disconnectTip => .ok ((n.tree.parent n.tip).elim n fun pprev => { n with tip := pprev })

/-- `LoadGenesisBlock`. -/
def ofGenesis (genesis : BlockHash) (nBits nTime : Nat) : Except Stop AblaNode := maintainAblaState params
    ⟨BlockTree.ofGenesis genesis nBits 0,fun _ => nTime,fun _ => none,[genesis],genesis⟩ genesis

def Step (n : AblaNode) (e : Event) (n' : AblaNode) : Prop := n.next params e = .ok n'

def ablaFold (b : BlockHash) : Except Stop (Option AblaState) :=
  match (n.tree.lineage b).reverse.dropWhile fun x => !n.isUpgrade10Enabled params x with
  | [] => .ok none
  | activation::after =>
    (after.foldlM (fun (st : AblaState) x => st.nextBlockState params.ablaConfig (params.serializeSize x))
      (.ofConfig params.ablaConfig (params.serializeSize activation))).map some

variable {params n} {n' : AblaNode} {a b p : BlockHash} {st : AblaState}

theorem getMedianTimePast_mono (hp : n.tree.parent b = some p) (htime : n.getMedianTimePast p < n.nTime b) :
    n.getMedianTimePast p ≤ n.getMedianTimePast b := by
  have hwindow : ((n.tree.lineage b).take 11).map n.nTime =
      n.nTime b::(((n.tree.lineage p).take 11).map n.nTime).take (2*5) := by
    rw [n.tree.lineage_parent hp,take_succ_cons,map_cons,← map_take,take_take]
    rfl
  unfold getMedianTimePast
  rw [hwindow]
  apply Median.median_le_window
  · rw [n.tree.lineage_eq]
    exact cons_ne_nil _ _
  · simp
  · exact htime

theorem ablaFold_activation (hb : n.isUpgrade10Enabled params b = true)
    (hbefore : ∀ p, n.tree.parent b = some p → ∀ a, n.tree.Anc a p → n.isUpgrade10Enabled params a = false) :
    n.ablaFold params b = .ok (some (.ofConfig params.ablaConfig (params.serializeSize b))) := by
  have hdrop : ((n.tree.parent b).elim [] n.tree.lineage).reverse.dropWhile
      (fun x => !n.isUpgrade10Enabled params x) = [] := by
    rw [dropWhile_eq_nil_iff]
    intro x hx
    cases hp : n.tree.parent b with
    | none =>
      rw [hp] at hx
      cases hx
    | some p =>
      rw [hp] at hx
      rw [hbefore p hp x (mem_lineage.mp (mem_reverse.mp hx))]
      rfl
  unfold ablaFold
  rw [n.tree.lineage_eq,reverse_cons,dropWhile_append,hdrop]
  simp [hb]
  rfl

theorem ablaFold_next (hp : n.tree.parent b = some p) (h : n.ablaFold params p = .ok (some st)) :
    n.ablaFold params b = (st.nextBlockState params.ablaConfig (params.serializeSize b)).map some := by
  unfold ablaFold at h ⊢
  rw [n.tree.lineage_parent hp,reverse_cons,dropWhile_append]
  cases hdrop : (n.tree.lineage p).reverse.dropWhile fun x => !n.isUpgrade10Enabled params x with
  | nil =>
    rw [hdrop] at h
    cases h
  | cons a after =>
    rw [hdrop] at h
    dsimp only at h
    rw [if_neg (by simp),cons_append]
    dsimp only
    rw [foldlM_append]
    cases hfold : after.foldlM (fun (st : AblaState) x =>
        st.nextBlockState params.ablaConfig (params.serializeSize x))
        (.ofConfig params.ablaConfig (params.serializeSize a)) with
    | error e =>
      rw [hfold] at h
      cases h
    | ok st' =>
      rw [hfold] at h
      obtain rfl := Option.some.inj (Except.ok.inj h)
      simp only [bind,Except.bind,pure,Except.pure,foldlM_cons,foldlM_nil]
      cases st'.nextBlockState params.ablaConfig (params.serializeSize b) with
      | error e => rfl
      | ok st => rfl

/-- The invariant: whatever is cached is the fold, and the active chain has it cached. -/
structure Cached (params : AblaParams) (n : AblaNode) : Prop where
  tip : n.tip ∈ n.tree.known
  time : ∀ {b p}, n.tree.parent b = some p → n.getMedianTimePast p < n.nTime b
  stored : ∀ {b st}, n.ablaState b = some st → b ∈ n.tree.known ∧ n.ablaFold params b = .ok (some st)
  active : ∀ {b}, n.tree.Anc b n.tip → n.isUpgrade10Enabled params b = true → ∃ st, n.ablaState b = some st

theorem Cached.enabled_of_anc (h : Cached params n) (hab : n.tree.Anc a b)
    (ha : n.isUpgrade10Enabled params a = true) : n.isUpgrade10Enabled params b = true := by
  induction hab with
  | refl => exact ha
  | tail _ hp ih =>
    unfold isUpgrade10Enabled at ih ⊢
    rw [decide_eq_true_eq] at ih ⊢
    exact le_trans ih (getMedianTimePast_mono hp (h.time hp))

private theorem Cached.withState (h : Cached params n) (hb : b ∈ n.tree.known)
    (hst : n.ablaFold params b = .ok (some st)) :
    Cached params { n with ablaState := update n.ablaState b (some st) } := by
  refine ⟨h.tip,h.time,fun {c st'} hc => ?_,fun {c} hc hen => ?_⟩
  · by_cases hcb : c = b
    · subst hcb
      have heq : some st = some st' := (update_self c (some st) n.ablaState).symm.trans hc
      cases heq
      exact ⟨hb,hst⟩
    · have heq : n.ablaState c = some st' := (update_of_ne hcb (some st) n.ablaState).symm.trans hc
      exact h.stored heq
  · by_cases hcb : c = b
    · subst hcb
      exact ⟨st,update_self ..⟩
    · obtain ⟨st',hst'⟩ := h.active hc hen
      exact ⟨st',(update_of_ne hcb (some st) n.ablaState).trans hst'⟩

/-- Maintaining the state of a block keeps the invariant. -/
theorem maintainAblaState_spec (h : Cached params n) (hb : b ∈ n.tree.known)
    (hok : n.maintainAblaState params b = .ok n') :
    Cached params n' ∧ n'.tree = n.tree ∧ n'.nTime = n.nTime ∧ n'.tip = n.tip ∧
      (n.isUpgrade10Enabled params b = true →
        (∀ p, n.tree.parent b = some p → n.isUpgrade10Enabled params p = true → ∃ st, n.ablaState p = some st) →
        ∃ st, n'.ablaState b = some st) := by
  unfold maintainAblaState at hok
  split at hok
  · rename_i hen
    cases hok
    refine ⟨h,rfl,rfl,rfl,fun hb' _ => ?_⟩
    rw [hb'] at hen
    cases hen
  rename_i hen
  have hen' : n.isUpgrade10Enabled params b = true := by simpa using hen
  split at hok
  · rename_i hparent
    cases hok
    refine ⟨h.withState hb (ablaFold_activation hen' fun p hp a ha => ?_),rfl,rfl,rfl,fun _ _ => ⟨_,update_self ..⟩⟩
    by_contra hane
    have hpen := h.enabled_of_anc ha (Bool.eq_true_of_not_eq_false hane)
    simp [hp,hpen] at hparent
  rename_i hparent
  obtain ⟨p,hp,hpen⟩ : ∃ p, n.tree.parent b = some p ∧ n.isUpgrade10Enabled params p = true := by
    cases hp : n.tree.parent b with
    | none => simp [hp] at hparent
    | some p => exact ⟨p,rfl,by simpa [hp] using hparent⟩
  rw [hp,Option.bind_some] at hok
  cases hst : n.ablaState p with
  | none =>
    rw [hst] at hok
    cases hok
    refine ⟨h,rfl,rfl,rfl,fun _ hall => ?_⟩
    obtain ⟨st,hst'⟩ := hall p hp hpen
    rw [hst] at hst'
    cases hst'
  | some st =>
    rw [hst] at hok
    dsimp only at hok
    cases hnext : st.nextBlockState params.ablaConfig (params.serializeSize b) with
    | error e =>
      rw [hnext] at hok
      cases hok
    | ok st' =>
      rw [hnext] at hok
      cases hok
      have hfold := ablaFold_next hp (h.stored hst).2
      rw [hnext] at hfold
      exact ⟨h.withState hb hfold,rfl,rfl,rfl,fun _ _ => ⟨st',update_self ..⟩⟩

private theorem dropWhile_congr {α : Type} {p q : α → Bool} (l : List α) (h : ∀ x ∈ l, p x = q x) :
    l.dropWhile p = l.dropWhile q := by
  induction l with
  | nil => rfl
  | cons x l ih =>
    rw [dropWhile_cons,dropWhile_cons,h x mem_cons_self,ih fun y hy => h y (mem_cons_of_mem x hy)]

private theorem Cached.header (h : Cached params n) {hash prev : BlockHash} {nTime proof : Nat}
    (hnew : hash ∉ n.tree.known) (hprev : prev ∈ n.tree.known) (hproof : 0 < proof)
    (htime : n.getMedianTimePast prev < nTime) :
    Cached params { n with
      tree := n.tree.add hash prev proof 0 hnew hprev hproof
      nTime := update n.nTime hash nTime } := by
  have hext : n.tree.Extends (n.tree.add hash prev proof 0 hnew hprev hproof) := BlockTree.add_extends
  have hne : ∀ b ∈ n.tree.known, b ≠ hash := fun b hb he => hnew (he ▸ hb)
  have hmtp : ∀ b ∈ n.tree.known, Median.median ((((n.tree.add hash prev proof 0 hnew hprev hproof).lineage b).take
      11).map (update n.nTime hash nTime)) = n.getMedianTimePast b := by
    intro b hb
    rw [hext.lineage hb]
    congr 1
    apply map_congr_left
    intro x hx
    exact update_of_ne (hne x (BlockTree.known_of_anc (mem_lineage.mp (mem_of_mem_take hx)) hb)) _ _
  have hen : ∀ b ∈ n.tree.known, isUpgrade10Enabled params { n with
      tree := n.tree.add hash prev proof 0 hnew hprev hproof
      nTime := update n.nTime hash nTime } b = n.isUpgrade10Enabled params b := by
    intro b hb
    unfold isUpgrade10Enabled
    congr 2
    exact hmtp b hb
  refine ⟨hext.known _ h.tip,fun {b p} hp => ?_,fun {b st} hst => ?_,fun {b} hb hb' => ?_⟩
  · by_cases hbh : b = hash
    · subst hbh
      have hp' : update n.tree.parent b (some prev) b = some p := hp
      rw [update_self] at hp'
      cases hp'
      have hself : update n.nTime b nTime b = nTime := update_self ..
      exact lt_of_eq_of_lt (hmtp prev hprev) (lt_of_lt_of_eq htime hself.symm)
    · have hp' : update n.tree.parent hash (some prev) b = some p := hp
      rw [update_of_ne hbh] at hp'
      have hself : update n.nTime hash nTime b = n.nTime b := update_of_ne hbh ..
      exact lt_of_eq_of_lt (hmtp p (n.tree.parent_known hp').2) (lt_of_lt_of_eq (h.time hp') hself.symm)
  · obtain ⟨hk,hfold⟩ := h.stored hst
    refine ⟨hext.known b hk,?_⟩
    rw [← hfold]
    unfold ablaFold
    rw [hext.lineage hk,dropWhile_congr]
    intro x hx
    rw [hen x (BlockTree.known_of_anc (mem_lineage.mp (mem_reverse.mp hx)) hk)]
  · have hanc := (hext.anc_iff h.tip).mp hb
    rw [hen b (BlockTree.known_of_anc hanc h.tip)] at hb'
    exact h.active hanc hb'

theorem Cached.next (h : Cached params n) {e : Event} (hstep : Step params n e n') : Cached params n' := by
  unfold Step at hstep
  cases e with
  | header hash prev nTime proof =>
    rw [AblaNode.next] at hstep
    split at hstep
    · rename_i hc
      cases hstep
      exact h.header hc.1 hc.2.1 hc.2.2.1 hc.2.2.2
    · cases hstep
      exact h
  | acceptBlock b =>
    rw [AblaNode.next] at hstep
    split at hstep
    · rename_i hc
      have h' : Cached params { n with received := b::n.received } := ⟨h.tip,h.time,h.stored,h.active⟩
      exact (maintainAblaState_spec h' hc.1 hstep).1
    · cases hstep
      exact h
  | connectBlock b =>
    rw [AblaNode.next] at hstep
    split at hstep
    · rename_i hc
      obtain ⟨nMaxBlockSize,hmax,hstep⟩ := except_bind_ok.mp hstep
      split at hstep
      · cases hstep
        exact h
      · cases hm : n.maintainAblaState params b with
        | error e =>
          rw [hm] at hstep
          cases hstep
        | ok n1 =>
          rw [hm] at hstep
          cases hstep
          have hk := n.tree.parent_known hc.1
          obtain ⟨h1,htree,htimes,htip,hstate⟩ := maintainAblaState_spec h hk.1 hm
          refine ⟨?_,h1.time,h1.stored,fun {c} hcb hen => ?_⟩
          · rw [htree]
            exact hk.1
          · have hcb' : n1.tree.Anc c b := hcb
            have hen' : n1.isUpgrade10Enabled params c = true := hen
            rw [htree] at hcb'
            rcases anc_iff.mp hcb' with rfl | ⟨q,hq,hcq⟩
            · have henn : n.isUpgrade10Enabled params c = true := by
                unfold isUpgrade10Enabled getMedianTimePast at hen' ⊢
                rwa [htree,htimes] at hen'
              apply hstate henn
              intro p hp hpen
              cases hp.symm.trans hc.1
              exact h.active (.refl _) hpen
            · cases hq.symm.trans hc.1
              apply h1.active _ hen'
              rw [htree,htip]
              exact hcq
    · cases hstep
      exact h
  | disconnectTip =>
    rw [AblaNode.next] at hstep
    cases hp : n.tree.parent n.tip with
    | none =>
      rw [hp] at hstep
      cases hstep
      exact h
    | some pprev =>
      rw [hp] at hstep
      cases hstep
      exact ⟨(n.tree.parent_known hp).2,h.time,h.stored,fun {b} hb hen => h.active (hb.trans (.of_parent hp)) hen⟩

theorem ofGenesis_cached {genesis : BlockHash} {nBits nTime : Nat} (h : ofGenesis params genesis nBits nTime = .ok n) :
    Cached params n := by
  have hroot : ∀ x p, (BlockTree.ofGenesis genesis nBits 0).parent x ≠ some p := by
    intro x p hp
    cases hp
  unfold ofGenesis maintainAblaState at h
  split at h
  · rename_i hen
    cases h
    refine ⟨(BlockTree.ofGenesis genesis nBits 0).genesis_known,fun {b p} hp => absurd hp (hroot b p),
      fun {b st} hst => ?_,fun {b} hb hb' => ?_⟩
    · cases hst
    · obtain rfl := hb.root rfl
      rw [hb'] at hen
      cases hen
  · rename_i hen
    have hen' : isUpgrade10Enabled params
        ⟨BlockTree.ofGenesis genesis nBits 0,fun _ => nTime,fun _ => none,[genesis],genesis⟩ genesis = true := by
      simpa using hen
    split at h
    · cases h
      refine ⟨(BlockTree.ofGenesis genesis nBits 0).genesis_known,fun {b p} hp => absurd hp (hroot b p),
        fun {b st} hst => ?_,fun {b} hb hb' => ?_⟩
      · by_cases hbg : b = genesis
        · subst hbg
          have hst' : some _ = some st := (update_self b _ (fun _ => none)).symm.trans hst
          rw [← hst']
          exact ⟨(BlockTree.ofGenesis b nBits 0).genesis_known,
            ablaFold_activation hen' fun p hp => absurd hp (hroot b p)⟩
        · have hst' : none = some st := (update_of_ne hbg _ (fun _ => none)).symm.trans hst
          cases hst'
      · obtain rfl := hb.root rfl
        exact ⟨_,update_self ..⟩
    · rename_i hparent
      exact absurd rfl hparent
end AblaNode

open AblaNode

/-- From the activation block on, every block of the active chain carries the fold of its chain's sizes. -/
theorem ablaState_is_fold {params : AblaParams} {genesis : BlockHash} {nBits nTime : Nat} {start n : AblaNode}
    (hstart : AblaNode.ofGenesis params genesis nBits nTime = .ok start)
    (run : Reaches (AblaNode.Step params) (fun _ _ => True) start n) {b : BlockHash} (hb : n.tree.Anc b n.tip) :
    (∀ a, n.tree.Anc a b → n.isUpgrade10Enabled params a = true →
      ∃ st, n.ablaState b = some st ∧ n.ablaFold params b = .ok (some st)) ∧
    n.getNextBlockSizeLimit params b ≠ .error (.assertion "ablaStateOpt") := by
  have h : Cached params n := run.invariant (ofGenesis_cached hstart) fun hc _ hstep => hc.next hstep
  constructor
  · intro a ha hen
    obtain ⟨st,hst⟩ := h.active hb (h.enabled_of_anc ha hen)
    exact ⟨st,hst,(h.stored hst).2⟩
  · unfold AblaNode.getNextBlockSizeLimit
    split
    · exact nofun
    · rename_i hen
      obtain ⟨st,hst⟩ := h.active hb (by simpa using hen)
      rw [hst]
      exact map_ne_error (map_ne_error (nextBlockState_ne_error _ _ _))

/-- Three blocks of 1000 bytes with the upgrade enabled at the second, all connected. -/
def ablaSampleParams : AblaParams := ⟨⟨16000000,16000000,37938,192,37938,10,2^62,2^62⟩,200,32000000,fun _ => 1000⟩

def ablaSampleRun : List AblaNode.Event :=
  [.header 2 1 300 1,.header 3 2 400 1,.acceptBlock 3,.acceptBlock 2,.connectBlock 2,.connectBlock 3]

private theorem reaches_foldlM {params : AblaParams} {start n m : AblaNode} (es : List AblaNode.Event)
    (run : Reaches (AblaNode.Step params) (fun _ _ => True) start n)
    (h : es.foldlM (AblaNode.next params) n = .ok m) :
    Reaches (AblaNode.Step params) (fun _ _ => True) start m := by
  induction es generalizing n with
  | nil =>
    cases h
    exact run
  | cons e es ih =>
    rw [foldlM_cons] at h
    obtain ⟨n1,hn1,h1⟩ := except_bind_ok.mp h
    exact ih (run.tail trivial hn1) h1

theorem ablaState_is_fold_sample : ∃ start n, AblaNode.ofGenesis ablaSampleParams 1 0x207fffff 100 = .ok start ∧
    Reaches (AblaNode.Step ablaSampleParams) (fun _ _ => True) start n ∧ n.tip = 3 ∧
    n.isUpgrade10Enabled ablaSampleParams 2 = true ∧
    ∃ st, n.ablaState 3 = some st ∧ n.ablaFold ablaSampleParams 3 = .ok (some st) := by
  obtain ⟨start,hstart,n,hrun,htip,h2,h3⟩ : ∃ start, AblaNode.ofGenesis ablaSampleParams 1 0x207fffff 100 = .ok start ∧
      ∃ n, ablaSampleRun.foldlM (AblaNode.next ablaSampleParams) start = .ok n ∧ n.tip = 3 ∧
        n.isUpgrade10Enabled ablaSampleParams 2 = true ∧ n.tree.parent 3 = some 2 :=
    ⟨_,rfl,_,rfl,rfl,by decide,by decide⟩
  have run := reaches_foldlM ablaSampleRun .refl hrun
  refine ⟨start,n,hstart,run,htip,h2,?_⟩
  apply (ablaState_is_fold hstart run (b := 3) (htip ▸ .refl _)).1 2 (.of_parent h3) h2
end BitfiniteCore
