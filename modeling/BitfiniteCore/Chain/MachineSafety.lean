import BitfiniteCore.Chain.Consistent
import BitfiniteCore.Lib.ExceptPost

/-!
# The chain state under every interleaving

`ActivateBestChain` releases `cs_main` with its target at hand.
-/

namespace BitfiniteCore
open Function ParentTree GuardedRun

/-- The block that `ActivateBestChain` works towards. -/
def ActivatePc.target : ActivatePc → Option BlockHash
  | .idle => none
  | .released most => most
  | .choosing _ _ most => most
  | .disconnecting _ _ _ most => some most
  | .connecting _ _ most _ _ _ => some most

/-- `ConnectBlock` is about to reject a block. -/
def ActivatePc.rejects (cfg : ChainConfig) : ActivatePc → Bool
  | .connecting _ _ _ _ _ (b::_) => !cfg.connectBlock b
  | _ => false

namespace ChainState

variable {s s' t : ChainState} {a b c p x f start old fork most back : BlockHash} {cfg : ChainConfig} {now : Int}
  {pc pc' : ActivatePc} {strict r : Bool} {o : Option BlockHash}

/-- The blocks lead from child to child up to a block. -/
def Climbs (T : BlockTree) : BlockHash → List BlockHash → BlockHash → Prop
  | a, [], top => a = top
  | a, b::l, top => T.parent b = some a ∧ Climbs T b l top

/-- Where the active chain is on the way to the target: above the fork, or below the blocks to connect. -/
def Placed (s : ChainState) : ActivatePc → Prop
  | .disconnecting _ _ fork most => s.tree.Anc fork most ∧ s.tree.Anc fork s.tip ∧
    ∀ a, s.tree.Anc a most → s.tree.Anc a s.tip → s.tree.Anc a fork
  | .connecting _ _ most nHeight _ toConnect => ∃ top, Climbs s.tree s.tip toConnect top ∧ s.tree.Anc top most ∧
    s.tree.height top = nHeight
  | _ => True

/-- The block is a candidate and, where `strict`, does not undo the finalized block. -/
def Eligible (strict : Bool) (s : ChainState) (b : BlockHash) : Prop :=
  b ∈ s.setBlockIndexCandidates ∧ (strict = true → ∀ {f}, s.pindexFinalized = some f → s.tree.Anc f b)

/-- What holds while `ActivateBestChain` is at `pc`. -/
structure Safe (strict : Bool) (s : ChainState) (pc : ActivatePc) : Prop where
  consistent : Consistent s
  target : ∀ {b}, pc.target = some b → Eligible strict s b
  placed : Placed s pc

/-- What a step leaves; `rejected` says that `ConnectBlock` rejects a block. -/
structure Progress (strict rejected : Bool) (s s' : ChainState) (pc' : ActivatePc) : Prop where
  safe : Safe strict s' pc'
  finalized : strict = true → rejected = false → ∀ {a f}, s.pindexFinalized = some f → s.tree.Anc a f →
    ∃ g, s'.pindexFinalized = some g ∧ s'.tree.Anc a g

theorem Progress.of_keeps (h : Consistent s) (hk : Keeps s s') (hplaced : Placed s' pc')
    (htarget : ∀ {b}, pc'.target = some b → Eligible strict s' b) : Progress strict r s s' pc' :=
  ⟨⟨hk.consistent h,htarget,hplaced⟩,
    fun _ _ {_ f} hf ha => ⟨f,hk.agree.finalized.trans hf,hk.agree.tree ▸ ha⟩⟩

/-- A place outside `ActivateBestChainStep` with no target other than `o`. -/
def Toward (o : Option BlockHash) (pc : ActivatePc) : Prop :=
  (∀ s, Placed s pc) ∧ ∀ {b}, pc.target = some b → o = some b

theorem Progress.toward (h : Consistent s) (hk : Keeps s s') (hpc : Toward o pc')
    (ho : ∀ {b}, o = some b → Eligible strict s' b) : Progress strict r s s' pc' :=
  .of_keeps h hk (hpc.1 s') fun hb => ho (hpc.2 hb)

theorem leaveMain_toward (s : ChainState) (o : Option BlockHash) : Toward o (s.leaveMain o) := by
  rw [leaveMain]
  split
  · exact ⟨fun _ => trivial,by simp [ActivatePc.target]⟩
  · exact ⟨fun _ => trivial,id⟩

theorem finishStep_toward (s : ChainState) (start most : BlockHash) (fInvalidFound : Bool) :
    Toward (if fInvalidFound then none else some most) (s.finishStep start most fInvalidFound) := by
  rw [finishStep]
  generalize (if fInvalidFound then none else some most) = o
  split
  · exact ⟨fun _ => trivial,id⟩
  · exact leaveMain_toward s o

section Choosing

theorem areOnTheSameFork_iff : s.areOnTheSameFork a b = true ↔ s.tree.Anc a b ∨ s.tree.Anc b a := by
  have hle : ∀ {x y}, s.tree.Anc x y → s.tree.height x ≤ s.tree.height y := fun h => h.height_le
  unfold areOnTheSameFork
  split_ifs with h1 h2
  · rw [beq_iff_eq,getAncestor_anc]
    exact ⟨.inr,fun h => h.resolve_left fun hab => absurd (hle hab) (by omega)⟩
  · rw [beq_iff_eq,getAncestor_anc]
    exact ⟨.inl,fun h => h.resolve_right fun hba => absurd (hle hba) (by omega)⟩
  · rw [beq_iff_eq]
    refine ⟨fun h => .inl (h ▸ .refl a),fun h => ?_⟩
    rcases h with h | h
    · exact h.eq_of_height_le (by omega)
    · exact (h.eq_of_height_le (by omega)).symm

theorem isBlockFinalized_iff : s.isBlockFinalized b = true ↔ ∃ f, s.pindexFinalized = some f ∧ s.tree.Anc b f := by
  simp only [isBlockFinalized,Option.any_eq_true,beq_iff_eq,getAncestor_anc]

theorem conflictsWithFinalized_eq_false (h : s.conflictsWithFinalized b = false) (hf : s.pindexFinalized = some f) :
    s.tree.Anc b f ∨ s.tree.Anc f b := by
  rw [conflictsWithFinalized,hf] at h
  exact areOnTheSameFork_iff.mp (by simpa using h)

theorem failIfConflicting_keeps (s : ChainState) (b : BlockHash) : Keeps s (s.failIfConflicting b) := by
  rw [failIfConflicting]
  split
  · rename_i hconflict
    rw [invalidChainFound,if_neg]
    · exact .setStatus s b _ (by rfl)
    · intro hfinal
      obtain ⟨f,hf,hbf⟩ := isBlockFinalized_iff.mp hfinal
      have hsame : s.areOnTheSameFork b f = true := areOnTheSameFork_iff.mpr (.inl hbf)
      rw [conflictsWithFinalized,show s.pindexFinalized = some f from hf] at hconflict
      simp [hsame] at hconflict
  · exact .refl s

theorem findMostWorkChain_keeps (h : Consistent s) :
    (s.findMostWorkChain cfg = .ok (.found b t) → Keeps s t) ∧
      (s.findMostWorkChain cfg = .ok (.again t) → Keeps s t) := by
  rw [findMostWorkChain]
  cases hbest : s.bestCandidate with
  | none => simp
  | some c =>
    have hk := failIfConflicting_keeps s c
    have hc := (h.candidates (bestCandidate_spec hbest).1).1
    dsimp only
    cases hfork : (s.failIfConflicting c).findFork c with
    | none => simp
    | some fork =>
      dsimp only
      cases htest : testChain cfg c fork ((s.failIfConflicting c).tree.path fork c) [] (s.failIfConflicting c) with
      | error => simp [Except.map]
      | ok r =>
        have hr : Keeps s r.1 := hk.trans (testChain_keeps (fun x hx => by
          have hanc := (mem_path hx).1
          rw [hk.agree.tree] at hanc ⊢
          rw [hk.agree.nChainTx]
          exact ⟨h.known (h.anc hanc hc),h.anc hanc hc⟩) (by simp) htest)
        simp only [Except.map]
        split_ifs
        · refine ⟨fun he => ?_,by simp⟩
          cases he
          exact hr
        · refine ⟨by simp,fun he => ?_⟩
          cases he
          exact hr

/-- A chosen block does not undo the finalized one: a conflicting candidate fails the walk to the
fork, and a candidate is not worse than the tip. -/
theorem found_eligible (h : Consistent s) (hfound : s.findMostWorkChain cfg = .ok (.found b t)) :
    Eligible strict t b := by
  have hk := (findMostWorkChain_keeps h).1 hfound
  cases hbest : s.bestCandidate with
  | none =>
    rw [findMostWorkChain_none hbest] at hfound
    cases hfound
  | some c =>
    obtain ⟨fork,u,hfork,⟨hround,hunparks,husable,-⟩ | ⟨u',hround,-⟩⟩ := findMostWorkChain_round cfg h.ready hbest
    swap
    · cases hround.symm.trans hfound
    cases hround.symm.trans hfound
    have hmem := (bestCandidate_spec hbest).1
    have hwork := (h.candidates hmem).2
    refine ⟨hunparks.subset ((failIfConflicting_spec s b).2.2.2.2.1 ▸ hmem),fun _ {f} hf => ?_⟩
    rw [hk.agree.finalized] at hf
    rw [hk.agree.tree]
    have hftip := h.finalized hf
    obtain ⟨hforkb,hforktip,-⟩ := findFork_spec hfork
    have hsame : s.tree.Anc b f ∨ s.tree.Anc f b := by
      by_cases hb : b = fork
      · exact (hb ▸ hforktip).comparable hftip
      cases hconflict : s.conflictsWithFinalized b with
      | false => exact conflictsWithFinalized_eq_false hconflict hf
      | true =>
        obtain ⟨p,hp,-⟩ := hforkb.parent_of_ne (Ne.symm hb)
        have hvalid := (husable b (by rw [path_parent hp hb]; exact List.mem_cons_self)).2.1
        rw [(hunparks.cleared b).invalid,failIfConflicting,if_pos hconflict,invalidChainFound] at hvalid
        split at hvalid <;> simp [setStatus,BlockStatus.isInvalid,BlockStatus.withFailed] at hvalid
    rcases hsame with hbf | hfb
    · have hb : b = s.tip := by
        by_contra hne
        exact absurd (BlockTree.work_lt_of_anc (hbf.trans hftip) hne) (by omega)
      exact hb ▸ hftip
    · exact hfb
end Choosing

section Tip

theorem Consistent.refinalize (h : Consistent s) {o : Option BlockHash} (ho : ∀ {f}, o = some f → s.tree.Anc f s.tip) :
    Consistent { s with pindexFinalized := o } :=
  ⟨h.received,h.total,h.linked,h.unlinked,h.candidates,h.tip,ho⟩

theorem Consistent.invalidChainFound (h : Consistent s) (b : BlockHash) : Consistent (s.invalidChainFound b) := by
  rw [ChainState.invalidChainFound]
  split
  · rename_i hfinal
    obtain ⟨f,hf,hbf⟩ := isBlockFinalized_iff.mp hfinal
    exact h.refinalize fun hp => (Anc.of_parent hp).trans (hbf.trans (h.finalized hf))
  · exact h

theorem invalidChainFound_candidates (s : ChainState) (b : BlockHash) :
    (s.invalidChainFound b).setBlockIndexCandidates = s.setBlockIndexCandidates := by
  rw [invalidChainFound]
  split <;> rfl

theorem failed_keeps (s : ChainState) (b : BlockHash) :
    Keeps s { s.setStatus b ((s.nStatus b).withFailed true) with failedBlocks := s.failedBlocks.insert b } :=
  ⟨⟨rfl,rfl,rfl,rfl,rfl,rfl,rfl⟩,(Keeps.setStatus s b _ (by rfl)).data,.inl,.inl⟩

theorem Consistent.disconnectTip (h : Consistent s) (hs' : s.disconnectTip = some s') :
    Consistent s' ∧ s'.setBlockIndexCandidates = s.setBlockIndexCandidates := by
  obtain ⟨p,hp,rfl⟩ := Option.map_eq_some_iff.mp hs'
  refine ⟨⟨h.received,h.total,h.linked,h.unlinked,fun hc => ?_,h.linked hp h.tip,fun {f} hf => ?_⟩,rfl⟩
  · exact ⟨(h.candidates hc).1,(s.tree.work_parent hp).le.trans (h.candidates hc).2⟩
  · dsimp only at hf ⊢
    split at hf
    · exact Option.some.inj hf ▸ .refl p
    · rename_i hne
      obtain ⟨q,hq,hfq⟩ := (h.finalized hf).parent_of_ne fun he => hne (he ▸ hf)
      exact Option.some.inj (hp.symm.trans hq) ▸ hfq

theorem findBlockToFinalize_anc (h : s.findBlockToFinalize cfg b now = some c) : s.tree.Anc c b := by
  unfold findBlockToFinalize at h
  dsimp only at h
  split at h
  · cases h
  · obtain ⟨a,ha,hc⟩ := Option.bind_eq_some_iff.mp h
    have hca := mem_lineage.mp (List.takeWhile_subset _ (List.mem_of_find?_eq_some hc))
    split at ha
    · cases ha
    · exact hca.trans (getAncestor_eq_some.mp ha).1

/-- With a depth other than 0 the new tip is not finalized at once. -/
theorem findBlockToFinalize_ne (hdepth : cfg.maxreorgdepth ≠ 0) (h : s.findBlockToFinalize cfg b now = some c) :
    c ≠ b := by
  unfold findBlockToFinalize at h
  dsimp only at h
  split at h
  · cases h
  · obtain ⟨a,ha,hc⟩ := Option.bind_eq_some_iff.mp h
    have hca := (mem_lineage.mp (List.takeWhile_subset _ (List.mem_of_find?_eq_some hc))).height_le
    split at ha
    · cases ha
    · obtain ⟨hanc,hheight⟩ := getAncestor_eq_some.mp ha
      have hab := hanc.height_le
      rintro rfl
      omega

/-- What `ConnectTip` can do. -/
inductive Connected (cfg : ChainConfig) (s : ChainState) (b : BlockHash) : ConnectTipResult → Prop
  | rejected (h : cfg.connectBlock b = false) : Connected cfg s b (.invalid (s.invalidBlockFound b) false)
  | refused {u : ChainState} (h : Keeps s u) : Connected cfg s b (.invalid u true)
  | failed {u : ChainState} {q : Option BlockHash} (h : Keeps s u) (hnew : ∀ {f}, q = some f → s.tree.Anc f s.tip)
      (hold : ∀ {f}, s.pindexFinalized = some f → ∃ g, q = some g ∧ s.tree.Anc f g) :
      Connected cfg s b (.failed { u with pindexFinalized := q })
  | connected {u : ChainState} {q : Option BlockHash} (h : Keeps s u)
      (hset : u.setBlockIndexCandidates = s.setBlockIndexCandidates) (hnew : ∀ {f}, q = some f → s.tree.Anc f b)
      (hold : ∀ {f}, s.pindexFinalized = some f → ∃ g, q = some g ∧ s.tree.Anc f g) :
      Connected cfg s b (.connected { u with tip := b, pindexFinalized := q })

theorem finishConnect_connected (disk : DiskResult) {u : ChainState} {q : Option BlockHash} (h : Keeps s u)
    (hset : u.setBlockIndexCandidates = s.setBlockIndexCandidates) (hnew : ∀ {f}, q = some f → s.tree.Anc f b)
    (hfailed : disk = .flushFailed → ∀ {f}, q = some f → s.tree.Anc f s.tip)
    (hold : ∀ {f}, s.pindexFinalized = some f → ∃ g, q = some g ∧ s.tree.Anc f g) :
    Connected cfg s b (finishConnect { u with pindexFinalized := q } disk b) := by
  rw [finishConnect]
  split
  · rename_i hdisk
    exact .failed h (hfailed hdisk) hold
  · exact .connected (u := u) h hset hnew hold

theorem connectTip_ok {disk : DiskResult} (h : Consistent s) (hdisk : disk = .flushFailed → cfg.maxreorgdepth ≠ 0)
    {res : ConnectTipResult} (hok : s.connectTip cfg disk b now = .ok res) : Connected cfg s b res := by
  have hk := Keeps.setStatus s b _ (raiseValidity_hasData _ .scripts)
  have hset : (s.setStatus b ((s.nStatus b).raiseValidity .scripts)).setBlockIndexCandidates =
    s.setBlockIndexCandidates := rfl
  have hstay : ∀ {f}, s.pindexFinalized = some f → ∃ g, s.pindexFinalized = some g ∧ s.tree.Anc f g :=
    fun {f} hf => ⟨f,hf,.refl f⟩
  unfold connectTip at hok
  split at hok
  · cases hok
  rename_i hp
  have hanc : ∀ {f}, s.pindexFinalized = some f → s.tree.Anc f b := fun hf =>
    (h.finalized hf).trans (.of_parent (not_not.mp hp))
  split at hok
  · cases hok
    exact .failed (.refl s) h.finalized hstay
  split at hok
  · rename_i hreject
    cases hok
    exact .rejected (by simpa using hreject)
  dsimp only at hok
  generalize s.setStatus b ((s.nStatus b).raiseValidity .scripts) = u at hk hset hok
  have hsame : Connected cfg s b (u.finishConnect disk b) := by
    have h1 : Connected cfg s b _ := finishConnect_connected disk hk hset hanc (fun _ => h.finalized) hstay
    rwa [← hk.agree.finalized] at h1
  split at hok
  · cases hok
    exact hsame
  rename_i c hfind
  have hcb := findBlockToFinalize_anc hfind
  rw [hk.agree.tree] at hcb
  unfold finalizeBlockInternal at hok
  split_ifs at hok with hinvalid hconflict hfinal
  · cases hok
    exact .refused hk
  · cases hok
    exact .refused hk
  · cases hok
    exact hsame
  · cases hok
    refine finishConnect_connected (q := some c) disk hk hset (fun hf => Option.some.inj hf ▸ hcb)
      (fun hflush {f} hf => ?_) fun {f} hf => ⟨c,rfl,?_⟩
    · obtain rfl := Option.some.inj hf
      obtain ⟨q,hq,hcq⟩ := hcb.parent_of_ne (findBlockToFinalize_ne (hdisk hflush) hfind)
      obtain rfl := Option.some.inj (hq.symm.trans (not_not.mp hp))
      exact hcq
    · have hf' := hk.agree.finalized.trans hf
      rw [← hk.agree.tree]
      refine (conflictsWithFinalized_eq_false (by simpa using hconflict) hf').resolve_left fun hcf => ?_
      exact hfinal (isBlockFinalized_iff.mpr ⟨f,hf',hcf⟩)
end Tip

section Steps

theorem prune_ok (h : s.pruneBlockIndexCandidates = .ok t) : t = { s with
    setBlockIndexCandidates := s.setBlockIndexCandidates.filter fun x => !s.worse x s.tip } := by
  unfold pruneBlockIndexCandidates at h
  dsimp only at h
  split at h <;> cases h
  rfl

theorem mem_prune (hmem : most ∈ s.setBlockIndexCandidates) (hanc : s.tree.Anc b most) :
    most ∈ s.setBlockIndexCandidates.filter fun x => !s.worse x b := by
  refine List.mem_filter.mpr ⟨hmem,?_⟩
  rw [Bool.not_eq_true',not_worse_iff]
  by_cases hb : b = most
  · subst hb
    omega
  · have := BlockTree.work_lt_of_anc hanc hb
    omega

theorem Climbs.anc {T : BlockTree} {l : List BlockHash} (h : Climbs T a l b) : T.Anc a b := by
  induction l generalizing a with
  | nil => exact h ▸ .refl a
  | cons x l ih => exact (Anc.of_parent h.1).trans (ih h.2)

theorem Climbs.concat {T : BlockTree} {l : List BlockHash} (h : Climbs T a l p) (hp : T.parent b = some p) :
    Climbs T a (l++[b]) b := by
  induction l generalizing a with
  | nil => exact ⟨h ▸ hp,rfl⟩
  | cons x l ih => exact ⟨h.1,ih h.2⟩

theorem lineage_climbs {T : BlockTree} (hab : T.Anc a b) :
    Climbs T a ((T.lineage b).takeWhile fun x => T.height x ≠ T.height a).reverse b := by
  have hself : Climbs T a ((T.lineage a).takeWhile fun x => T.height x ≠ T.height a).reverse a := by
    rw [T.lineage_eq,List.takeWhile_cons_of_neg (by simp)]
    exact rfl
  induction b using T.induction_up with
  | root b hb =>
    rw [hab.root hb] at hself ⊢
    exact hself
  | child b p hp ih =>
    by_cases hba : b = a
    · exact hba ▸ hself
    obtain ⟨q,hq,haq⟩ := hab.parent_of_ne (Ne.symm hba)
    obtain rfl := Option.some.inj (hp.symm.trans hq)
    have hh := T.height_parent hp
    have hle := haq.height_le
    rw [T.lineage_parent hp,List.takeWhile_cons_of_pos (by simp; omega),List.reverse_cons]
    exact (ih haq).concat hp

theorem nextChunk_climbs (h : s.tree.Anc s.tip most) : ∃ top,
    Climbs s.tree s.tip (s.nextChunk most (s.tree.height s.tip)) top ∧ s.tree.Anc top most ∧
      s.tree.height top = min (s.tree.height s.tip+32) (s.tree.height most) := by
  obtain ⟨top,hget,htop,hheight⟩ := exists_getAncestor (T := s.tree.toParentTree) (b := most)
    (h := min (s.tree.height s.tip+32) (s.tree.height most)) (Nat.min_le_right _ _)
  have hle := h.height_le
  refine ⟨top,?_,htop,hheight⟩
  rw [nextChunk,hget,Option.map_some,Option.getD_some]
  exact lineage_climbs (h.of_height_le htop (by omega))

theorem disconnecting_progress (h : Safe strict s (.disconnecting start old fork most)) (hne : s.tip ≠ fork)
    (hs' : s.disconnectTip = some s') : Progress strict r s s' (.disconnecting start old fork most) := by
  obtain ⟨hfm,htip,hmax⟩ := h.placed
  have hc := (h.consistent.disconnectTip hs').1
  obtain ⟨p,hp,rfl⟩ := Option.map_eq_some_iff.mp hs'
  obtain ⟨q,hq,hfork⟩ := htip.parent_of_ne (Ne.symm hne)
  obtain rfl := Option.some.inj (hp.symm.trans hq)
  -- a finalized tip would be above the fork
  have hstay : strict = true → s.pindexFinalized ≠ some s.tip := fun hs hf =>
    hne ((hmax _ ((h.target rfl).2 hs hf) (.refl _)).antisymm htip)
  refine ⟨⟨hc,fun hb => ⟨(h.target hb).1,fun hs {f} hf => ?_⟩,hfm,hfork,fun a ha hap =>
    hmax a ha (hap.trans (.of_parent hp))⟩,fun hs _ {a f} hf ha => ⟨f,(if_neg (hstay hs)).trans hf,ha⟩⟩
  dsimp only at hf
  rw [if_neg (hstay hs)] at hf
  exact (h.target hb).2 hs hf

theorem connecting_progress {nHeight : Nat} {rest : List BlockHash} {disk : DiskResult}
    (h : Safe strict s (.connecting start old most nHeight back (b::rest)))
    (hdisk : disk = .flushFailed → cfg.maxreorgdepth ≠ 0)
    (hok : s.connectNext cfg disk now start old most nHeight back b rest = .ok (s',pc')) :
    Progress strict (!cfg.connectBlock b) s s' pc' := by
  have hc := h.consistent
  obtain ⟨top,⟨hp,hclimb⟩,htop,hheight⟩ := h.placed
  have hbm := hclimb.anc.trans htop
  obtain ⟨res,hres,hok⟩ := except_bind_ok.mp hok
  cases connectTip_ok hc hdisk hres with
  | failed hk hnew hold =>
    cases hok
    rw [← hk.agree.tree] at hnew hold
    refine ⟨⟨(hk.consistent hc).refinalize fun hf => hk.agree.tip ▸ hnew hf,by simp [ActivatePc.target],trivial⟩,
      fun _ _ {a f} hf ha => ?_⟩
    obtain ⟨g,hg,hfg⟩ := hold hf
    rw [← hk.agree.tree] at ha
    exact ⟨g,hg,ha.trans hfg⟩
  | rejected hreject =>
    have hpc := finishStep_toward ((s.invalidBlockFound b).invalidChainFound back) start most true
    cases hok
    refine ⟨⟨?_,fun hb => absurd (hpc.2 hb) (by simp),hpc.1 _⟩,fun _ hr => absurd hr (by simp [hreject])⟩
    exact (((failed_keeps s b).consistent hc).invalidChainFound b).invalidChainFound back
  | refused hk =>
    cases hok
    exact .toward hc hk (finishStep_toward _ start most true) (by simp)
  | @connected t o hk hset hnew hold =>
    obtain ⟨u,hu,hok⟩ := except_map_ok.mp hok
    have hu := prune_ok hu
    have ht := hk.consistent hc
    have hmem := (h.target rfl).1
    have hb := hc.anc hbm (hc.candidates hmem).1
    rw [← hset] at hmem
    rw [← hk.agree.tree] at hnew hold hbm hclimb htop hheight
    have hsafe : Consistent u ∧ Eligible strict u most := by
      subst hu
      refine ⟨⟨ht.received,ht.total,ht.linked,ht.unlinked,fun hc => ?_,hk.agree.nChainTx ▸ hb,hnew⟩,
        mem_prune hmem hbm,fun _ {f} hf => (hnew hf).trans hbm⟩
      obtain ⟨hc,hworse⟩ := List.mem_filter.mp hc
      exact ⟨(ht.candidates hc).1,work_le_of_not_worse (s := t) ((Bool.not_eq_true' _).mp hworse)⟩
    have hfinal : ∀ {a f}, s.pindexFinalized = some f → s.tree.Anc a f →
        ∃ g, u.pindexFinalized = some g ∧ u.tree.Anc a g := by
      subst hu
      intro a f hf ha
      obtain ⟨g,hg,hfg⟩ := hold hf
      rw [← hk.agree.tree] at ha
      exact ⟨g,hg,ha.trans hfg⟩
    obtain ⟨rfl,rfl⟩ := Prod.mk.inj hok
    split
    · have hpc := finishStep_toward u start most false
      exact ⟨⟨hsafe.1,fun he => Option.some.inj (hpc.2 he) ▸ hsafe.2,hpc.1 u⟩,fun _ _ => hfinal⟩
    · refine ⟨⟨hsafe.1,fun he => Option.some.inj he ▸ hsafe.2,top,?_⟩,fun _ _ => hfinal⟩
      rw [hu]
      exact ⟨hclimb,htop,hheight⟩

theorem activateStep_progress {disk : DiskResult} (h : Safe strict s pc)
    (hdisk : disk = .flushFailed → cfg.maxreorgdepth ≠ 0) (hok : s.activateStep cfg disk now pc = .ok (s',pc')) :
    Progress strict (pc.rejects cfg) s s' pc' := by
  have hc := h.consistent
  cases pc with
  | idle =>
    cases hok
    exact .of_keeps hc (.refl s) trivial h.target
  | released =>
    cases hok
    exact .of_keeps hc (.refl s) trivial h.target
  | choosing start blocksConnected most =>
    cases most with
    | none =>
      obtain ⟨r,hr,hok⟩ := except_map_ok.mp hok
      cases r with
      | none =>
        cases hok
        split
        · exact .toward hc (.refl s) (leaveMain_toward s none) (by simp)
        · exact .of_keeps hc (.refl s) trivial (by simp [ActivatePc.target])
      | found b t =>
        cases hok
        exact .of_keeps hc ((findMostWorkChain_keeps hc).1 hr) trivial
          fun he => Option.some.inj he ▸ found_eligible hc hr
      | again t =>
        cases hok
        exact .of_keeps hc ((findMostWorkChain_keeps (b := s.tip) hc).2 hr) trivial (by simp [ActivatePc.target])
    | some most =>
      rw [activateStep] at hok
      split at hok
      · cases hok
        split
        · exact .toward hc (.refl s) (leaveMain_toward s _) h.target
        · exact .of_keeps hc (.refl s) trivial (by simp [ActivatePc.target])
      · split at hok
        · cases hok
        · rename_i fork hfork
          cases hok
          exact .of_keeps hc (.refl s) (findFork_spec hfork) h.target
  | disconnecting start old fork most =>
    rw [activateStep] at hok
    split at hok
    · rename_i htip
      cases hok
      exact .of_keeps hc (.refl s) ⟨s.tip,rfl,htip ▸ h.placed.1,by rw [htip]⟩ h.target
    · rename_i hne
      split at hok
      · cases hok
        exact .of_keeps hc (.refl s) trivial (by simp [ActivatePc.target])
      split at hok
      · cases hok
      · rename_i hs'
        cases hok
        exact disconnecting_progress h hne hs'
  | connecting start old most nHeight back toConnect =>
    cases toConnect with
    | cons b rest => exact connecting_progress h hdisk hok
    | nil =>
      rw [activateStep] at hok
      dsimp only at hok
      split at hok
      · cases hok
        exact .toward hc (.refl s) (finishStep_toward s start most false) h.target
      · cases hok
        obtain ⟨_,rfl,htip,rfl⟩ := h.placed
        exact .of_keeps hc (.refl s) (nextChunk_climbs htip) h.target

/-- Nothing fails but the assertion that no invariant here excludes. -/
abbrev Completes {α : Type} (x : Except Stop α) : Prop :=
  ExceptPost (· = .assertion "failedit->nStatus.hasFailed()") (fun _ => True) x

theorem findMostWorkChain_completes (h : Consistent s) : Completes (s.findMostWorkChain cfg) := by
  cases hbest : s.bestCandidate with
  | none =>
    rw [findMostWorkChain_none hbest]
    trivial
  | some b =>
    obtain ⟨fork,t,-,⟨hround,-⟩ | ⟨s',hround,-⟩⟩ := findMostWorkChain_round cfg h.ready hbest <;>
      rw [hround] <;> trivial

theorem connectNext_completes {nHeight : Nat} {rest : List BlockHash} {disk : DiskResult}
    (h : Safe strict s (.connecting start old most nHeight back (b::rest)))
    (hdisk : disk = .flushFailed → cfg.maxreorgdepth ≠ 0) :
    Completes (s.connectNext cfg disk now start old most nHeight back b rest) := by
  obtain ⟨top,⟨hp,hclimb⟩,htop,-⟩ := h.placed
  refine ExceptPost.bind (P := Connected cfg s b) ?_ fun res hres => ?_
  · obtain ⟨res,hres⟩ : ∃ res, s.connectTip cfg disk b now = .ok res := by
      rw [connectTip,if_neg (not_not.mpr hp)]
      dsimp only
      repeat' split
      all_goals exact ⟨_,rfl⟩
    rw [hres]
    exact connectTip_ok h.consistent hdisk hres
  cases hres with
  | failed => trivial
  | rejected => trivial
  | refused => trivial
  | @connected t o hk hset =>
    refine ExceptPost.map (P := fun _ => True) ?_ fun _ _ => trivial
    have hmem : most ∈ t.setBlockIndexCandidates := hset ▸ (h.target rfl).1
    have hne := List.ne_nil_of_mem (mem_prune hmem (hk.agree.tree ▸ hclimb.anc.trans htop))
    rw [pruneBlockIndexCandidates]
    dsimp only
    split
    · rename_i hnil
      exact absurd hnil hne
    · trivial

theorem activateStep_completes {disk : DiskResult} (h : Safe strict s pc)
    (hdisk : disk = .flushFailed → cfg.maxreorgdepth ≠ 0) : Completes (s.activateStep cfg disk now pc) := by
  have hc := h.consistent
  cases pc with
  | idle => trivial
  | released => trivial
  | choosing start blocksConnected most =>
    cases most with
    | none => exact (findMostWorkChain_completes hc).map fun _ _ => trivial
    | some most =>
      obtain ⟨fork,hfork⟩ := exists_findFork (hc.known (hc.candidates (h.target rfl).1).1) (hc.known hc.tip)
      rw [activateStep,hfork]
      split <;> trivial
  | disconnecting start old fork most =>
    rw [activateStep]
    split
    · trivial
    · rename_i hne
      split
      · trivial
      obtain ⟨p,hp,-⟩ := h.placed.2.1.parent_of_ne (Ne.symm hne)
      rw [disconnectTip,hp]
      trivial
  | connecting start old most nHeight back toConnect =>
    cases toConnect with
    | nil =>
      rw [activateStep]
      dsimp only
      split <;> trivial
    | cons b rest => exact connectNext_completes h hdisk

theorem acceptBlockHeader_completes (header : CBlockHeader) (contextual : Bool) :
    Completes (s.acceptBlockHeader cfg header contextual now) := by
  unfold acceptBlockHeader
  dsimp only
  repeat' split
  all_goals trivial

theorem acceptBlock_completes (block : ReceivedBlock) (contextual : Bool) :
    Completes (s.acceptBlock cfg block contextual now) := by
  refine (acceptBlockHeader_completes block.header contextual).bind fun r _ => ?_
  dsimp only
  repeat' split
  all_goals trivial

/-- What an operator's call leaves. -/
def Upheld (s s' : ChainState) : Prop := Consistent s' ∧ s.setBlockIndexCandidates ⊆ s'.setBlockIndexCandidates

theorem unwindBlock_upheld (h : Consistent s) (u : Unwind) (disk : DiskResult) :
    Upheld s (s.unwindBlock u disk).1 := by
  have hself : Upheld s s := ⟨h,List.Subset.refl _⟩
  unfold unwindBlock
  split
  · dsimp only
    unfold markUnwound
    split
    · exact hself
    obtain ⟨hk,hsub⟩ := restoreCandidates_keeps s.tree.known
      { s.setStatus u.toMarkFailed ((s.nStatus u.toMarkFailed).withFailed true) with
        failedBlocks := s.failedBlocks.insert u.toMarkFailed }
    refine ⟨(((failed_keeps s u.toMarkFailed).trans hk).consistent h).invalidChainFound _,?_⟩
    exact (invalidChainFound_candidates _ _).symm ▸ hsub
  · unfold unwindTip
    split
    · exact hself
    split
    · exact hself
    dsimp only
    cases hs' : s.disconnectTip with
    | none => exact hself
    | some t =>
      obtain ⟨ht,hset⟩ := h.disconnectTip hs'
      have hk1 := Keeps.setStatus t s.tip ((t.nStatus s.tip).withFailed true) rfl
      have hk := hk1.trans (insertCandidate_keeps (hk1.consistent ht).tip le_rfl)
      have hsub : ∀ c ∈ s.setBlockIndexCandidates, c ∈ (t.insertCandidate t.tip).setBlockIndexCandidates := fun c hc =>
        mem_insertCandidate.mpr (.inr (hset ▸ hc))
      dsimp only
      split
      · exact ⟨(hk.trans (.setStatus _ u.toMarkFailed _ (by rfl))).consistent ht,hsub⟩
      · exact ⟨hk.consistent ht,hsub⟩

theorem resetBlockFailureFlags_upheld (h : Consistent s) (hb : b ∈ s.tree.known) :
    Upheld s (s.resetBlockFailureFlags b) := by
  have h1 : Consistent { s with pindexFinalized := s.pindexFinalized.bind fun f => s.tree.lastCommonAncestor b f } := by
    refine h.refinalize fun {c} hc => ?_
    obtain ⟨f,hf,hc⟩ := Option.bind_eq_some_iff.mp hc
    exact (lastCommonAncestor_eq_some.mp hc).2.1.trans (h.finalized hf)
  have hk := updateFlags_keeps (s := { s with
    pindexFinalized := s.pindexFinalized.bind fun f => s.tree.lastCommonAncestor b f })
    .withClearedFailureFlags .withClearedFailureFlags (.withFailedParent · false) hb
    (by rintro u (rfl | rfl | rfl) st <;> rfl)
  exact ⟨hk.consistent h1,fun c hc => mem_updateFlags_of_changed hb (.inl hc)⟩

theorem placed_of_free (hfree : pc.holdsMain = false) : Placed s pc := by
  cases pc with
  | idle => trivial
  | released => trivial
  | choosing => cases hfree
  | disconnecting => cases hfree
  | connecting => cases hfree

theorem Progress.of_arrived (h : Safe strict s pc) (hfree : pc.holdsMain = false) (ha : Arrived s s') :
    Progress strict r s s' pc := by
  have hc := h.consistent
  refine ⟨⟨ha.consistent,fun hb => ?_,placed_of_free hfree⟩,
    fun _ _ {a f} hf haf => ⟨f,ha.finalized.trans hf,ha.anc (hc.anc (hc.finalized hf) hc.tip) haf⟩⟩
  obtain ⟨hmem,hsettled⟩ := h.target hb
  exact ⟨ha.subset hmem,fun hs {f} hf => ha.anc (hc.candidates hmem).1 (hsettled hs (ha.finalized ▸ hf))⟩

theorem Progress.of_operator (h : Safe false s pc) (hfree : pc.holdsMain = false)
    (hs' : Upheld s s') : Progress false r s s' pc :=
  ⟨⟨hs'.1,fun hb => ⟨hs'.2 (h.target hb).1,by simp⟩,placed_of_free hfree⟩,by simp⟩
end Steps
end ChainState

/-- A step of an operator's call. -/
def Event.operator : Event → Bool
  | .invalidate _ => true
  | .unwind _ _ => true
  | .reset _ => true
  | _ => false

namespace Node
open ChainState

variable {cfg : ChainConfig} {n n' : Node} {e : Event} {genesis a f : BlockHash} {nBits : Nat} {nTimeReceived : Int}
  {guard : Node → Event → Prop} {strict : Bool}

/-- The step leaves no branch with `2^32` transactions, and with `-maxreorgdepth=0` no flush fails while a block is
connected. -/
def Regular (cfg : ChainConfig) (n : Node) (e : Event) : Prop :=
  (∀ n', n.next cfg e = .ok n' → FewTx n'.chain) ∧ ∀ now, e = .proceed .flushFailed now → cfg.maxreorgdepth ≠ 0

theorem Step.progress (hstep : Step cfg n e n') (hregular : Regular cfg n e)
    (h : ChainState.Safe strict n.chain n.activate) (hstrict : strict = true → e.operator = false) :
    ChainState.Progress strict (n.activate.rejects cfg) n.chain n'.chain n'.activate := by
  obtain ⟨henabled,hnext⟩ := hstep
  have hfew := hregular.1 n' hnext
  have hstay : ∀ {pc}, ChainState.Placed n.chain pc → (∀ {b}, pc.target = some b → n.activate.target = some b) →
      ChainState.Progress strict (n.activate.rejects cfg) n.chain n.chain pc := fun hplaced htarget =>
    .of_keeps h.consistent (.refl _) hplaced fun hb => h.target (htarget hb)
  cases e with
  | header header contextual now =>
    obtain ⟨r,hr,rfl⟩ := except_map_ok.mp hnext
    exact .of_arrived h (by simpa [enabled] using henabled) (h.consistent.header (acceptBlockHeader_ok hr)).1
  | block block contextual now =>
    obtain ⟨s,hs,rfl⟩ := except_map_ok.mp hnext
    exact .of_arrived h (by simpa [enabled] using henabled) (h.consistent.block (acceptBlock_ok hs) hfew)
  | activate =>
    cases hnext
    exact hstay trivial (by simp [ActivatePc.target])
  | proceed disk now =>
    obtain ⟨r,hr,rfl⟩ := except_map_ok.mp hnext
    exact activateStep_progress h (fun hdisk => hregular.2 now (hdisk ▸ rfl)) hr
  | invalidate b =>
    cases hnext
    exact hstay h.placed id
  | unwind i disk =>
    obtain rfl : strict = false := by simpa [Event.operator] using hstrict
    simp only [enabled,Bool.and_eq_true,Bool.not_eq_true'] at henabled
    simp only [next] at hnext
    split at hnext
    · cases hnext
      exact hstay h.placed id
    · rename_i u _
      cases hnext
      have hu := unwindBlock_upheld h.consistent u disk
      unfold unwindAt
      split <;> exact .of_operator h henabled.1 (by simp_all)
  | reset b =>
    obtain rfl : strict = false := by simpa [Event.operator] using hstrict
    cases hnext
    simp only [enabled,Bool.and_eq_true,Bool.not_eq_true',decide_eq_true_eq] at henabled
    exact .of_operator h henabled.1 (resetBlockFailureFlags_upheld h.consistent henabled.2)

theorem safe_of_reaches (strict : Bool)
    (run : Reaches (Step cfg) guard (ofGenesis genesis nBits nTimeReceived) n)
    (hguard : ∀ {n e}, guard n e → Regular cfg n e ∧ (strict = true → e.operator = false)) :
    ChainState.Safe strict n.chain n.activate := by
  refine run.invariant (P := fun n : Node => ChainState.Safe strict n.chain n.activate)
    ⟨.ofGenesis genesis nBits nTimeReceived,?_,trivial⟩
    fun h hg hstep => (hstep.progress (hguard hg).1 h (hguard hg).2).safe
  simp [ofGenesis,ActivatePc.target]

theorem safe_of_regular (run : Reaches (Step cfg) (Regular cfg) (ofGenesis genesis nBits nTimeReceived) n) :
    ChainState.Safe false n.chain n.activate :=
  safe_of_reaches false run fun h => ⟨h,by simp⟩

/-- The node after a list of events, if all of them can happen and no branch gets too many transactions. -/
def after (cfg : ChainConfig) : List Event → Node → Option Node
  | [], n => some n
  | e::es, n =>
    if n.enabled e then (n.next cfg e).toOption.bind fun m => if FewTx m.chain then after cfg es m else none
    else none

theorem reaches_after {es : List Event} (hes : ∀ e ∈ es, ∀ now, e ≠ .proceed .flushFailed now)
    (hguard : ∀ e ∈ es, ∀ n, Regular cfg n e → guard n e) (h : after cfg es n = some n') :
    Reaches (Step cfg) guard n n' := by
  induction es generalizing n with
  | nil => exact Option.some.inj h ▸ .refl
  | cons e es ih =>
    obtain ⟨he,hes⟩ := List.forall_mem_cons.mp hes
    obtain ⟨hg,hguard⟩ := List.forall_mem_cons.mp hguard
    rw [after] at h
    split at h
    · rename_i henabled
      obtain ⟨m,hm,h⟩ := Option.bind_eq_some_iff.mp h
      have hstep : n.next cfg e = .ok m := by
        cases hnext : n.next cfg e <;> simp_all [Except.toOption]
      split at h
      · rename_i hfew
        have hregular : Regular cfg n e := by
          refine ⟨fun n' hn' => ?_,fun now hnow => absurd hnow (he now)⟩
          obtain rfl := Except.ok.inj (hstep.symm.trans hn')
          exact hfew
        exact Reaches.trans (.tail .refl (hg n hregular) ⟨henabled,hstep⟩) (ih hes hguard h)
      · cases h
    · cases h

/-- A chain that finalizes every block at once. -/
def quickFinality : ChainConfig := ⟨0,0,true,true,0,0,2^255,fun _ => true⟩

def childHeader (b : BlockHash) : CBlockHeader := ⟨1,b-1,0,0,0x207fffff,0,b⟩

def connectChild (b : BlockHash) : List Event :=
  .block ⟨childHeader b,1,true,.valid,fun _ => Nat.one_pos,by decide⟩ true 0::.activate::
    List.replicate 6 (.proceed .good 0)

theorem connectChild_operator {b : BlockHash} : ∀ e ∈ connectChild b,
    e.operator = false ∧ ∀ now, e ≠ .proceed .flushFailed now := by
  simp [connectChild,Event.operator]

/-- Block 2 is connected to a chain on which block 1 is finalized. -/
theorem quick_runs : ∃ n n',
    Reaches (Step quickFinality) (fun n e => Regular quickFinality n e ∧ e.operator = false)
      (ofGenesis 0 0x207fffff 0) n ∧
    Reaches (Step quickFinality) (fun n e => Regular quickFinality n e ∧ e.operator = false ∧
      n.activate.rejects quickFinality = false) n n' ∧
    n.chain.pindexFinalized = some 1 ∧ n'.chain.pindexFinalized = some 2 := by
  have heval : ((after quickFinality (connectChild 1) (ofGenesis 0 0x207fffff 0)).bind fun n =>
      (after quickFinality (connectChild 2) n).map fun n' => (n.chain.pindexFinalized,n'.chain.pindexFinalized)) =
      some (some 1,some 2) := by
    decide +kernel
  have hrejects : ∀ pc : ActivatePc, pc.rejects quickFinality = false := fun pc => by
    unfold ActivatePc.rejects
    split <;> rfl
  obtain ⟨n,hn,heval⟩ := Option.bind_eq_some_iff.mp heval
  obtain ⟨n',hn',heval⟩ := Option.map_eq_some_iff.mp heval
  obtain ⟨hf,hf'⟩ := Prod.mk.inj heval
  exact ⟨n,n',
    reaches_after (fun e he => (connectChild_operator e he).2)
      (fun e he n h => ⟨h,(connectChild_operator e he).1⟩) hn,
    reaches_after (fun e he => (connectChild_operator e he).2)
      (fun e he n h => ⟨h,(connectChild_operator e he).1,hrejects _⟩) hn',hf,hf'⟩

/-- Under every interleaving a block counts as downloaded only with all blocks below it, and then
`nChainTx` is the number of their transactions; the active chain is downloaded, and so is every
candidate, none of them with less work than the tip. -/
theorem downloaded_blocks_linked (run : Reaches (Step cfg) (Regular cfg) (ofGenesis genesis nBits nTimeReceived) n) :
    (∀ b, n.chain.haveTxsDownloaded b = true →
      n.chain.nChainTx b = ((n.chain.tree.lineage b).map n.chain.nTx).sum ∧
      ∀ a, n.chain.tree.Anc a b → 0 < n.chain.nTx a ∧ (n.chain.nStatus a).hasData = true) ∧
    n.chain.haveTxsDownloaded n.chain.tip = true ∧
    ∀ c ∈ n.chain.setBlockIndexCandidates, n.chain.haveTxsDownloaded c = true ∧
      n.chain.tree.nChainWork n.chain.tip ≤ n.chain.tree.nChainWork c := by
  have h := (safe_of_regular run).consistent
  simp only [haveTxsDownloaded,bne_iff_ne]
  refine ⟨fun b hb => ⟨h.nChainTx_eq hb,fun a ha => ?_⟩,h.tip,fun c hc => h.candidates hc⟩
  have hn := (h.total (h.anc ha hb)).1
  exact ⟨Nat.pos_of_ne_zero hn,(h.received hn).2⟩

theorem downloaded_blocks_linked_child : ∃ n : Node,
    Reaches (Step quickFinality) (Regular quickFinality) (ofGenesis 0 0x207fffff 0) n ∧
    n.chain.pindexFinalized = some 1 ∧ n.chain.haveTxsDownloaded n.chain.tip = true := by
  obtain ⟨n,-,run,-,hf,-⟩ := quick_runs
  have run := run.mono fun h => h.1
  exact ⟨n,run,hf,(downloaded_blocks_linked run).2.1⟩

/-- Under every interleaving only one of the assertions of these functions can fail. -/
theorem step_or_assertion (run : Reaches (Step cfg) (Regular cfg) (ofGenesis genesis nBits nTimeReceived) n) (e : Event)
    (hdisk : ∀ now, e = .proceed .flushFailed now → cfg.maxreorgdepth ≠ 0) :
    (∃ n', n.next cfg e = .ok n') ∨ n.next cfg e = .error (.assertion "failedit->nStatus.hasFailed()") := by
  have h : Completes (n.next cfg e) := by
    cases e with
    | header header contextual => exact (acceptBlockHeader_completes header contextual).map fun _ _ => trivial
    | block block contextual => exact (acceptBlock_completes block contextual).map fun _ _ => trivial
    | proceed disk now =>
      exact (activateStep_completes (safe_of_regular run) fun h => hdisk now (h ▸ rfl)).map fun _ _ => trivial
    | unwind =>
      rw [next]
      split <;> trivial
    | _ => trivial
  cases hnext : n.next cfg e with
  | ok n' => exact .inl ⟨n',rfl⟩
  | error stop => exact .inr (congrArg _ (h.failure hnext))

/-- A header is invalidated and reconsidered, and a header on top of it arrives: the first one has no
transactions, so that `UpdateFlagsForBlock` leaves it among the failed blocks. -/
theorem step_or_assertion_reconsidered : ∃ n,
    Reaches (Step quickFinality) (Regular quickFinality) (ofGenesis 0 0x207fffff 0) n ∧
    n.next quickFinality (.header (childHeader 2) true 0) = .error (.assertion "failedit->nStatus.hasFailed()") := by
  have heval : ((after quickFinality
      [.header (childHeader 1) true 0,.invalidate 1,.unwind 0 .good,.unwind 0 .good,.reset 1]
      (ofGenesis 0 0x207fffff 0)).map fun n =>
        (n.next quickFinality (.header (childHeader 2) true 0)).toOption.isNone) = some true := by
    decide +kernel
  obtain ⟨n,hn,hnone⟩ := Option.map_eq_some_iff.mp heval
  have run : Reaches (Step quickFinality) (Regular quickFinality) _ n :=
    reaches_after (by simp) (fun _ _ _ => id) hn
  refine ⟨n,run,(step_or_assertion run _ (by simp)).resolve_left ?_⟩
  rintro ⟨n',hn'⟩
  rw [hn'] at hnone
  cases hnone

/-- Under every interleaving the finalized block is on the active chain. -/
theorem finalized_on_active_chain (run : Reaches (Step cfg) (Regular cfg) (ofGenesis genesis nBits nTimeReceived) n)
    (hf : n.chain.pindexFinalized = some f) : n.chain.contains f = true :=
  contains_iff.mpr ((safe_of_regular run).consistent.finalized hf)

theorem finalized_on_active_chain_child : ∃ n : Node,
    Reaches (Step quickFinality) (Regular quickFinality) (ofGenesis 0 0x207fffff 0) n ∧
    n.chain.pindexFinalized = some 1 ∧ n.chain.contains 1 = true := by
  obtain ⟨n,-,run,-,hf,-⟩ := quick_runs
  have run := run.mono fun h => h.1
  exact ⟨n,run,hf,finalized_on_active_chain run hf⟩

/-- The loop of `FindMostWorkChain` ends under every interleaving. -/
theorem findMostWork_ends (run : Reaches (Step cfg) (Regular cfg) (ofGenesis genesis nBits nTimeReceived) n) :
    ∃ bound, ∀ rounds, bound ≤ rounds → ∃ r, findMostWork cfg rounds n.chain = .ok r :=
  findMostWork_terminates cfg (safe_of_regular run).consistent.ready

theorem findMostWork_ends_child : ∃ n : Node,
    Reaches (Step quickFinality) (Regular quickFinality) (ofGenesis 0 0x207fffff 0) n ∧
    n.chain.pindexFinalized = some 1 ∧ ∃ rounds r, findMostWork quickFinality rounds n.chain = .ok r := by
  obtain ⟨n,-,run,-,hf,-⟩ := quick_runs
  have run := run.mono fun h => h.1
  obtain ⟨bound,hbound⟩ := findMostWork_ends run
  exact ⟨n,run,hf,bound,hbound bound le_rfl⟩

/-- Without operator calls and as long as `ConnectBlock` rejects nothing, a block that is finalized or
below the finalized one stays so, on the active chain. -/
theorem finalized_stays
    (before : Reaches (Step cfg) (fun n e => Regular cfg n e ∧ e.operator = false)
      (ofGenesis genesis nBits nTimeReceived) n)
    (run : Reaches (Step cfg) (fun n e => Regular cfg n e ∧ e.operator = false ∧ n.activate.rejects cfg = false) n n')
    (hf : n.chain.pindexFinalized = some f) (ha : n.chain.tree.Anc a f) :
    n'.chain.contains a = true ∧ ∃ g, n'.chain.pindexFinalized = some g ∧ n'.chain.tree.Anc a g := by
  obtain ⟨h,g,hg,hag⟩ := run.invariant (P := fun n => ChainState.Safe true n.chain n.activate ∧
      ∃ g, n.chain.pindexFinalized = some g ∧ n.chain.tree.Anc a g)
    ⟨safe_of_reaches true before fun he => ⟨he.1,fun _ => he.2⟩,f,hf,ha⟩ (by
      rintro n n' e ⟨h,g,hg,hag⟩ hguard hstep
      have hp := hstep.progress hguard.1 h fun _ => hguard.2.1
      exact ⟨hp.safe,hp.finalized rfl hguard.2.2 hg hag⟩)
  exact ⟨contains_iff.mpr (hag.trans (h.consistent.finalized hg)),g,hg,hag⟩

theorem finalized_stays_child : ∃ n n' : Node,
    Reaches (Step quickFinality) (Regular quickFinality) (ofGenesis 0 0x207fffff 0) n ∧
    Reaches (Step quickFinality) (Regular quickFinality) n n' ∧ n.chain.pindexFinalized = some 1 ∧
    n'.chain.pindexFinalized = some 2 ∧ n'.chain.contains 1 = true := by
  obtain ⟨n,n',before,run,hf,hf'⟩ := quick_runs
  exact ⟨n,n',before.mono fun h => h.1,run.mono fun h => h.1,hf,hf',(finalized_stays before run hf (.refl 1)).1⟩
end Node
end BitfiniteCore
