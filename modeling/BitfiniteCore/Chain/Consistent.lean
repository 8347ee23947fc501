import BitfiniteCore.Chain.Machine
import BitfiniteCore.Chain.MostWork

/-! # What every chain state keeps -/

namespace BitfiniteCore
open Function ParentTree

namespace ChainState

variable {s s' t : ChainState} {a b c p x f pindex : BlockHash}

/-- No branch has `2^32` transactions, so that `nChainTx` does not wrap. -/
def FewTx (s : ChainState) : Prop := ∀ b ∈ s.tree.known, ((s.tree.lineage b).map s.nTx).sum < 2^32

instance : Decidable (FewTx s) := List.decidableBAll _ _

theorem FewTx.congr (h : FewTx s) (htree : t.tree = s.tree) (hnTx : t.nTx = s.nTx) : FewTx t := by
  rw [FewTx,htree,hnTx]
  exact h

/-- What holds of the chain state after every step of a run. -/
structure Consistent (s : ChainState) : Prop where
  received : ∀ {b}, s.nTx b ≠ 0 → b ∈ s.tree.known ∧ (s.nStatus b).hasData = true
  total : ∀ {b}, s.nChainTx b ≠ 0 → s.nTx b ≠ 0 ∧ s.nChainTx b = ((s.tree.parent b).map s.nChainTx).getD 0+s.nTx b
  linked : ∀ {b p}, s.tree.parent b = some p → s.nChainTx b ≠ 0 → s.nChainTx p ≠ 0
  unlinked : ∀ {e}, e ∈ s.mapBlocksUnlinked → s.tree.parent e.2 = some e.1 ∧ s.nTx e.2 ≠ 0
  candidates : ∀ {c}, c ∈ s.setBlockIndexCandidates → s.nChainTx c ≠ 0 ∧ s.tree.nChainWork s.tip ≤ s.tree.nChainWork c
  tip : s.nChainTx s.tip ≠ 0
  finalized : ∀ {f}, s.pindexFinalized = some f → s.tree.Anc f s.tip

namespace Consistent

theorem known (h : Consistent s) (hb : s.nChainTx b ≠ 0) : b ∈ s.tree.known := (h.received (h.total hb).1).1

theorem anc (h : Consistent s) (hab : s.tree.Anc a b) (hb : s.nChainTx b ≠ 0) : s.nChainTx a ≠ 0 := by
  induction hab with
  | refl => exact hb
  | tail _ hp ih => exact ih (h.linked hp hb)

theorem ready (h : Consistent s) : Ready s where
  tip := h.known h.tip
  candidates := fun c hc => ⟨h.known (h.candidates hc).1,by simpa [haveTxsDownloaded] using (h.candidates hc).1⟩
  linked := fun hp hb => by simpa [haveTxsDownloaded] using h.linked hp (by simpa [haveTxsDownloaded] using hb)

theorem nChainTx_eq (h : Consistent s) (hb : s.nChainTx b ≠ 0) :
    s.nChainTx b = ((s.tree.lineage b).map s.nTx).sum := by
  induction b using s.tree.induction_up with
  | root b hp => simp [(h.total hb).2,s.tree.lineage_root hp,hp]
  | child b p hp ih =>
    rw [(h.total hb).2,s.tree.lineage_parent hp,List.map_cons,List.sum_cons,← ih (h.linked hp hb),hp,Nat.add_comm]
    rfl

theorem nChainTx_parent (h : Consistent s) (hp : ∀ p, s.tree.parent b = some p → s.nChainTx p ≠ 0) :
    ((s.tree.parent b).map s.nChainTx).getD 0+s.nTx b = ((s.tree.lineage b).map s.nTx).sum := by
  cases hb : s.tree.parent b with
  | none => simp [s.tree.lineage_root hb]
  | some p =>
    rw [s.tree.lineage_parent hb,List.map_cons,List.sum_cons,← h.nChainTx_eq (hp p hb),Nat.add_comm]
    rfl

theorem ofGenesis (genesis : BlockHash) (nBits : Nat) (nTimeReceived : Int) :
    Consistent (ChainState.ofGenesis genesis nBits nTimeReceived) where
  received := fun {b} hb => by
    obtain rfl : b = genesis := by
      by_contra hne
      simp [ChainState.ofGenesis,hne] at hb
    simp [ChainState.ofGenesis,BlockTree.ofGenesis]
  total := fun {b} hb => by
    obtain rfl : b = genesis := by
      by_contra hne
      simp [ChainState.ofGenesis,hne] at hb
    simp [ChainState.ofGenesis,BlockTree.ofGenesis]
  linked := by simp [ChainState.ofGenesis,BlockTree.ofGenesis]
  unlinked := by simp [ChainState.ofGenesis]
  candidates := fun {c} hc => by
    obtain rfl := List.mem_singleton.mp hc
    exact ⟨by simp [ChainState.ofGenesis],le_rfl⟩
  tip := by simp [ChainState.ofGenesis]
  finalized := by simp [ChainState.ofGenesis]
end Consistent

/-- What a function that moves neither the tip nor the finalized block and receives nothing keeps. -/
structure Keeps (s s' : ChainState) : Prop where
  agree : Agree s s'
  data : ∀ x, (s'.nStatus x).hasData = (s.nStatus x).hasData
  unlinked : ∀ {e}, e ∈ s'.mapBlocksUnlinked →
    e ∈ s.mapBlocksUnlinked ∨ s.tree.parent e.2 = some e.1 ∧ s.nChainTx e.2 ≠ 0
  candidates : ∀ {c}, c ∈ s'.setBlockIndexCandidates →
    c ∈ s.setBlockIndexCandidates ∨ s.nChainTx c ≠ 0 ∧ s.tree.nChainWork s.tip ≤ s.tree.nChainWork c

namespace Keeps

theorem refl (s : ChainState) : Keeps s s := ⟨.refl s,fun _ => rfl,.inl,.inl⟩

theorem trans (h : Keeps s s') (h' : Keeps s' t) : Keeps s t where
  agree := h.agree.trans h'.agree
  data := fun x => (h'.data x).trans (h.data x)
  unlinked := fun he => by
    rcases h'.unlinked he with he | he
    · exact h.unlinked he
    · rw [h.agree.tree,h.agree.nChainTx] at he
      exact .inr he
  candidates := fun hc => by
    rcases h'.candidates hc with hc | hc
    · exact h.candidates hc
    · rw [h.agree.nChainTx,h.agree.tree,h.agree.tip] at hc
      exact .inr hc

theorem setStatus (s : ChainState) (b : BlockHash) (st : BlockStatus)
    (hst : st.hasData = (s.nStatus b).hasData) : Keeps s (s.setStatus b st) where
  agree := ⟨rfl,rfl,rfl,rfl,rfl,rfl,rfl⟩
  data := fun x => by
    simp only [ChainState.setStatus,update_apply]
    split_ifs with hx
    · rw [hx,hst]
    · rfl
  unlinked := .inl
  candidates := .inl

theorem consistent (hk : Keeps s s') (h : Consistent s) : Consistent s' where
  received := by
    rw [hk.agree.tree,hk.agree.nTx]
    exact fun hb => ⟨(h.received hb).1,(hk.data _).trans (h.received hb).2⟩
  total := by
    rw [hk.agree.tree,hk.agree.nTx,hk.agree.nChainTx]
    exact h.total
  linked := by
    rw [hk.agree.tree,hk.agree.nChainTx]
    exact h.linked
  unlinked := fun he => by
    rw [hk.agree.tree,hk.agree.nTx]
    exact (hk.unlinked he).elim h.unlinked fun he => ⟨he.1,(h.total he.2).1⟩
  candidates := fun hc => by
    rw [hk.agree.nChainTx,hk.agree.tree,hk.agree.tip]
    exact (hk.candidates hc).elim h.candidates id
  tip := by
    rw [hk.agree.nChainTx,hk.agree.tip]
    exact h.tip
  finalized := by
    rw [hk.agree.finalized,hk.agree.tree,hk.agree.tip]
    exact h.finalized
end Keeps

theorem raiseValidity_hasData (st : BlockStatus) (v : BlockValidity) : (st.raiseValidity v).hasData = st.hasData := by
  rw [BlockStatus.raiseValidity]
  split_ifs <;> rfl

theorem work_le_of_not_worse (h : s.worse a b = false) : s.tree.nChainWork b ≤ s.tree.nChainWork a := by
  rw [not_worse_iff] at h
  omega

section Flags

theorem updateFlags_keeps (g gChild gAncestorWasChanged : BlockStatus → BlockStatus) (hpindex : pindex ∈ s.tree.known)
    (hdata : ∀ u, u = g ∨ u = gChild ∨ u = gAncestorWasChanged → ∀ st, (u st).hasData = st.hasData) :
    Keeps s (s.updateFlags pindex g gChild gAncestorWasChanged) := by
  refine updateFlags_induction (P := Keeps s) hpindex (.refl s) fun t base b u _ hu ht => ht.trans ?_
  have h := updateFlagsForBlock_spec t base u b
  refine ⟨h.agree,fun x => ?_,fun he => .inl (h.unlinked ▸ he),fun {c} hc => ?_⟩
  · by_cases happlies : ∀ a, base = some a → t.tree.Anc a b
    · rw [h.of_applies happlies]
      exact (Keeps.setStatus t b _ (hdata u hu _)).data x
    · rw [h.of_not happlies]
  · rcases (h.candidates c).mp hc with hc | ⟨rfl,-,-,htxs,hworse⟩
    · exact .inl hc
    · exact .inr ⟨by simpa [haveTxsDownloaded] using htxs,work_le_of_not_worse (worse_asymm hworse)⟩

theorem unparkIfEnough_keeps (cfg : ChainConfig) (pindexNew fork : BlockHash) (hx : x ∈ s.tree.known) :
    Keeps s (s.unparkIfEnough cfg pindexNew fork x) := by
  rw [unparkIfEnough]
  split
  · refine updateFlags_keeps _ _ _ hx ?_
    rintro u (rfl | rfl | rfl) st <;> rfl
  · exact .refl s

theorem markFailedParents_keeps (l : List BlockHash) (s : ChainState) : Keeps s (markFailedParents l s) ∧
    (markFailedParents l s).setBlockIndexCandidates = s.setBlockIndexCandidates := by
  induction l generalizing s with
  | nil => exact ⟨.refl s,rfl⟩
  | cons b l ih => exact ⟨(Keeps.setStatus s b _ (by rfl)).trans (ih _).1,(ih _).2⟩

theorem dropChain_keeps (i k m : Bool) {l : List BlockHash}
    (hl : ∀ x ∈ l, s.nChainTx x ≠ 0) : Keeps s (dropChain i k m l s) := by
  induction l generalizing s with
  | nil => exact .refl s
  | cons b l ih =>
    obtain ⟨hagree,hmem,-⟩ := dropFromChain_spec i k m b s
    have hdrop : Keeps s (s.dropFromChain i k m b) := by
      refine ⟨hagree,fun x => ?_,fun {e} he => ?_,fun hc => .inl ((hmem _).mp hc).1⟩
      · rw [dropFromChain]
        split_ifs
        · exact (Keeps.setStatus s b _ (by rfl)).data x
        · rfl
        · rfl
      · rw [dropFromChain] at he
        split_ifs at he
        · exact .inl he
        · -- a block without data goes back to the unlinked ones
          rcases List.mem_append.mp he with he | he
          · exact .inl he
          · obtain ⟨q,hq,rfl⟩ := by simpa using he
            exact .inr ⟨hq,hl b List.mem_cons_self⟩
        · exact .inl he
    refine hdrop.trans (ih fun x hx => ?_)
    rw [hagree.nChainTx]
    exact hl x (List.mem_cons_of_mem b hx)

theorem testChain_keeps {cfg : ChainConfig} {pindexNew fork : BlockHash} {rest passed : List BlockHash}
    {r : ChainState × Bool} (hrest : ∀ x ∈ rest, x ∈ s.tree.known ∧ s.nChainTx x ≠ 0)
    (hpassed : ∀ x ∈ passed, s.nChainTx x ≠ 0) (h : testChain cfg pindexNew fork rest passed s = .ok r) :
    Keeps s r.1 := by
  induction rest generalizing passed s with
  | nil =>
    cases h
    exact .refl s
  | cons x rest ih =>
    have hx := hrest x List.mem_cons_self
    have hk := unparkIfEnough_keeps cfg pindexNew fork hx.1
    rw [testChain] at h
    split at h
    · cases h
    dsimp only at h
    generalize s.unparkIfEnough cfg pindexNew fork x = u at hk h
    split at h
    · refine hk.trans (ih ?_ ?_ h)
      · intro y hy
        rw [hk.agree.tree,hk.agree.nChainTx]
        exact hrest y (List.mem_cons_of_mem x hy)
      · rw [hk.agree.nChainTx]
        exact List.forall_mem_cons.mpr ⟨hx.2,hpassed⟩
    · cases h
      have herase : Keeps u (u.eraseCandidate x) :=
        ⟨⟨rfl,rfl,rfl,rfl,rfl,rfl,rfl⟩,fun _ => rfl,.inl,fun hc => .inl (mem_eraseCandidate.mp hc).1⟩
      refine hk.trans (herase.trans (dropChain_keeps _ _ _ fun y hy => ?_))
      have hn : (u.eraseCandidate x).nChainTx = s.nChainTx := hk.agree.nChainTx
      rw [hn]
      exact hpassed y (List.mem_reverse.mp hy)

theorem insertCandidate_keeps (hb : s.nChainTx b ≠ 0) (hwork : s.tree.nChainWork s.tip ≤ s.tree.nChainWork b) :
    Keeps s (s.insertCandidate b) := by
  refine ⟨⟨rfl,rfl,rfl,rfl,rfl,rfl,rfl⟩,fun _ => rfl,.inl,fun hc => ?_⟩
  rcases mem_insertCandidate.mp hc with rfl | hc
  · exact .inr ⟨hb,hwork⟩
  · exact .inl hc

theorem restoreCandidates_keeps (l : List BlockHash) (s : ChainState) : Keeps s (restoreCandidates l s) ∧
    s.setBlockIndexCandidates ⊆ (restoreCandidates l s).setBlockIndexCandidates := by
  induction l generalizing s with
  | nil => exact ⟨.refl s,List.Subset.refl _⟩
  | cons b l ih =>
    rw [restoreCandidates]
    split
    · rename_i hb
      simp only [Bool.and_eq_true,Bool.not_eq_true',haveTxsDownloaded,bne_iff_ne,ne_eq] at hb
      have hins : Keeps s (s.insertCandidate b) := insertCandidate_keeps hb.1.2 (work_le_of_not_worse hb.2)
      exact ⟨hins.trans (ih _).1,fun c hc => (ih _).2 (mem_insertCandidate.mpr (.inr hc))⟩
    · exact ih s
end Flags

section Receiving

/-- What the arrival of a header or a block leaves. -/
structure Arrived (s s' : ChainState) : Prop where
  consistent : Consistent s'
  downloaded : ∀ {x}, s.nChainTx x ≠ 0 → s'.nChainTx x ≠ 0
  anc : ∀ {a x}, s.nChainTx x ≠ 0 → s.tree.Anc a x → s'.tree.Anc a x
  finalized : s'.pindexFinalized = s.pindexFinalized
  subset : s.setBlockIndexCandidates ⊆ s'.setBlockIndexCandidates

theorem Keeps.arrived (hk : Keeps s s') (hset : s'.setBlockIndexCandidates = s.setBlockIndexCandidates)
    (h : Consistent s) : Arrived s s' :=
  ⟨hk.consistent h,fun hx => hk.agree.nChainTx ▸ hx,fun _ hax => hk.agree.tree ▸ hax,hk.agree.finalized,
    hset ▸ List.Subset.refl _⟩

theorem Arrived.trans (h : Arrived s s') (h' : Arrived s' t) : Arrived s t :=
  ⟨h'.consistent,fun hx => h'.downloaded (h.downloaded hx),fun hx hax => h'.anc (h.downloaded hx) (h.anc hx hax),
    h'.finalized.trans h.finalized,List.Subset.trans h.subset h'.subset⟩

theorem Consistent.added (h : Consistent s) {header : CBlockHeader} {now : Int} {hnew : header.hash ∉ s.tree.known}
    {hprev : header.hashPrevBlock ∈ s.tree.known} {hproof : 0 < getBlockProof header.nBits} :
    Arrived s (s.addToBlockIndex header now hnew hprev hproof) := by
  have hnTx : update s.nTx header.hash 0 = s.nTx := by
    rw [update_eq_self_iff]
    by_contra hne
    exact hnew (h.received (Ne.symm hne)).1
  have hchain : update s.nChainTx header.hash 0 = s.nChainTx := by
    rw [update_eq_self_iff]
    by_contra hne
    exact hnew (h.known (Ne.symm hne))
  have hext : BlockTree.Extends s.tree (s.addToBlockIndex header now hnew hprev hproof).tree :=
    @BlockTree.add_extends _ _ _ _ now hnew hprev hproof
  simp only [addToBlockIndex,hnTx,hchain] at hext ⊢
  refine ⟨⟨fun {b} hb => ?_,fun hb => ?_,fun hp hb => ?_,fun he => ?_,fun hc => ?_,h.tip,?_⟩,id,
    fun hx => (hext.anc_iff (h.known hx)).mpr,rfl,List.Subset.refl _⟩
  · obtain ⟨hknown,hdata⟩ := h.received hb
    refine ⟨hext.known b hknown,?_⟩
    dsimp only
    rwa [update_of_ne fun he : b = header.hash => hnew (he ▸ hknown)]
  · dsimp only
    rw [hext.parent _ (h.known hb)]
    exact h.total hb
  · exact h.linked ((hext.parent _ (h.known hb)).symm.trans hp) hb
  · obtain ⟨hp,hn⟩ := h.unlinked he
    exact ⟨(hext.parent _ (s.tree.parent_known hp).1).trans hp,hn⟩
  · obtain ⟨hn,hwork⟩ := h.candidates hc
    exact ⟨hn,by rwa [hext.work _ (h.known hn),hext.work _ (h.known h.tip)]⟩
  · exact fun hf => (hext.anc_iff (h.known h.tip)).mpr (h.finalized hf)

theorem linkBlock_nChainTx (s : ChainState) (b : BlockHash) :
    (s.linkBlock b).nChainTx = update s.nChainTx b ((((s.tree.parent b).map s.nChainTx).getD 0+s.nTx b)%2^32) := by
  unfold linkBlock
  dsimp only
  split_ifs <;> rfl

theorem linkBlock_candidates (s : ChainState) (b : BlockHash) :
    s.setBlockIndexCandidates ⊆ (s.linkBlock b).setBlockIndexCandidates ∧
      ∀ c ∈ (s.linkBlock b).setBlockIndexCandidates,
        c ∈ s.setBlockIndexCandidates ∨ c = b ∧ s.tree.nChainWork s.tip ≤ s.tree.nChainWork b := by
  unfold linkBlock
  dsimp only
  generalize ht : (if s.nSequenceId b = 0 then _ else _ : ChainState) = t
  obtain ⟨htree,htip,hset⟩ : t.tree = s.tree ∧ t.tip = s.tip ∧
      t.setBlockIndexCandidates = s.setBlockIndexCandidates := by
    subst ht
    split <;> exact ⟨rfl,rfl,rfl⟩
  rw [← hset]
  split
  · exact ⟨List.Subset.refl _,fun _ => .inl⟩
  · rename_i hworse
    have hwork := work_le_of_not_worse (by simpa using hworse)
    rw [htree,htip] at hwork
    refine ⟨fun c hc => mem_insertCandidate.mpr (.inr hc),fun c hc => ?_⟩
    exact (mem_insertCandidate.mp hc).symm.imp_right fun he => ⟨he,hwork⟩

/-- A block gets its total when it has transactions and its parent has a total. -/
theorem Consistent.linkBlock (h : Consistent s) (hfew : FewTx s) (hb : s.nTx b ≠ 0)
    (hp : ∀ p, s.tree.parent b = some p → s.nChainTx p ≠ 0) :
    Consistent (s.linkBlock b) ∧ (s.linkBlock b).nChainTx b ≠ 0 ∧
      ∀ {x}, s.nChainTx x ≠ 0 → (s.linkBlock b).nChainTx x ≠ 0 := by
  obtain ⟨hframe,hunlinked⟩ := linkBlock_frame s b
  have hself : (s.linkBlock b).nChainTx b = ((s.tree.parent b).map s.nChainTx).getD 0+s.nTx b := by
    rw [linkBlock_nChainTx,update_self,h.nChainTx_parent hp]
    exact Nat.mod_eq_of_lt (hfew b (h.received hb).1)
  have hold : ∀ {x}, s.nChainTx x ≠ 0 → (s.linkBlock b).nChainTx x = s.nChainTx x := by
    intro x hx
    by_cases hxb : x = b
    · rw [hxb,hself,← (h.total (hxb ▸ hx)).2]
    · rw [linkBlock_nChainTx,update_of_ne hxb]
  have hor : ∀ {x}, (s.linkBlock b).nChainTx x ≠ 0 → x = b ∨ s.nChainTx x ≠ 0 := by
    intro x hx
    by_cases hxb : x = b
    · exact .inl hxb
    · exact .inr (by rwa [linkBlock_nChainTx,update_of_ne hxb] at hx)
  have hparent : ∀ {x y}, s.tree.parent x = some y → (s.linkBlock b).nChainTx x ≠ 0 → s.nChainTx y ≠ 0 := by
    intro x y hxy hx
    rcases hor hx with rfl | hx
    · exact hp y hxy
    · exact h.linked hxy hx
  refine ⟨⟨?_,fun {x} hx => ?_,fun {x y} hxy hx => ?_,?_,fun {c} hc => ?_,?_,?_⟩,by omega,
    fun hx => (hold hx).trans_ne hx⟩
  · rw [hframe.nTx,hframe.tree,hframe.nStatus]
    exact h.received
  · have hmap : (s.tree.parent x).map (s.linkBlock b).nChainTx = (s.tree.parent x).map s.nChainTx := by
      cases hxy : s.tree.parent x with
      | none => rfl
      | some y => rw [Option.map_some,Option.map_some,hold (hparent hxy hx)]
    rw [hframe.nTx,hframe.tree,hmap]
    rcases hor hx with rfl | hx
    · exact ⟨hb,hself⟩
    · exact hold hx ▸ h.total hx
  · have hy := hparent (hframe.tree ▸ hxy) hx
    exact (hold hy).trans_ne hy
  · rw [hunlinked,hframe.tree,hframe.nTx]
    exact h.unlinked
  · rw [hframe.tree,hframe.tip]
    rcases (linkBlock_candidates s b).2 c hc with hc | ⟨rfl,hwork⟩
    · exact ⟨(hold (h.candidates hc).1).trans_ne (h.candidates hc).1,(h.candidates hc).2⟩
    · exact ⟨by omega,hwork⟩
  · rw [hframe.tip]
    exact (hold h.tip).trans_ne h.tip
  · rw [hframe.finalized,hframe.tree,hframe.tip]
    exact h.finalized

theorem linkBlocks_frame (n : Nat) (queue : List BlockHash) (s : ChainState) :
    (linkBlocks n queue s).tree = s.tree ∧ (linkBlocks n queue s).nTx = s.nTx := by
  induction n generalizing queue s with
  | zero => exact ⟨rfl,rfl⟩
  | succ n ih =>
    cases queue with
    | nil => exact ⟨rfl,rfl⟩
    | cons b queue =>
      obtain ⟨hframe,-⟩ := linkBlock_frame s b
      obtain ⟨htree,hnTx⟩ := ih (queue++((s.linkBlock b).mapBlocksUnlinked.filter fun e => e.1 = b).map Prod.snd)
        { s.linkBlock b with mapBlocksUnlinked := (s.linkBlock b).mapBlocksUnlinked.filter fun e => e.1 ≠ b }
      exact ⟨htree.trans hframe.tree,hnTx.trans hframe.nTx⟩

theorem Consistent.linkBlocks (n : Nat) (queue : List BlockHash) (h : Consistent s) (hfew : FewTx s)
    (hqueue : ∀ x ∈ queue, s.nTx x ≠ 0 ∧ ∀ p, s.tree.parent x = some p → s.nChainTx p ≠ 0) :
    Arrived s (linkBlocks n queue s) := by
  induction n generalizing queue s with
  | zero => exact (Keeps.refl s).arrived rfl h
  | succ n ih =>
    cases queue with
    | nil => exact (Keeps.refl s).arrived rfl h
    | cons b queue =>
      obtain ⟨⟨hb,hp⟩,hqueue⟩ := List.forall_mem_cons.mp hqueue
      obtain ⟨hframe,-⟩ := linkBlock_frame s b
      obtain ⟨h1,hself,hgrows⟩ := h.linkBlock hfew hb hp
      have h2 : Consistent { s.linkBlock b with
          mapBlocksUnlinked := (s.linkBlock b).mapBlocksUnlinked.filter fun e => e.1 ≠ b } :=
        ⟨h1.received,h1.total,h1.linked,fun he => h1.unlinked (List.mem_of_mem_filter he),
          h1.candidates,h1.tip,h1.finalized⟩
      have h3 := ih (queue++((s.linkBlock b).mapBlocksUnlinked.filter fun e => e.1 = b).map Prod.snd) h2
        (hfew.congr hframe.tree hframe.nTx) (by
        intro x hx
        rcases List.mem_append.mp hx with hx | hx
        · dsimp only
          rw [hframe.nTx,hframe.tree]
          exact ⟨(hqueue x hx).1,fun p hxp => hgrows ((hqueue x hx).2 p hxp)⟩
        · obtain ⟨e,he,rfl⟩ := List.mem_map.mp hx
          obtain ⟨hmem,heb⟩ := List.mem_filter.mp he
          obtain ⟨hep,hen⟩ := h1.unlinked hmem
          refine ⟨hen,fun p hxp => ?_⟩
          obtain rfl := Option.some.inj (hep.symm.trans hxp)
          rw [of_decide_eq_true heb]
          exact hself)
      exact ⟨h3.consistent,fun hx => h3.downloaded (hgrows hx),fun hx hax => h3.anc (hgrows hx) (hframe.tree ▸ hax),
        h3.finalized.trans hframe.finalized,List.Subset.trans (linkBlock_candidates s b).1 h3.subset⟩

theorem receivedBlockTransactions_frame (s : ChainState) (b : BlockHash) (nTx : Nat) :
    (s.receivedBlockTransactions b nTx).tree = s.tree ∧
      (s.receivedBlockTransactions b nTx).nTx = update s.nTx b nTx := by
  unfold ChainState.receivedBlockTransactions
  dsimp only
  repeat' split
  all_goals first | exact linkBlocks_frame .. | exact ⟨rfl,rfl⟩

theorem Consistent.receivedBlockTransactions (h : Consistent s) (hb : b ∈ s.tree.known)
    (hdata : (s.nStatus b).hasData = false) {nTx : Nat} (hnTx : 0 < nTx)
    (hfew : FewTx (s.receivedBlockTransactions b nTx)) : Arrived s (s.receivedBlockTransactions b nTx) := by
  obtain ⟨htree,hcount⟩ := receivedBlockTransactions_frame s b nTx
  have hzero : s.nTx b = 0 := by
    by_contra hne
    exact absurd (h.received hne).2 (by simp [hdata])
  have hchain : s.nChainTx b = 0 := by
    by_contra hne
    exact (h.total hne).1 hzero
  have hst : ((s.nStatus b).withData.raiseValidity .transactions).hasData = true := raiseValidity_hasData _ _
  have h1 : Consistent { s with
      nTx := update s.nTx b nTx
      nStatus := update s.nStatus b ((s.nStatus b).withData.raiseValidity .transactions) } := by
    have hgrows : ∀ {x}, s.nTx x ≠ 0 → update s.nTx b nTx x ≠ 0 := fun {x} hx => by
      rw [update_of_ne (fun he : x = b => hx (he ▸ hzero))]
      exact hx
    refine ⟨fun {x} hx => ?_,fun {x} hx => ?_,h.linked,fun he => ⟨(h.unlinked he).1,hgrows (h.unlinked he).2⟩,
      h.candidates,h.tip,h.finalized⟩
    · by_cases hxb : x = b
      · subst hxb
        exact ⟨hb,(congrArg BlockStatus.hasData (update_self _ _ _)).trans hst⟩
      · dsimp only at hx ⊢
        rw [update_of_ne hxb] at hx ⊢
        exact h.received hx
    · obtain ⟨hn,htotal⟩ := h.total hx
      refine ⟨hgrows hn,?_⟩
      dsimp only
      rw [update_of_ne fun he : x = b => hn (he ▸ hzero)]
      exact htotal
  have hfew1 : FewTx { s with
      nTx := update s.nTx b nTx
      nStatus := update s.nStatus b ((s.nStatus b).withData.raiseValidity .transactions) } :=
    hfew.congr htree.symm hcount.symm
  have hself : update s.nTx b nTx b ≠ 0 := by
    rw [update_self]
    omega
  have harrived : ∀ {t}, Arrived { s with
      nTx := update s.nTx b nTx
      nStatus := update s.nStatus b ((s.nStatus b).withData.raiseValidity .transactions) } t → Arrived s t :=
    fun ht => ⟨ht.consistent,ht.downloaded,ht.anc,ht.finalized,ht.subset⟩
  have hupdate : update s.nChainTx b 0 = s.nChainTx := hchain ▸ update_eq_self b s.nChainTx
  unfold ChainState.receivedBlockTransactions
  simp only [hupdate]
  split
  · rename_i hroot
    refine harrived (h1.linkBlocks _ _ hfew1 fun x hx => ?_)
    obtain rfl := List.mem_singleton.mp hx
    exact ⟨hself,fun p hp => absurd (hroot.symm.trans hp) (by simp)⟩
  · rename_i pprev hp
    split_ifs with htxs
    · refine harrived (h1.linkBlocks _ _ hfew1 fun x hx => ?_)
      obtain rfl := List.mem_singleton.mp hx
      refine ⟨hself,fun q hq => ?_⟩
      obtain rfl := Option.some.inj (hp.symm.trans hq)
      simpa [haveTxsDownloaded] using htxs
    · refine harrived ⟨⟨h1.received,h1.total,h1.linked,fun he => ?_,h1.candidates,h1.tip,h1.finalized⟩,
        id,fun _ => id,rfl,List.Subset.refl _⟩
      rcases List.mem_append.mp he with he | he
      · exact h1.unlinked he
      · obtain rfl := List.mem_singleton.mp he
        exact ⟨hp,hself⟩
    · exact harrived ((Keeps.refl _).arrived rfl h1)

theorem Consistent.header (h : Consistent s) {header : CBlockHeader} {r : Option BlockHash}
    (hr : HeaderResult s header s' r) : Arrived s s' ∧ (r = some header.hash → header.hash ∈ s'.tree.known) := by
  cases hr with
  | ignored => exact ⟨(Keeps.refl s).arrived rfl h,by simp⟩
  | known hknown => exact ⟨(Keeps.refl s).arrived rfl h,fun _ => hknown⟩
  | marked => exact ⟨(markFailedParents_keeps _ s).1.arrived (markFailedParents_keeps _ s).2 h,by simp⟩
  | added => exact ⟨h.added,fun _ => List.mem_cons_self⟩

theorem Consistent.block (h : Consistent s) {block : ReceivedBlock} (hr : BlockResult s block s') (hfew : FewTx s') :
    Arrived s s' := by
  have hpark (u : ChainState) (parked : Bool) : Keeps u (if parked then
      u.setStatus block.header.hash ((u.nStatus block.header.hash).withParked true) else u) := by
    split
    · exact .setStatus _ _ _ (by rfl)
    · exact .refl u
  cases hr with
  | notSaved parked hr =>
    have h1 := (h.header hr).1
    exact h1.trans ((hpark _ parked).arrived (by split <;> rfl) h1.consistent)
  | header hr => exact (h.header hr).1
  | failed hr =>
    have h1 := (h.header hr).1
    exact h1.trans ((Keeps.setStatus _ _ _ (by rfl)).arrived rfl h1.consistent)
  | @received s1 parked hr hdata hnTx =>
    obtain ⟨h1,hknown⟩ := h.header hr
    have h2 := (hpark s1 parked).arrived (by split <;> rfl) h1.consistent
    refine h1.trans (h2.trans (h2.consistent.receivedBlockTransactions ?_ (((hpark s1 parked).data _).trans hdata) hnTx
      hfew))
    rw [(hpark s1 parked).agree.tree]
    exact hknown rfl
end Receiving
end ChainState
end BitfiniteCore
