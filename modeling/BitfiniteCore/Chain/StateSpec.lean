import BitfiniteCore.Chain.Activate

/-! # What the functions on the chain state do -/

namespace BitfiniteCore
open Function ParentTree

namespace ChainState

variable {s s' : ChainState} {a b c f : BlockHash}

section Order

theorem worse_iff : s.worse a b = true ↔ s.tree.nChainWork a < s.tree.nChainWork b ∨
    s.tree.nChainWork a = s.tree.nChainWork b ∧ (s.nSequenceId b < s.nSequenceId a ∨
      s.nSequenceId a = s.nSequenceId b ∧ b.toNat < a.toNat) := by
  unfold worse
  simp only [gt_iff_lt,BitVec.lt_def]
  split_ifs <;> simp only [true_iff,false_iff] <;> omega

theorem not_worse_iff : s.worse a b = false ↔ ¬(s.tree.nChainWork a < s.tree.nChainWork b ∨
    s.tree.nChainWork a = s.tree.nChainWork b ∧ (s.nSequenceId b < s.nSequenceId a ∨
      s.nSequenceId a = s.nSequenceId b ∧ b.toNat < a.toNat)) := by
  rw [← worse_iff,Bool.not_eq_true]

theorem worse_irrefl (a : BlockHash) : s.worse a a = false := by
  rw [not_worse_iff]
  omega

theorem worse_asymm (h : s.worse a b = true) : s.worse b a = false := by
  rw [not_worse_iff]
  rw [worse_iff] at h
  omega

theorem not_worse_trans (h : s.worse a b = false) (h' : s.worse b c = false) : s.worse a c = false := by
  rw [not_worse_iff] at *
  omega

theorem bestCandidate_spec (h : s.bestCandidate = some a) :
    a ∈ s.setBlockIndexCandidates ∧ ∀ b ∈ s.setBlockIndexCandidates, s.worse a b = false :=
  @Maximal.best_spec _ s.worse not_worse_trans worse_asymm worse_irrefl _ _ h

end Order

section Walks

theorem contains_iff : s.contains b = true ↔ s.tree.Anc b s.tip := by
  rw [contains,beq_iff_eq,getAncestor_anc]

theorem findFork_spec (h : s.findFork b = some f) :
    s.tree.Anc f b ∧ s.tree.Anc f s.tip ∧ ∀ a, s.tree.Anc a b → s.tree.Anc a s.tip → s.tree.Anc a f := by
  obtain ⟨c,hc,hfind⟩ := Option.bind_eq_some_iff.mp h
  obtain ⟨h1,h2,h3⟩ := find_lineage hfind
  rw [contains_iff] at h2
  split at hc
  · obtain ⟨hcb,hch⟩ := getAncestor_eq_some.mp hc
    refine ⟨h1.trans hcb,h2,fun a ha hat => h3 a ?_ (contains_iff.mpr hat)⟩
    exact ha.of_height_le hcb (hch ▸ hat.height_le)
  · cases hc
    exact ⟨h1,h2,fun a ha hat => h3 a ha (contains_iff.mpr hat)⟩

theorem exists_findFork (hb : b ∈ s.tree.known) (htip : s.tip ∈ s.tree.known) : ∃ f, s.findFork b = some f := by
  unfold findFork
  obtain ⟨c,hc,hcb⟩ : ∃ c, (if s.tree.height b > s.tree.height s.tip then
      s.tree.getAncestor b (s.tree.height s.tip) else some b) = some c ∧ s.tree.Anc c b := by
    split
    · obtain ⟨c,hc,hcb,-⟩ := exists_getAncestor (T := s.tree.toParentTree) (b := b) (h := s.tree.height s.tip)
        (by omega)
      exact ⟨c,hc,hcb⟩
    · exact ⟨b,rfl,.refl b⟩
  rw [hc,Option.bind_some]
  cases hfind : (s.tree.lineage c).find? s.contains with
  | some f => exact ⟨f,rfl⟩
  | none =>
    have hg := BlockTree.genesis_anc (BlockTree.known_of_anc hcb hb)
    exact absurd (contains_iff.mpr (BlockTree.genesis_anc htip))
      (List.find?_eq_none.mp hfind s.tree.genesis (mem_lineage.mpr hg))
end Walks

/-- The two states may differ in status flags and the sets built from them. -/
structure Agree (s s' : ChainState) : Prop where
  tree : s'.tree = s.tree
  nTx : s'.nTx = s.nTx
  nChainTx : s'.nChainTx = s.nChainTx
  nSequenceId : s'.nSequenceId = s.nSequenceId
  nBlockSequenceId : s'.nBlockSequenceId = s.nBlockSequenceId
  tip : s'.tip = s.tip
  finalized : s'.pindexFinalized = s.pindexFinalized

namespace Agree

variable {t : ChainState}

theorem refl (s : ChainState) : Agree s s := ⟨rfl,rfl,rfl,rfl,rfl,rfl,rfl⟩

theorem trans (h : Agree s s') (h' : Agree s' t) : Agree s t :=
  ⟨h'.1.trans h.1,h'.2.trans h.2,h'.3.trans h.3,h'.4.trans h.4,h'.5.trans h.5,h'.6.trans h.6,h'.7.trans h.7⟩

theorem worse (h : Agree s s') (a b : BlockHash) : s'.worse a b = s.worse a b := by
  unfold ChainState.worse
  rw [h.tree,h.nSequenceId]

theorem haveTxsDownloaded (h : Agree s s') (b : BlockHash) : s'.haveTxsDownloaded b = s.haveTxsDownloaded b := by
  unfold ChainState.haveTxsDownloaded
  rw [h.nChainTx]

theorem findFork (h : Agree s s') (b : BlockHash) : s'.findFork b = s.findFork b := by
  have hc : s'.contains = s.contains := by
    funext x
    unfold ChainState.contains
    rw [h.tree,h.tip]
  unfold ChainState.findFork
  rw [h.tree,h.tip,hc]
end Agree

section Candidates

theorem mem_insertCandidate : a ∈ (s.insertCandidate b).setBlockIndexCandidates ↔
    a = b ∨ a ∈ s.setBlockIndexCandidates := List.mem_insert_iff

theorem mem_eraseCandidate : a ∈ (s.eraseCandidate b).setBlockIndexCandidates ↔
    a ∈ s.setBlockIndexCandidates ∧ a ≠ b := by
  simp [eraseCandidate]
end Candidates

section Receiving

/-- What `AcceptBlockHeader` can do. -/
inductive HeaderResult (s : ChainState) (header : CBlockHeader) : ChainState → Option BlockHash → Prop
  | ignored : HeaderResult s header s none
  | known (hknown : header.hash ∈ s.tree.known)
      (hvalid : header.hash = s.tree.genesis ∨ (s.nStatus header.hash).isInvalid = false) :
      HeaderResult s header s (some header.hash)
  | marked {f : BlockHash} (hf : (s.nStatus f).hasFailed = true) (hanc : s.tree.Anc f header.hashPrevBlock)
      (hprev : header.hashPrevBlock ∈ s.tree.known) :
      HeaderResult s header (markFailedParents (s.tree.path f header.hashPrevBlock) s) none
  | added {now : Int} (hnew : header.hash ∉ s.tree.known) (hprev : header.hashPrevBlock ∈ s.tree.known)
      (hproof : 0 < getBlockProof header.nBits) (hvalid : (s.nStatus header.hashPrevBlock).isInvalid = false)
      (hfailed : (s.nStatus header.hashPrevBlock).isValid .scripts = true ∨
        ∀ f ∈ s.failedBlocks, ¬s.tree.Anc f header.hashPrevBlock) :
      HeaderResult s header (s.addToBlockIndex header now hnew hprev hproof) (some header.hash)

theorem acceptBlockHeader_ok {cfg : ChainConfig} {header : CBlockHeader} {contextual : Bool} {now : Int}
    {r : ChainState × Option BlockHash} (h : s.acceptBlockHeader cfg header contextual now = .ok r) :
    HeaderResult s header r.1 r.2 := by
  unfold acceptBlockHeader at h
  split at h
  · rename_i hg
    cases h
    exact .known (hg ▸ s.tree.genesis_known) (.inl hg)
  split at h
  · rename_i hknown
    cases h
    split
    · exact .ignored
    · rename_i hvalid
      exact .known hknown (.inr (by simpa using hvalid))
  split at h
  swap
  · cases h
    exact .ignored
  split at h
  swap
  · cases h
    exact .ignored
  rename_i hnew hpow hprev
  split at h
  · cases h
    exact .ignored
  rename_i hvalid
  split at h
  · cases h
    exact .ignored
  dsimp only at h
  split at h
  · rename_i f hfind
    split at h
    · cases h
    · rename_i hf
      cases h
      split at hfind
      · cases hfind
      · have hanc : s.tree.Anc f header.hashPrevBlock := getAncestor_anc.mp (by simpa using List.find?_some hfind)
        exact .marked (by simpa using hf) hanc hprev
  · rename_i hfind
    cases h
    refine .added hnew hprev (getBlockProof_pos hpow) (by simpa using hvalid) ?_
    split at hfind
    · rename_i hs
      exact .inl hs
    · refine .inr fun f hf hanc => ?_
      exact List.find?_eq_none.mp hfind f hf (by simpa using getAncestor_anc.mpr hanc)

/-- What `AcceptBlock` can do. -/
inductive BlockResult (s : ChainState) (block : ReceivedBlock) : ChainState → Prop
  | header {s' : ChainState} {r : Option BlockHash} (h : HeaderResult s block.header s' r) : BlockResult s block s'
  | failed {s' : ChainState} (h : HeaderResult s block.header s' (some block.header.hash))
      (hdata : (s'.nStatus block.header.hash).hasData = false) (hcheck : block.check = .invalid) :
      BlockResult s block
        (s'.setStatus block.header.hash ((s'.nStatus block.header.hash).withFailed true))
  | notSaved {s' : ChainState} (parked : Bool) (h : HeaderResult s block.header s' (some block.header.hash)) :
      BlockResult s block (if parked then
        s'.setStatus block.header.hash ((s'.nStatus block.header.hash).withParked true) else s')
  | received {s' : ChainState} (parked : Bool) (h : HeaderResult s block.header s' (some block.header.hash))
      (hdata : (s'.nStatus block.header.hash).hasData = false) (hnTx : 0 < block.nTx) :
      BlockResult s block (ChainState.receivedBlockTransactions (if parked then
        s'.setStatus block.header.hash ((s'.nStatus block.header.hash).withParked true) else s')
          block.header.hash block.nTx)

theorem HeaderResult.hash_eq {header : CBlockHeader} (h : HeaderResult s header s' (some b)) : b = header.hash := by
  cases h <;> rfl

theorem acceptBlock_ok {cfg : ChainConfig} {block : ReceivedBlock} {contextual : Bool} {now : Int}
    (h : s.acceptBlock cfg block contextual now = .ok s') : BlockResult s block s' := by
  obtain ⟨⟨s1,r⟩,hheader,h⟩ := except_bind_ok.mp h
  have hresult := acceptBlockHeader_ok hheader
  dsimp only at h hresult
  split at h
  · cases h
    exact .header hresult
  obtain rfl := hresult.hash_eq
  split at h
  · cases h
    exact .header hresult
  rename_i hdata
  split at h
  · cases h
    exact .header hresult
  split at h
  · cases h
    exact .header hresult
  · rename_i hcheck
    cases h
    exact .failed hresult (by simpa using hdata) hcheck
  · rename_i hcorrupted hinvalid
    cases h
    split
    · exact .notSaved _ hresult
    · rename_i hsaved
      refine .received _ hresult (by simpa using hdata) (block.nTx_pos ?_)
      cases hcheck : block.check with
      | valid => rfl
      | invalid => exact absurd hcheck hinvalid
      | corrupted => exact absurd hcheck hcorrupted
      | notSaved => exact absurd hcheck hsaved

/-- What linking a block to its ancestors leaves alone. -/
structure LinkFrame (s s' : ChainState) : Prop where
  tree : s'.tree = s.tree
  nStatus : s'.nStatus = s.nStatus
  nTx : s'.nTx = s.nTx
  tip : s'.tip = s.tip
  finalized : s'.pindexFinalized = s.pindexFinalized
  failedBlocks : s'.failedBlocks = s.failedBlocks

theorem linkBlock_frame (s : ChainState) (b : BlockHash) :
    LinkFrame s (s.linkBlock b) ∧ (s.linkBlock b).mapBlocksUnlinked = s.mapBlocksUnlinked := by
  unfold linkBlock
  dsimp only
  split_ifs <;> exact ⟨⟨rfl,rfl,rfl,rfl,rfl,rfl⟩,rfl⟩
end Receiving
end ChainState
end BitfiniteCore
