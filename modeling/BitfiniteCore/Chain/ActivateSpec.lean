import BitfiniteCore.Chain.StateSpec

/-! # What the steps of ActivateBestChain do -/

namespace BitfiniteCore
open Function ParentTree Relation

namespace ChainState

variable {s s' : ChainState} {a b c d x pindex : BlockHash} {f fChild fAncestorWasChanged : BlockStatus → BlockStatus}

section Flags

/-- What `UpdateFlagsForBlock` does, `applies` saying that the block descends from the base. -/
structure FlagsUpdated (s : ChainState) (applies : Prop) (f : BlockStatus → BlockStatus) (b : BlockHash)
    (s' : ChainState) (changed : Bool) : Prop where
  agree : Agree s s'
  unlinked : s'.mapBlocksUnlinked = s.mapBlocksUnlinked
  of_applies : applies → s'.nStatus = update s.nStatus b (f (s.nStatus b))
  of_not : ¬applies → s'.nStatus = s.nStatus
  changed_iff : changed = true ↔ applies ∧ s.nStatus b ≠ f (s.nStatus b)
  candidates : ∀ c, c ∈ s'.setBlockIndexCandidates ↔ c ∈ s.setBlockIndexCandidates ∨ c = b ∧ changed = true ∧
    (s'.nStatus b).isValid .transactions = true ∧ s.haveTxsDownloaded b = true ∧ s.worse s.tip b = true
  failedBlocks : ∀ c, c ∈ s'.failedBlocks ↔ c ∈ s.failedBlocks ∧
    ¬(c = b ∧ changed = true ∧ (s'.nStatus b).isValid .transactions = true)

theorem updateFlagsForBlock_spec (s : ChainState) (base : Option BlockHash) (f : BlockStatus → BlockStatus)
    (b : BlockHash) : FlagsUpdated s (∀ a, base = some a → s.tree.Anc a b) f b
      (s.updateFlagsForBlock base f b).1 (s.updateFlagsForBlock base f b).2 := by
  have hbase : (base.all fun a => s.tree.getAncestor b (s.tree.height a) == some a) = true ↔
      ∀ a, base = some a → s.tree.Anc a b := by
    cases base with
    | none => simp
    | some a => simp [getAncestor_anc]
  unfold updateFlagsForBlock
  dsimp only
  split
  · rename_i h
    rw [hbase] at h
    have hiff : true = true ↔ (∀ a, base = some a → s.tree.Anc a b) ∧ s.nStatus b ≠ f (s.nStatus b) :=
      ⟨fun _ => ⟨h.2,h.1⟩,fun _ => rfl⟩
    cases hvalid : (f (s.nStatus b)).isValid .transactions with
    | false =>
      refine ⟨⟨rfl,rfl,rfl,rfl,rfl,rfl,rfl⟩,rfl,fun _ => rfl,fun hn => absurd h.2 hn,hiff,?_,?_⟩
      · simp [setStatus,hvalid]
      · simp [setStatus,hvalid]
    | true =>
      simp only [Bool.true_and,if_true]
      split
      · rename_i hin
        obtain ⟨htxs,hworse⟩ := Bool.and_eq_true_iff.mp hin
        refine ⟨⟨rfl,rfl,rfl,rfl,rfl,rfl,rfl⟩,rfl,fun _ => rfl,fun hn => absurd h.2 hn,hiff,fun c => ?_,fun c => ?_⟩
        · rw [mem_insertCandidate,or_comm]
          exact or_congr_right (by simpa [setStatus,insertCandidate,hvalid] using fun _ => ⟨htxs,hworse⟩)
        · simp [setStatus,insertCandidate,hvalid]
      · rename_i hin
        refine ⟨⟨rfl,rfl,rfl,rfl,rfl,rfl,rfl⟩,rfl,fun _ => rfl,fun hn => absurd h.2 hn,hiff,fun c => ?_,fun c => ?_⟩
        · refine ⟨.inl,fun hc => hc.resolve_right ?_⟩
          rintro ⟨-,-,-,htxs,hworse⟩
          exact hin (Bool.and_eq_true_iff.mpr ⟨htxs,hworse⟩)
        · simp [setStatus,hvalid]
  · rename_i h
    rw [hbase] at h
    refine ⟨.refl s,rfl,fun ha => ?_,fun _ => rfl,by simp; tauto,by simp,by simp⟩
    have he : s.nStatus b = f (s.nStatus b) := by tauto
    rw [← he,update_eq_self]

theorem updateAncestors_induction {P : ChainState → Prop} (l : List BlockHash) (hs : P s)
    (step : ∀ (t : ChainState) (b : BlockHash), b ∈ l → P t → P (t.updateFlagsForBlock none f b).1) :
    P (updateAncestors f l s d).1 := by
  induction l generalizing s d with
  | nil => exact hs
  | cons b l ih =>
    exact ih (step s b List.mem_cons_self hs) fun t c hc => step t c (List.mem_cons_of_mem b hc)

theorem updateDescendants_induction {P : ChainState → Prop} (l : List BlockHash) (hs : P s)
    (step : ∀ (t : ChainState) (base b : BlockHash) (g : BlockStatus → BlockStatus), b ∈ l →
      g = fChild ∨ g = fAncestorWasChanged → P t → P (t.updateFlagsForBlock (some base) g b).1) :
    P (updateDescendants pindex d fChild fAncestorWasChanged l s) := by
  induction l generalizing s with
  | nil => exact hs
  | cons b l ih =>
    have h1 := step s pindex b fChild List.mem_cons_self (.inl rfl) hs
    have h2 := step _ d b fAncestorWasChanged List.mem_cons_self (.inr rfl) h1
    exact ih h2 fun t base c g hc => step t base c g (List.mem_cons_of_mem b hc)

theorem updateFlags_induction {P : ChainState → Prop} (hpindex : pindex ∈ s.tree.known) (hs : P s)
    (step : ∀ (t : ChainState) (base : Option BlockHash) (b : BlockHash) (g : BlockStatus → BlockStatus),
      b ∈ s.tree.known → g = f ∨ g = fChild ∨ g = fAncestorWasChanged → P t → P (t.updateFlagsForBlock base g b).1) :
    P (s.updateFlags pindex f fChild fAncestorWasChanged) := by
  refine updateDescendants_induction _ (updateAncestors_induction _ hs ?_) ?_
  · intro t b hb ht
    exact step t none b f (BlockTree.known_of_anc (mem_lineage.mp hb) hpindex) (.inl rfl) ht
  · intro t base b g hb hg ht
    exact step t base b g hb (.inr hg) ht

theorem updateFlags_agree (hpindex : pindex ∈ s.tree.known) :
    Agree s (s.updateFlags pindex f fChild fAncestorWasChanged) ∧
      (s.updateFlags pindex f fChild fAncestorWasChanged).mapBlocksUnlinked = s.mapBlocksUnlinked := by
  refine updateFlags_induction (P := fun t => Agree s t ∧ t.mapBlocksUnlinked = s.mapBlocksUnlinked) hpindex
    ⟨.refl s,rfl⟩ fun t base b g _ _ ht => ?_
  have h := updateFlagsForBlock_spec t base g b
  exact ⟨ht.1.trans h.agree,h.unlinked.trans ht.2⟩

theorem mem_updateFlags_of_changed (hpindex : pindex ∈ s.tree.known) (hc : c ∈ s.setBlockIndexCandidates ∨
      (s.updateFlags pindex f fChild fAncestorWasChanged).nStatus c ≠ s.nStatus c ∧
      ((s.updateFlags pindex f fChild fAncestorWasChanged).nStatus c).isValid .transactions = true ∧
      s.haveTxsDownloaded c = true ∧ s.worse s.tip c = true) :
    c ∈ (s.updateFlags pindex f fChild fAncestorWasChanged).setBlockIndexCandidates := by
  revert c
  refine (updateFlags_induction (P := fun t => Agree s t ∧ ∀ {c}, c ∈ s.setBlockIndexCandidates ∨
    t.nStatus c ≠ s.nStatus c ∧ (t.nStatus c).isValid .transactions = true ∧
      s.haveTxsDownloaded c = true ∧ s.worse s.tip c = true → c ∈ t.setBlockIndexCandidates)
      hpindex ⟨.refl s,fun hc => hc.resolve_right fun h => h.1 rfl⟩ fun t base b g hb _ ht => ?_).2
  have h := updateFlagsForBlock_spec t base g b
  refine ⟨ht.1.trans h.agree,fun {c} hc => (h.candidates c).mpr ?_⟩
  rcases hc with hc | ⟨hne,hvalid,htxs,hworse⟩
  · exact .inl (ht.2 (.inl hc))
  by_cases hsame : (t.updateFlagsForBlock base g b).1.nStatus c = t.nStatus c
  · rw [hsame] at hne hvalid
    exact .inl (ht.2 (.inr ⟨hne,hvalid,htxs,hworse⟩))
  · -- the last change of the block decides
    have happlies : ∀ a, base = some a → t.tree.Anc a b := by
      by_contra hn
      exact hsame (by rw [h.of_not hn])
    have hcb : c = b := by
      by_contra hcb
      exact hsame (by rw [h.of_applies happlies,update_of_ne hcb])
    subst hcb
    refine .inr ⟨rfl,h.changed_iff.mpr ⟨happlies,fun he => hsame ?_⟩,hvalid,?_,?_⟩
    · rw [h.of_applies happlies,update_self]
      exact he.symm
    · rw [ht.1.haveTxsDownloaded]
      exact htxs
    · rw [ht.1.worse,ht.1.tip]
      exact hworse

private theorem updateFlagsForBlock_status (s : ChainState) (base : Option BlockHash) (f : BlockStatus → BlockStatus)
    (b x : BlockHash) [Decidable (∀ a, base = some a → s.tree.Anc a b)] :
    (s.updateFlagsForBlock base f b).1.nStatus x =
      if x = b ∧ ∀ a, base = some a → s.tree.Anc a b then f (s.nStatus x) else s.nStatus x := by
  have h := updateFlagsForBlock_spec s base f b
  split
  · rename_i hx
    rw [h.of_applies hx.2,hx.1,update_self]
  · rename_i hx
    by_cases happlies : ∀ a, base = some a → s.tree.Anc a b
    · rw [h.of_applies happlies,update_of_ne fun he => hx ⟨he,happlies⟩]
    · rw [h.of_not happlies]

private theorem updateAncestors_spec (f : BlockStatus → BlockStatus) (s : ChainState) (pindex d : BlockHash) :
    let r := updateAncestors f (s.tree.lineage pindex) s d
    (∀ x, r.1.nStatus x = if s.tree.Anc x pindex then f (s.nStatus x) else s.nStatus x) ∧
    ((r.2 = d ∧ ∀ a, s.tree.Anc a pindex → s.nStatus a = f (s.nStatus a)) ∨
      s.tree.Anc r.2 pindex ∧ s.nStatus r.2 ≠ f (s.nStatus r.2) ∧
        ∀ a, s.tree.Anc a pindex → s.nStatus a ≠ f (s.nStatus a) → s.tree.Anc r.2 a) := by
  obtain ⟨T,hT⟩ : ∃ T, s.tree = T := ⟨_,rfl⟩
  rw [hT]
  induction pindex using T.induction_up generalizing s d with
  | root p hp =>
    have hroot : ∀ x, T.Anc x p ↔ x = p := fun x => ⟨fun h => h.root hp,fun h => h ▸ .refl x⟩
    have h := updateFlagsForBlock_spec s none f p
    rw [T.lineage_root hp]
    simp only [updateAncestors,hroot,forall_eq]
    refine ⟨fun x => by simp [updateFlagsForBlock_status],?_⟩
    by_cases hc : s.nStatus p = f (s.nStatus p)
    · have : (s.updateFlagsForBlock none f p).2 = false := by
        simpa [hc.symm] using h.changed_iff
      simp [this,← hc]
    · have : (s.updateFlagsForBlock none f p).2 = true := by
        simpa [hc] using h.changed_iff
      simp [this,hc]
  | child p q hp ih =>
    have h := updateFlagsForBlock_spec s none f p
    have hpq : ¬T.Anc p q := fun hpq => by
      have h1 := hpq.height_le
      have h2 := T.height_parent hp
      omega
    have hanc : ∀ x, T.Anc x p ↔ x = p ∨ T.Anc x q := fun x => by rw [anc_iff,hp]; simp
    have hstatus : ∀ x, T.Anc x q → (s.updateFlagsForBlock none f p).1.nStatus x = s.nStatus x := fun x hx => by
      rw [h.of_applies (by simp),update_of_ne fun he : x = p => hpq (he ▸ hx)]
    rw [T.lineage_parent hp,updateAncestors]
    obtain ⟨ih1,ih2⟩ := ih (s.updateFlagsForBlock none f p).1
      (if (s.updateFlagsForBlock none f p).2 then p else d) (h.agree.tree.trans hT)
    refine ⟨fun x => ?_,?_⟩
    · rw [ih1,updateFlagsForBlock_status]
      by_cases hxq : T.Anc x q
      · have hne : x ≠ p := fun he => hpq (he ▸ hxq)
        simp [hxq,hanc,hne]
      · simp [hxq,hanc]
    · rcases ih2 with ⟨hr,hsame⟩ | ⟨hr,hne,hdeep⟩
      · have hsame' : ∀ a, T.Anc a q → s.nStatus a = f (s.nStatus a) := fun a ha => by
          rw [← hstatus a ha]
          exact hsame a ha
        rw [hr]
        split
        · rename_i hc
          refine .inr ⟨.refl p,(h.changed_iff.mp hc).2,fun a ha hne => ?_⟩
          rcases (hanc a).mp ha with rfl | ha
          · exact .refl _
          · exact absurd (hsame' a ha) hne
        · rename_i hc
          refine .inl ⟨rfl,fun a ha => ?_⟩
          rcases (hanc a).mp ha with rfl | ha
          · by_contra hne
            exact hc (h.changed_iff.mpr ⟨by simp,hne⟩)
          · exact hsame' a ha
      · rw [hstatus _ hr] at hne
        refine .inr ⟨(hanc _).mpr (.inr hr),hne,fun a ha hne' => ?_⟩
        rcases (hanc a).mp ha with rfl | ha
        · exact (hanc _).mpr (.inr hr)
        · exact hdeep a ha (by rwa [hstatus a ha])

private theorem updateDescendants_status {l : List BlockHash} (hnodup : l.Nodup) (s : ChainState) (x : BlockHash) :
    (updateDescendants pindex d fChild fAncestorWasChanged l s).nStatus x = if x ∈ l then
        (if s.tree.Anc d x then fAncestorWasChanged else id)
          ((if s.tree.Anc pindex x then fChild else id) (s.nStatus x))
      else s.nStatus x := by
  induction l generalizing s with
  | nil => simp [updateDescendants]
  | cons b l ih =>
    obtain ⟨hb,hnodup⟩ := List.nodup_cons.mp hnodup
    have h1 := updateFlagsForBlock_spec s (some pindex) fChild b
    have h2 := updateFlagsForBlock_spec (s.updateFlagsForBlock (some pindex) fChild b).1 (some d)
      fAncestorWasChanged b
    rw [updateDescendants,ih hnodup,h2.agree.tree,h1.agree.tree]
    simp only [updateFlagsForBlock_status,h1.agree.tree,Option.some.injEq,forall_eq']
    by_cases hx : x = b
    · subst hx
      simp only [hb,if_false,List.mem_cons,true_or,if_true,true_and]
      split <;> split <;> rfl
    · simp [hx]

/-- The flags of all blocks after `UpdateFlags`. -/
theorem updateFlags_status (s : ChainState) :
    ∃ d, s.tree.Anc d pindex ∧ (d = pindex ∨ s.nStatus d ≠ f (s.nStatus d)) ∧
      (∀ a, s.tree.Anc a pindex → s.nStatus a ≠ f (s.nStatus a) → s.tree.Anc d a) ∧
      ∀ x ∈ s.tree.known, (s.updateFlags pindex f fChild fAncestorWasChanged).nStatus x =
        (if s.tree.Anc d x then fAncestorWasChanged else id)
          ((if s.tree.Anc pindex x then fChild else id)
            (if s.tree.Anc x pindex then f (s.nStatus x) else s.nStatus x)) := by
  have hagree : Agree s (updateAncestors f (s.tree.lineage pindex) s pindex).1 :=
    updateAncestors_induction (P := Agree s) _ (.refl s) fun t b _ ht =>
      ht.trans (updateFlagsForBlock_spec t none f b).agree
  obtain ⟨hstatus,hdeep⟩ := updateAncestors_spec f s pindex pindex
  refine ⟨(updateAncestors f (s.tree.lineage pindex) s pindex).2,?_,?_,?_,fun x hx => ?_⟩
  · rcases hdeep with ⟨hd,-⟩ | ⟨hd,-,-⟩
    · rw [hd]
      exact .refl pindex
    · exact hd
  · exact hdeep.imp (fun h => h.1) fun h => h.2.1
  · intro a ha hne
    rcases hdeep with ⟨-,hd⟩ | ⟨-,-,hd⟩
    · exact absurd (hd a ha) hne
    · exact hd a ha hne
  · rw [updateFlags,updateDescendants_status s.tree.known_nodup,if_pos hx,hagree.tree,hstatus]
end Flags
end ChainState
end BitfiniteCore
