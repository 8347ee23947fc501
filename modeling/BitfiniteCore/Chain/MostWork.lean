import BitfiniteCore.Chain.ActivateSpec
import Mathlib.Data.Finset.Card

/-! # FindMostWorkChain -/

namespace BitfiniteCore
open Function ParentTree Relation List

/-- The loop of `FindMostWorkChain`. -/
def findMostWork (cfg : ChainConfig) : Nat → ChainState → Except Stop (Option BlockHash × ChainState)
  | rounds, s => (s.findMostWorkChain cfg).bind fun
    | .none => .ok (none,s)
    | .found pindexNew s => .ok (some pindexNew,s)
    | .again s => match rounds with
      | 0 => .error (.runtimeError "rounds")
      | rounds+1 => findMostWork cfg rounds s

namespace ChainState

variable {s s' t u : ChainState} {a b c x fork pindexNew pindexTest : BlockHash}

def Usable (s : ChainState) (b : BlockHash) : Prop :=
  (s.nStatus b).hasData = true ∧ (s.nStatus b).isInvalid = false ∧ (s.nStatus b).isOnParkedChain = false

def Blocked (s : ChainState) (b : BlockHash) : Prop :=
  (s.nStatus b).isInvalid = true ∨ (s.nStatus b).isOnParkedChain = true ∨ (s.nStatus b).hasData = false

/-- Candidates have their transactions and those of all blocks below them. -/
structure Ready (s : ChainState) : Prop where
  tip : s.tip ∈ s.tree.known
  candidates : ∀ c ∈ s.setBlockIndexCandidates, c ∈ s.tree.known ∧ s.haveTxsDownloaded c = true
  linked : ∀ {b p}, s.tree.parent b = some p → s.haveTxsDownloaded b = true → s.haveTxsDownloaded p = true

structure Cleared (st st' : BlockStatus) : Prop where
  data : st'.hasData = st.hasData
  invalid : st'.isInvalid = st.isInvalid
  parked : st'.isOnParkedChain = true → st.isOnParkedChain = true

theorem Cleared.refl (st : BlockStatus) : Cleared st st := ⟨rfl,rfl,id⟩

theorem Cleared.trans {st st' st'' : BlockStatus} (h : Cleared st st') (h' : Cleared st' st'') : Cleared st st'' :=
  ⟨h'.data.trans h.data,h'.invalid.trans h.invalid,fun hp => h.parked (h'.parked hp)⟩

theorem Cleared.usable (h : Cleared (s.nStatus x) (t.nStatus x)) (hx : Usable s x) : Usable t x := by
  refine ⟨h.data.trans hx.1,h.invalid.trans hx.2.1,?_⟩
  cases hp : (t.nStatus x).isOnParkedChain with
  | false => rfl
  | true => exact (h.parked hp).symm.trans hx.2.2

/-- Unparking clears flags; a block that it makes a candidate was parked and is better than the tip. -/
theorem unparkBlock_spec (hb : b ∈ s.tree.known) : (∀ x, Cleared (s.nStatus x) ((s.unparkBlock b).nStatus x)) ∧
    ∀ c ∈ (s.unparkBlock b).setBlockIndexCandidates, c ∈ s.setBlockIndexCandidates ∨ c ∈ s.tree.known ∧
      s.haveTxsDownloaded c = true ∧ s.worse s.tip c = true ∧ (s.nStatus c).isOnParkedChain = true := by
  refine (updateFlags_induction (P := fun t => Agree s t ∧ (∀ x, Cleared (s.nStatus x) (t.nStatus x)) ∧
    ∀ c ∈ t.setBlockIndexCandidates, c ∈ s.setBlockIndexCandidates ∨ c ∈ s.tree.known ∧
      s.haveTxsDownloaded c = true ∧ s.worse s.tip c = true ∧ (s.nStatus c).isOnParkedChain = true) hb
    ⟨.refl s,fun x => .refl _,fun c => .inl⟩ ?_).2
  rintro t base y g hy hg ⟨hagree,ht,hcands⟩
  have hspec := updateFlagsForBlock_spec t base g y
  have hclear : ∀ st, Cleared st (g st) ∧ (st ≠ g st → st.isOnParkedChain = true) := by
    rintro ⟨v,data,failed,failedParent,parked,parkedParent⟩
    rcases hg with rfl | rfl | rfl <;> refine ⟨⟨rfl,rfl,?_⟩,?_⟩ <;> cases parked <;> cases parkedParent <;>
      simp [BlockStatus.isOnParkedChain,BlockStatus.withParkedParent,BlockStatus.withClearedParkedFlags]
  refine ⟨hagree.trans hspec.agree,fun x => ?_,fun c hc => ?_⟩
  · by_cases happlies : ∀ a, base = some a → t.tree.Anc a y
    · rw [hspec.of_applies happlies]
      by_cases hxy : x = y
      · rw [hxy,update_self]
        exact (ht y).trans (hclear _).1
      · rw [update_of_ne hxy]
        exact ht x
    · rw [hspec.of_not happlies]
      exact ht x
  · rcases (hspec.candidates c).mp hc with hc | ⟨rfl,hchanged,-,htxs,hworse⟩
    · exact hcands c hc
    · rw [hagree.haveTxsDownloaded] at htxs
      rw [hagree.worse,hagree.tip] at hworse
      exact .inr ⟨hy,htxs,hworse,(ht c).parked ((hclear _).2 (hspec.changed_iff.mp hchanged).2)⟩

theorem unparkBlock_free (hb : b ∈ s.tree.known) (ha : s.tree.Anc a b) :
    ((s.unparkBlock b).nStatus a).isOnParkedChain = false := by
  obtain ⟨d,_,_,_,hstatus⟩ := @updateFlags_status b .withClearedParkedFlags
    (.withParkedParent · false) (.withParkedParent · false) s
  have hst := hstatus a (BlockTree.known_of_anc ha hb)
  rw [if_pos ha] at hst
  rw [unparkBlock,hst]
  split_ifs <;> rfl

inductive Unparks (s : ChainState) : ChainState → Prop
  | refl : Unparks s s
  | tail {t : ChainState} {b : BlockHash} (h : Unparks s t) (hb : b ∈ s.tree.known)
      (hparked : (t.nStatus b).isOnParkedChain = true) : Unparks s (t.unparkBlock b)

theorem Unparks.agree (h : Unparks s t) : Agree s t := by
  induction h with
  | refl => exact .refl s
  | tail _ hb _ ih => exact ih.trans (updateFlags_agree (by rw [ih.tree]; exact hb)).1

theorem Unparks.cleared (h : Unparks s t) (x : BlockHash) : Cleared (s.nStatus x) (t.nStatus x) := by
  induction h with
  | refl => exact .refl _
  | tail h hb _ ih => exact ih.trans ((unparkBlock_spec (by rw [h.agree.tree]; exact hb)).1 x)

theorem Unparks.trans (h : Unparks s t) (h' : Unparks t u) : Unparks s u := by
  induction h' with
  | refl => exact h
  | tail _ hb hparked ih => exact ih.tail (by rw [← h.agree.tree]; exact hb) hparked

theorem Unparks.mem (h : Unparks s t) (hc : c ∈ t.setBlockIndexCandidates) :
    c ∈ s.setBlockIndexCandidates ∨ c ∈ s.tree.known ∧ s.haveTxsDownloaded c = true ∧ s.worse s.tip c = true ∧
      (s.nStatus c).isOnParkedChain = true := by
  induction h with
  | refl => exact .inl hc
  | tail h hb _ ih =>
    rcases (unparkBlock_spec (by rw [h.agree.tree]; exact hb)).2 c hc with hc | ⟨hknown,htxs,hworse,hparked⟩
    · exact ih hc
    · rw [h.agree.tree] at hknown
      rw [h.agree.haveTxsDownloaded] at htxs
      rw [h.agree.worse,h.agree.tip] at hworse
      exact .inr ⟨hknown,htxs,hworse,(h.cleared c).parked hparked⟩

theorem Unparks.subset (h : Unparks s t) (hc : c ∈ s.setBlockIndexCandidates) : c ∈ t.setBlockIndexCandidates := by
  induction h with
  | refl => exact hc
  | tail h hb _ ih => exact mem_updateFlags_of_changed (by rw [h.agree.tree]; exact hb) (.inl ih)

def Tainted (s : ChainState) (b : BlockHash) : Prop := ∃ a, s.tree.Anc a b ∧ (s.nStatus a).isOnParkedChain = true

/-- No branch with a parked block on it has its transactions and beats the tip. -/
def NoParkedRival (s : ChainState) : Prop :=
  ∀ c ∈ s.tree.known, Tainted s c → s.haveTxsDownloaded c = true → s.worse s.tip c = false

open Classical in
noncomputable def tainted (s : ChainState) : Finset BlockHash := s.tree.known.toFinset.filter (Tainted s)

theorem mem_tainted : b ∈ s.tainted ↔ b ∈ s.tree.known ∧ Tainted s b := by
  simp [tainted]

theorem tainted_subset (htree : t.tree = s.tree) (h : ∀ x, Tainted t x → Tainted s x) : t.tainted ⊆ s.tainted := by
  intro x hx
  rw [mem_tainted,htree] at hx
  exact mem_tainted.mpr ⟨hx.1,h x hx.2⟩

theorem Unparks.tainted (h : Unparks s t) (hx : Tainted t x) : Tainted s x := by
  obtain ⟨a,ha,hparked⟩ := hx
  rw [h.agree.tree] at ha
  exact ⟨a,ha,(h.cleared a).parked hparked⟩

theorem NoParkedRival.mono (h : NoParkedRival s) (htree : t.tree = s.tree) (htip : t.tip = s.tip)
    (htxs : t.nChainTx = s.nChainTx) (hworse : ∀ x y, t.worse x y = s.worse x y)
    (ht : ∀ x, Tainted t x → Tainted s x) : NoParkedRival t := by
  intro c hc htaint hdownloaded
  rw [htree] at hc
  rw [haveTxsDownloaded,htxs] at hdownloaded
  rw [hworse,htip]
  exact h c hc (ht c htaint) hdownloaded

theorem Unparks.eq_or_lt (h : Unparks s t) : t = s ∨ t.tainted.card < s.tainted.card := by
  induction h with
  | refl => exact .inl rfl
  | @tail t b h hb hparked ih =>
    right
    have hbt : b ∈ t.tree.known := by
      rw [h.agree.tree]
      exact hb
    have hstep : Unparks t (t.unparkBlock b) := .tail .refl hbt hparked
    have hlt : (t.unparkBlock b).tainted.card < t.tainted.card := by
      apply Finset.card_lt_card
      refine ⟨tainted_subset hstep.agree.tree fun x hx => hstep.tainted hx,fun hsub => ?_⟩
      have hmem := hsub (mem_tainted.mpr ⟨hbt,b,.refl b,hparked⟩)
      obtain ⟨a,ha,hpa⟩ := (mem_tainted.mp hmem).2
      rw [hstep.agree.tree] at ha
      rw [unparkBlock_free hbt ha] at hpa
      cases hpa
    exact lt_of_lt_of_le hlt (Finset.card_le_card (tainted_subset h.agree.tree fun x hx => h.tainted hx))

theorem unparkIfEnough_spec (cfg : ChainConfig) (pindexNew fork : BlockHash) (hx : x ∈ s.tree.known) :
    Unparks s (s.unparkIfEnough cfg pindexNew fork x) ∧
    (((s.nStatus x).isOnParkedChain &&
        !(cfg.automaticunparking && decide (s.requiredWork fork < s.tree.nChainWork pindexNew))) =
      ((s.unparkIfEnough cfg pindexNew fork x).nStatus x).isOnParkedChain) := by
  rw [unparkIfEnough]
  cases hparked : (s.nStatus x).isOnParkedChain with
  | false => simp [hparked,Unparks.refl]
  | true =>
    simp only [Bool.true_and]
    cases henough : cfg.automaticunparking && decide (s.requiredWork fork < s.tree.nChainWork pindexNew) with
    | false => simp [hparked,Unparks.refl]
    | true => simpa [unparkBlock_free hx (.refl x)] using Unparks.refl.tail hx hparked

theorem unparkIfEnough_off {cfg : ChainConfig} (hoff : cfg.automaticunparking = false) :
    s.unparkIfEnough cfg pindexNew fork x = s := by
  simp [unparkIfEnough,hoff]

theorem testChain_spec (cfg : ChainConfig) (pindexNew fork : BlockHash) (rest passed : List BlockHash)
    (hrest : ∀ x ∈ rest, x ∈ s.tree.known ∧ s.haveTxsDownloaded x = true) :
    ∃ t, Unparks s t ∧ (cfg.automaticunparking = false → t = s) ∧
      ((testChain cfg pindexNew fork rest passed s = .ok (t,true) ∧ ∀ x ∈ rest, Usable t x) ∨
      ∃ before pindexTest after fInvalidChain fParkedChain fMissingData,
        rest = before++pindexTest::after ∧ Blocked t pindexTest ∧
        (fParkedChain = true → (t.nStatus pindexTest).isOnParkedChain = true) ∧
        testChain cfg pindexNew fork rest passed s = .ok (dropChain fInvalidChain fParkedChain fMissingData
          (passed.reverse++before) (t.eraseCandidate pindexTest),false)) := by
  induction rest generalizing passed s with
  | nil => exact ⟨s,.refl,fun _ => rfl,.inl ⟨rfl,nofun⟩⟩
  | cons x rest ih =>
    obtain ⟨hx,htxs⟩ := hrest x mem_cons_self
    obtain ⟨hunparks,hparked⟩ := unparkIfEnough_spec cfg pindexNew fork hx
    rw [testChain,htxs]
    simp only [Bool.not_true,Bool.false_and,Bool.false_eq_true,if_false]
    rw [hparked]
    have hsame : cfg.automaticunparking = false → s.unparkIfEnough cfg pindexNew fork x = s := unparkIfEnough_off
    generalize s.unparkIfEnough cfg pindexNew fork x = u at hunparks hsame
    split_ifs with hgood
    · simp only [Bool.not_eq_true',Bool.or_eq_false_iff,Bool.not_eq_false'] at hgood
      obtain ⟨⟨hinvalid,hpark⟩,hdata⟩ := hgood
      have husable : Usable u x := ⟨hdata,hinvalid,hpark⟩
      obtain ⟨t,ht,hnone,hresult⟩ := ih (s := u) (x::passed) (by
        intro y hy
        rw [hunparks.agree.tree,hunparks.agree.haveTxsDownloaded]
        exact hrest y (mem_cons_of_mem x hy))
      refine ⟨t,hunparks.trans ht,fun hoff => (hnone hoff).trans (hsame hoff),?_⟩
      rcases hresult with ⟨hok,hall⟩ | ⟨before,test,after,fInvalid,fParked,fMissing,hlist,hblocked,hp,hok⟩
      · exact .inl ⟨hok,forall_mem_cons.mpr ⟨(ht.cleared x).usable husable,hall⟩⟩
      · refine .inr ⟨x::before,test,after,fInvalid,fParked,fMissing,by rw [hlist]; rfl,hblocked,hp,?_⟩
        rw [hok]
        simp
    · refine ⟨u,hunparks,hsame,
        .inr ⟨[],x,rest,_,_,_,rfl,?_,fun hp => hp,by rw [append_nil]⟩⟩
      rw [Blocked]
      simp only [Bool.not_eq_true',Bool.not_eq_false,Bool.or_eq_true] at hgood
      rcases hgood with (hinvalid | hpark) | hdata
      · exact .inl hinvalid
      · exact .inr (.inl hpark)
      · exact .inr (.inr (by simpa using hdata))

theorem dropFromChain_spec (fInvalidChain fParkedChain fMissingData : Bool) (b : BlockHash) (s : ChainState) :
    Agree s (s.dropFromChain fInvalidChain fParkedChain fMissingData b) ∧
    (∀ c, c ∈ (s.dropFromChain fInvalidChain fParkedChain fMissingData b).setBlockIndexCandidates ↔
      c ∈ s.setBlockIndexCandidates ∧ c ≠ b) ∧
    (∀ x, x ≠ b → (s.dropFromChain fInvalidChain fParkedChain fMissingData b).nStatus x = s.nStatus x) ∧
    (((s.dropFromChain fInvalidChain fParkedChain fMissingData b).nStatus b).isOnParkedChain = true →
      (s.nStatus b).isOnParkedChain = true ∨ fParkedChain = true) := by
  rw [dropFromChain]
  split_ifs
  · refine ⟨⟨rfl,rfl,rfl,rfl,rfl,rfl,rfl⟩,fun c => mem_eraseCandidate,fun x hx => update_of_ne hx _ _,fun h => ?_⟩
    simp only [eraseCandidate,setStatus,update_self,BlockStatus.isOnParkedChain,BlockStatus.withParkedParent,
      BlockStatus.withFailedParent,Bool.or_eq_true] at h ⊢
    tauto
  · exact ⟨⟨rfl,rfl,rfl,rfl,rfl,rfl,rfl⟩,fun c => mem_eraseCandidate,fun _ _ => rfl,.inl⟩
  · exact ⟨⟨rfl,rfl,rfl,rfl,rfl,rfl,rfl⟩,fun c => mem_eraseCandidate,fun _ _ => rfl,.inl⟩

theorem dropChain_spec (fInvalidChain fParkedChain fMissingData : Bool) (l : List BlockHash) (s : ChainState) :
    Agree s (dropChain fInvalidChain fParkedChain fMissingData l s) ∧
    (∀ c, c ∈ (dropChain fInvalidChain fParkedChain fMissingData l s).setBlockIndexCandidates ↔
      c ∈ s.setBlockIndexCandidates ∧ c ∉ l) ∧
    (∀ x ∉ l, (dropChain fInvalidChain fParkedChain fMissingData l s).nStatus x = s.nStatus x) ∧
    ∀ x, ((dropChain fInvalidChain fParkedChain fMissingData l s).nStatus x).isOnParkedChain = true →
      (s.nStatus x).isOnParkedChain = true ∨ (fParkedChain = true ∧ x ∈ l) := by
  induction l generalizing s with
  | nil => exact ⟨.refl s,by simp [dropChain],fun _ _ => rfl,fun _ h => .inl h⟩
  | cons b l ih =>
    obtain ⟨hagree,hmem,hsame,hparked⟩ := dropFromChain_spec fInvalidChain fParkedChain fMissingData b s
    obtain ⟨hagree',hmem',hsame',hparked'⟩ := ih (s.dropFromChain fInvalidChain fParkedChain fMissingData b)
    rw [dropChain]
    refine ⟨hagree.trans hagree',fun c => ?_,fun x hx => ?_,fun x hx => ?_⟩
    · rw [hmem',hmem,mem_cons,not_or,and_assoc]
    · rw [mem_cons,not_or] at hx
      rw [hsame' x hx.2,hsame x hx.1]
    · rcases hparked' x hx with h | ⟨hp,hxl⟩
      · by_cases hxb : x = b
        · subst hxb
          exact (hparked h).imp_right fun hp => ⟨hp,mem_cons_self⟩
        · rw [hsame x hxb] at h
          exact .inl h
      · exact .inr ⟨hp,mem_cons_of_mem b hxl⟩

theorem failIfConflicting_spec (s : ChainState) (b : BlockHash) :
    (s.failIfConflicting b).tree = s.tree ∧ (s.failIfConflicting b).tip = s.tip ∧
    (s.failIfConflicting b).nChainTx = s.nChainTx ∧ (s.failIfConflicting b).nSequenceId = s.nSequenceId ∧
    (s.failIfConflicting b).setBlockIndexCandidates = s.setBlockIndexCandidates ∧
    ∀ x, ((s.failIfConflicting b).nStatus x).isOnParkedChain = (s.nStatus x).isOnParkedChain := by
  have hstatus : ∀ x, (update s.nStatus b ((s.nStatus b).withFailed true) x).isOnParkedChain =
      (s.nStatus x).isOnParkedChain := by
    intro x
    by_cases hx : x = b
    · rw [hx,update_self]
      rfl
    · rw [update_of_ne hx]
  rw [failIfConflicting]
  split_ifs
  · rw [invalidChainFound]
    split_ifs
    · exact ⟨rfl,rfl,rfl,rfl,rfl,hstatus⟩
    · exact ⟨rfl,rfl,rfl,rfl,rfl,hstatus⟩
  · exact ⟨rfl,rfl,rfl,rfl,rfl,fun _ => rfl⟩

theorem failIfConflicting_findFork (s : ChainState) (b c : BlockHash) :
    (s.failIfConflicting b).findFork c = s.findFork c := by
  obtain ⟨htree,htip,_⟩ := failIfConflicting_spec s b
  have hcontains : (s.failIfConflicting b).contains = s.contains := by
    funext y
    rw [ChainState.contains,ChainState.contains,htree,htip]
  rw [ChainState.findFork,ChainState.findFork,htree,htip,hcontains]

theorem failIfConflicting_worse (s : ChainState) (b c d : BlockHash) :
    (s.failIfConflicting b).worse c d = s.worse c d := by
  obtain ⟨htree,_,_,hseq,_⟩ := failIfConflicting_spec s b
  rw [ChainState.worse,ChainState.worse,htree,hseq]

theorem failIfConflicting_tainted (s : ChainState) (b : BlockHash) (hx : Tainted (s.failIfConflicting b) x) :
    Tainted s x := by
  obtain ⟨htree,_,_,_,_,hparked⟩ := failIfConflicting_spec s b
  obtain ⟨a,ha,hpa⟩ := hx
  rw [htree] at ha
  rw [hparked] at hpa
  exact ⟨a,ha,hpa⟩

theorem NoParkedRival.failIfConflicting (h : NoParkedRival s) (b : BlockHash) :
    NoParkedRival (s.failIfConflicting b) := by
  obtain ⟨htree,htip,hchain,_⟩ := failIfConflicting_spec s b
  exact h.mono htree htip hchain (failIfConflicting_worse s b) fun _ => failIfConflicting_tainted s b

theorem haveTxsDownloaded_anc (h : Ready s) (hab : s.tree.Anc a b) (hb : s.haveTxsDownloaded b = true) :
    s.haveTxsDownloaded a = true := by
  induction hab with
  | refl => exact hb
  | tail _ hp ih => exact ih (h.linked hp hb)

/-- Blocks are unparked, then those from the candidate down to a blocked one are dropped. -/
structure Dropped (s : ChainState) (pindexNew fork : BlockHash) (t s' : ChainState) : Prop where
  unparks : Unparks (s.failIfConflicting pindexNew) t
  agree : Agree t s'
  erased : ∀ c, c ∈ t.setBlockIndexCandidates → c ∉ s'.setBlockIndexCandidates →
    ∃ x ∈ s.tree.path fork pindexNew, s.tree.Anc x c ∧ Blocked t x
  subset : ∀ c, c ∈ s'.setBlockIndexCandidates → c ∈ t.setBlockIndexCandidates
  candidate : pindexNew ∉ s'.setBlockIndexCandidates
  tainted : ∀ x, Tainted s' x → Tainted t x

theorem findMostWorkChain_round (cfg : ChainConfig) (h : Ready s) (hbest : s.bestCandidate = some b) :
    ∃ fork t, s.findFork b = some fork ∧
      ((s.findMostWorkChain cfg = .ok (.found b t) ∧ Unparks (s.failIfConflicting b) t ∧
          (∀ x ∈ s.tree.path fork b, Usable t x) ∧
          (cfg.automaticunparking = false → t = s.failIfConflicting b)) ∨
        ∃ s', s.findMostWorkChain cfg = .ok (.again s') ∧ Dropped s b fork t s') := by
  obtain ⟨htree,_,hchain,_,_,hflags⟩ := failIfConflicting_spec s b
  obtain ⟨hb,hbtxs⟩ := h.candidates b (bestCandidate_spec hbest).1
  obtain ⟨fork,hfork⟩ := exists_findFork hb h.tip
  have hfork' := (failIfConflicting_findFork s b b).trans hfork
  obtain ⟨t,hunparks,hnone,hresult⟩ := testChain_spec (s := s.failIfConflicting b) cfg b fork
    (s.tree.path fork b) [] (by
      intro x hx
      have hanc := (mem_path hx).1
      rw [htree,haveTxsDownloaded,hchain]
      exact ⟨BlockTree.known_of_anc hanc hb,haveTxsDownloaded_anc h hanc hbtxs⟩)
  refine ⟨fork,t,hfork,?_⟩
  rw [findMostWorkChain,hbest]
  dsimp only
  rw [hfork']
  dsimp only
  rw [htree]
  rcases hresult with ⟨hok,husable⟩ | ⟨before,test,after,fInvalid,fParked,fMissing,hlist,hblocked,hp,hok⟩
  · left
    rw [hok]
    exact ⟨rfl,hunparks,husable,hnone⟩
  · right
    rw [reverse_nil,nil_append] at hok
    obtain ⟨hagree,hmem,_,hparked⟩ := dropChain_spec fInvalid fParked fMissing before (t.eraseCandidate test)
    have hbelow : ∀ y ∈ before, s.tree.Anc test y := by
      have hpairs := path_pairwise s.tree.toParentTree fork b
      rw [hlist,pairwise_append] at hpairs
      exact fun y hy => hpairs.2.2 y hy test mem_cons_self
    have htest : test ∈ s.tree.path fork b := by
      rw [hlist]
      exact mem_append_right _ mem_cons_self
    have htree' : t.tree = s.tree := hunparks.agree.tree.trans htree
    refine ⟨_,by rw [hok]; rfl,⟨hunparks,?_,?_,?_,?_,?_⟩⟩
    · have herase : Agree t (t.eraseCandidate test) := ⟨rfl,rfl,rfl,rfl,rfl,rfl,rfl⟩
      exact herase.trans hagree
    · intro c hc hnot
      rw [hmem,mem_eraseCandidate] at hnot
      refine ⟨test,htest,?_,hblocked⟩
      by_cases hct : c = test
      · rw [hct]
        exact .refl test
      · apply hbelow c
        by_contra hcb
        exact hnot ⟨⟨hc,hct⟩,hcb⟩
    · intro c hc
      rw [hmem,mem_eraseCandidate] at hc
      exact hc.1.1
    · rw [hmem,mem_eraseCandidate]
      intro hbmem
      rcases path_head hlist with heq | hin
      · exact hbmem.1.2 heq
      · exact hbmem.2 hin
    · intro x hx
      obtain ⟨a,ha,hpa⟩ := hx
      rw [hagree.tree] at ha
      rcases hparked a hpa with hold | ⟨hpark,hin⟩
      · exact ⟨a,ha,hold⟩
      · refine ⟨test,Anc.trans ?_ ha,hp hpark⟩
        rw [htree']
        exact hbelow a hin

def Again (cfg : ChainConfig) (s s' : ChainState) : Prop := s.findMostWorkChain cfg = .ok (.again s')

theorem findMostWorkChain_none {cfg : ChainConfig} (hbest : s.bestCandidate = none) :
    s.findMostWorkChain cfg = .ok .none := by
  rw [findMostWorkChain,hbest]

theorem Ready.again {cfg : ChainConfig} (h : Ready s) (hagain : Again cfg s s') :
    ∃ b fork t, s.bestCandidate = some b ∧ s.findFork b = some fork ∧ Dropped s b fork t s' := by
  cases hbest : s.bestCandidate with
  | none =>
    rw [Again,findMostWorkChain_none hbest] at hagain
    cases hagain
  | some b =>
    obtain ⟨fork,t,hfork,hround⟩ := findMostWorkChain_round cfg h hbest
    rcases hround with ⟨hfound,_⟩ | ⟨s'',hs'',hdropped⟩
    · rw [Again,hfound] at hagain
      cases hagain
    · rw [Again,hs''] at hagain
      cases hagain
      exact ⟨b,fork,t,rfl,hfork,hdropped⟩

theorem Dropped.ready (h : Ready s) (hd : Dropped s b fork t s') : Ready s' := by
  obtain ⟨htree,htip,hchain,_,hcands,_⟩ := failIfConflicting_spec s b
  have htree' : s'.tree = s.tree := hd.agree.tree.trans (hd.unparks.agree.tree.trans htree)
  have hchain' : s'.nChainTx = s.nChainTx := hd.agree.nChainTx.trans (hd.unparks.agree.nChainTx.trans hchain)
  have htxs : ∀ x, s'.haveTxsDownloaded x = s.haveTxsDownloaded x := by
    intro x
    rw [haveTxsDownloaded,haveTxsDownloaded,hchain']
  refine ⟨?_,?_,?_⟩
  · rw [htree',hd.agree.tip,hd.unparks.agree.tip,htip]
    exact h.tip
  · intro c hc
    rw [htree',htxs]
    rcases hd.unparks.mem (hd.subset c hc) with hold | ⟨hknown,hnew,-⟩
    · rw [hcands] at hold
      exact h.candidates c hold
    · rw [htree] at hknown
      rw [haveTxsDownloaded,hchain] at hnew
      exact ⟨hknown,hnew⟩
  · intro b p hp hb
    rw [htree'] at hp
    rw [htxs] at hb ⊢
    exact h.linked hp hb

theorem Dropped.decreases (hbest : s.bestCandidate = some b) (hd : Dropped s b fork t s') :
    s'.tainted.card < s.tainted.card ∨ (s'.tainted.card ≤ s.tainted.card ∧
      s'.setBlockIndexCandidates.toFinset.card < s.setBlockIndexCandidates.toFinset.card) := by
  obtain ⟨htree,_,_,_,hcands,_⟩ := failIfConflicting_spec s b
  have hfail : (s.failIfConflicting b).tainted ⊆ s.tainted :=
    tainted_subset htree fun _ => failIfConflicting_tainted s b
  have hdrop : s'.tainted.card ≤ t.tainted.card := Finset.card_le_card (tainted_subset hd.agree.tree hd.tainted)
  have hfail' := Finset.card_le_card hfail
  rcases hd.unparks.eq_or_lt with heq | hlt
  · right
    rw [heq] at hdrop
    refine ⟨hdrop.trans hfail',Finset.card_lt_card ⟨?_,fun hsub => ?_⟩⟩
    · intro c hc
      rw [mem_toFinset] at hc ⊢
      have hct := hd.subset c hc
      rw [heq,hcands] at hct
      exact hct
    · have hb := hsub (mem_toFinset.mpr (bestCandidate_spec hbest).1)
      exact hd.candidate (mem_toFinset.mp hb)
  · left
    omega

theorem findMostWork_terminates (cfg : ChainConfig) (h : Ready s) :
    ∃ bound, ∀ rounds, bound ≤ rounds → ∃ r, findMostWork cfg rounds s = .ok r := by
  induction hn : s.tainted.card using Nat.strong_induction_on generalizing s with
  | h n ihn =>
    induction hm : s.setBlockIndexCandidates.toFinset.card using Nat.strong_induction_on generalizing s with
    | h m ihm =>
      cases hbest : s.bestCandidate with
      | none =>
        refine ⟨0,fun rounds _ => ⟨(none,s),?_⟩⟩
        rw [findMostWork,findMostWorkChain_none hbest]
        rfl
      | some b =>
        obtain ⟨fork,t,_,hround⟩ := findMostWorkChain_round cfg h hbest
        rcases hround with ⟨hfound,_⟩ | ⟨s',hs',hd⟩
        · refine ⟨0,fun rounds _ => ⟨(some b,t),?_⟩⟩
          rw [findMostWork,hfound]
          rfl
        · have hrest : ∃ bound, ∀ rounds, bound ≤ rounds → ∃ r, findMostWork cfg rounds s' = .ok r := by
            rcases hd.decreases hbest with hlt | ⟨hle,hlt⟩
            · exact ihn _ (by omega) (hd.ready h) rfl
            · rcases Nat.lt_or_eq_of_le hle with hlt' | heq
              · exact ihn _ (by omega) (hd.ready h) rfl
              · exact ihm _ (by omega) (hd.ready h) (by omega) rfl
          obtain ⟨bound,hbound⟩ := hrest
          refine ⟨bound+1,fun rounds hrounds => ?_⟩
          obtain ⟨rounds,rfl⟩ : ∃ k, rounds = k+1 := Nat.exists_eq_succ_of_ne_zero (by omega)
          obtain ⟨r,hr⟩ := hbound rounds (by omega)
          refine ⟨r,?_⟩
          rw [findMostWork,hs']
          exact hr

theorem Dropped.noRival (h : NoParkedRival s) (hd : Dropped s b fork t s') : NoParkedRival s' := by
  have hagree := hd.unparks.agree.trans hd.agree
  exact (h.failIfConflicting b).mono hagree.tree hagree.tip hagree.nChainTx hagree.worse
    fun x hx => hd.unparks.tainted (hd.tainted x hx)

theorem Ready.rounds {cfg : ChainConfig} (h : Ready s) (hrounds : ReflTransGen (Again cfg) s s') : Ready s' := by
  induction hrounds with
  | refl => exact h
  | tail _ hagain ih =>
    obtain ⟨b,fork,t,_,_,hd⟩ := ih.again hagain
    exact hd.ready ih

theorem NoParkedRival.rounds {cfg : ChainConfig} (hrival : NoParkedRival s) (h : Ready s)
    (hrounds : ReflTransGen (Again cfg) s s') : NoParkedRival s' := by
  induction hrounds with
  | refl => exact hrival
  | tail hrounds hagain ih =>
    obtain ⟨b,fork,t,_,_,hd⟩ := (h.rounds hrounds).again hagain
    exact hd.noRival ih

end ChainState

open ChainState

end BitfiniteCore
