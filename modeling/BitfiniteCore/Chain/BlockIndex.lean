import BitfiniteCore.Lib.ParentTree
import BitfiniteCore.Primitives.Transaction
import Mathlib.Logic.Function.Basic

/-!
# The block index

A block is named by its hash, which stands for the pointer to its entry.  Skip pointers are left out.
-/

namespace BitfiniteCore
open Function ParentTree

/-- `arith_uint256::SetCompact` with its two flags, negative and overflow. -/
def setCompact (nCompact : Nat) : Nat × Bool × Bool :=
  let nSize := nCompact/2^24
  let nWord := nCompact%2^23
  let nWord := if nSize ≤ 3 then nWord/2^(8*(3-nSize)) else nWord
  (if nSize ≤ 3 then nWord else nWord*2^(8*(nSize-3))%2^256, nWord != 0 && nCompact/2^23%2 == 1,
    nWord != 0 && (decide (34 < nSize) || (decide (0xff < nWord) && decide (33 < nSize)) ||
      (decide (0xffff < nWord) && decide (32 < nSize))))

def getBlockProof (nBits : Nat) : Nat :=
  let (bnTarget,fNegative,fOverflow) := setCompact nBits
  if fNegative || fOverflow || bnTarget == 0 then 0 else (2^256-1-bnTarget)/(bnTarget+1)+1

def checkProofOfWork (hash : BlockHash) (nBits powLimit : Nat) : Bool :=
  let (bnTarget,fNegative,fOverflow) := setCompact nBits
  if fNegative || bnTarget == 0 || fOverflow || decide (powLimit < bnTarget) then false
  else decide (hash.toNat ≤ bnTarget)

theorem getBlockProof_pos {hash : BlockHash} {nBits powLimit : Nat}
    (h : checkProofOfWork hash nBits powLimit = true) : 0 < getBlockProof nBits := by
  unfold checkProofOfWork at h
  unfold getBlockProof
  dsimp only at h ⊢
  split at h
  · cases h
  · rename_i hok
    rw [if_neg]
    · exact Nat.succ_pos _
    · intro hbad
      apply hok
      revert hbad
      simp only [Bool.or_eq_true]
      tauto

/-- The keys of `mapBlockIndex` and the fields that `AddToBlockIndex` fixes.  Work is not bounded by 256 bits. -/
structure BlockTree extends ParentTree BlockHash where
  known : List BlockHash
  known_nodup : known.Nodup
  genesis : BlockHash
  nChainWork : BlockHash → Nat
  nTimeReceived : BlockHash → Int
  genesis_known : genesis ∈ known
  parent_genesis : parent genesis = none
  parent_known : ∀ {b p}, parent b = some p → b ∈ known ∧ p ∈ known
  root_eq : ∀ {b}, b ∈ known → parent b = none → b = genesis
  work_parent : ∀ {b p}, parent b = some p → nChainWork p < nChainWork b

namespace BlockTree

variable {T : BlockTree} {a b p : BlockHash}

theorem known_of_anc (h : T.Anc a b) (hb : b ∈ T.known) : a ∈ T.known := by
  induction h with
  | refl => exact hb
  | tail _ hp ih => exact ih (T.parent_known hp).2

theorem genesis_anc (hb : b ∈ T.known) : T.Anc T.genesis b := by
  induction b using T.induction_up with
  | root b h => exact T.root_eq hb h ▸ .refl b
  | child b p hp ih => exact (ih (T.parent_known hp).2).trans (.of_parent hp)

theorem work_le_of_anc (h : T.Anc a b) : T.nChainWork a ≤ T.nChainWork b := by
  induction h with
  | refl => exact le_rfl
  | tail _ hp ih => exact ih.trans (T.work_parent hp).le

theorem work_lt_of_anc (h : T.Anc a b) (hne : a ≠ b) : T.nChainWork a < T.nChainWork b := by
  obtain ⟨p,hp,hap⟩ := h.parent_of_ne hne
  exact (work_le_of_anc hap).trans_lt (T.work_parent hp)

theorem exists_lastCommonAncestor (ha : a ∈ T.known) (hb : b ∈ T.known) : ∃ c, T.lastCommonAncestor a b = some c := by
  by_contra hnone
  have h : T.lastCommonAncestor a b = none := Option.eq_none_iff_forall_ne_some.mpr fun c hc => hnone ⟨c,hc⟩
  have hg := List.find?_eq_none.mp h T.genesis (mem_lineage.mpr (genesis_anc ha))
  exact hg (by simpa using genesis_anc hb)

def ofGenesis (genesis : BlockHash) (nBits : Nat) (nTimeReceived : Int) : BlockTree where
  parent := fun _ => none
  height := fun _ => 0
  height_parent := nofun
  height_root := fun _ => rfl
  known := [genesis]
  known_nodup := by simp
  genesis := genesis
  nChainWork := fun _ => getBlockProof nBits
  nTimeReceived := fun _ => nTimeReceived
  genesis_known := List.mem_singleton_self genesis
  parent_genesis := rfl
  parent_known := nofun
  root_eq := fun hb _ => List.mem_singleton.mp hb
  work_parent := nofun

def add (T : BlockTree) (hash prev : BlockHash) (proof : Nat) (now : Int) (hnew : hash ∉ T.known)
    (hprev : prev ∈ T.known) (hproof : 0 < proof) : BlockTree :=
  have hne : ∀ {x}, x ∈ T.known → x ≠ hash := fun hx he => hnew (he ▸ hx)
  { parent := update T.parent hash (some prev)
    height := update T.height hash (T.height prev+1)
    known := hash::T.known
    known_nodup := List.nodup_cons.mpr ⟨hnew,T.known_nodup⟩
    genesis := T.genesis
    nChainWork := update T.nChainWork hash (T.nChainWork prev+proof)
    nTimeReceived := update T.nTimeReceived hash now
    height_parent := by
      intro a p ha
      by_cases hah : a = hash
      · subst hah
        rw [update_self] at ha
        cases ha
        rw [update_self,update_of_ne (hne hprev)]
      · rw [update_of_ne hah] at ha ⊢
        rw [update_of_ne (hne (T.parent_known ha).2),T.height_parent ha]
    height_root := by
      intro a ha
      by_cases hah : a = hash
      · subst hah
        rw [update_self] at ha
        cases ha
      · rw [update_of_ne hah] at ha ⊢
        exact T.height_root ha
    genesis_known := List.mem_cons_of_mem _ T.genesis_known
    parent_genesis := by rw [update_of_ne (hne T.genesis_known),T.parent_genesis]
    parent_known := by
      intro b p hb
      by_cases hbh : b = hash
      · subst hbh
        rw [update_self] at hb
        exact ⟨List.mem_cons_self,List.mem_cons_of_mem _ (Option.some.inj hb ▸ hprev)⟩
      · rw [update_of_ne hbh] at hb
        exact (T.parent_known hb).imp (List.mem_cons_of_mem _) (List.mem_cons_of_mem _)
    root_eq := by
      intro b hb hroot
      by_cases hbh : b = hash
      · subst hbh
        rw [update_self] at hroot
        cases hroot
      · rw [update_of_ne hbh] at hroot
        exact T.root_eq ((List.mem_cons.mp hb).resolve_left hbh) hroot
    work_parent := by
      intro b p hb
      by_cases hbh : b = hash
      · subst hbh
        rw [update_self] at hb
        cases hb
        rw [update_self,update_of_ne (hne hprev)]
        omega
      · rw [update_of_ne hbh] at hb ⊢
        rw [update_of_ne (hne (T.parent_known hb).2)]
        exact T.work_parent hb }

/-- `T'` has all entries of `T`, unchanged. -/
structure Extends (T T' : BlockTree) : Prop where
  known : ∀ b ∈ T.known, b ∈ T'.known
  parent : ∀ b ∈ T.known, T'.parent b = T.parent b
  height : ∀ b ∈ T.known, T'.height b = T.height b
  work : ∀ b ∈ T.known, T'.nChainWork b = T.nChainWork b
  genesis : T'.genesis = T.genesis

theorem add_extends {hash prev : BlockHash} {proof : Nat} {now : Int} {hnew : hash ∉ T.known}
    {hprev : prev ∈ T.known} {hproof : 0 < proof} : Extends T (T.add hash prev proof now hnew hprev hproof) := by
  have hne : ∀ b ∈ T.known, b ≠ hash := fun b hb he => hnew (he ▸ hb)
  exact ⟨fun b hb => List.mem_cons_of_mem _ hb,fun b hb => update_of_ne (hne b hb) _ _,
    fun b hb => update_of_ne (hne b hb) _ _,fun b hb => update_of_ne (hne b hb) _ _,rfl⟩

theorem Extends.anc_iff {T' : BlockTree} (h : Extends T T') (hb : b ∈ T.known) : T'.Anc a b ↔ T.Anc a b := by
  induction b using T.induction_up with
  | root b hp =>
    rw [ParentTree.anc_iff,ParentTree.anc_iff (b := b),h.parent b hb,hp]
    simp
  | child b p hp ih =>
    rw [ParentTree.anc_iff,ParentTree.anc_iff (b := b),h.parent b hb,hp]
    simp [ih (T.parent_known hp).2]

theorem Extends.lineage {T' : BlockTree} (h : Extends T T') (hb : b ∈ T.known) : T'.lineage b = T.lineage b := by
  induction b using T.induction_up with
  | root b hp => rw [T.lineage_root hp,T'.lineage_root (by rw [h.parent b hb,hp])]
  | child b p hp ih =>
    rw [T.lineage_parent hp,T'.lineage_parent (by rw [h.parent b hb,hp]),ih (T.parent_known hp).2]
end BlockTree
end BitfiniteCore
