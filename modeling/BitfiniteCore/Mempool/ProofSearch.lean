import BitfiniteCore.Lib.ExceptPost
import BitfiniteCore.Mempool.Indexed

/-! # The search for a double-spend proof -/

namespace BitfiniteCore
open List Relation

section Search

variable {DspId Proof : Type}

/-- `unfinished` is no error of the source: the calls would be nested deeper than the model follows them. -/
inductive SearchError | recursionLimitReached | missingFromStorage | unfinished
deriving DecidableEq, Repr

/-- The ids stored in the entries, and `m_dspStorage`. -/
structure DspStorage (DspId Proof : Type) where
  dspId : TxId → Option DspId
  lookup : DspId → Option Proof

def DspStorage.getDoubleSpendProof (d : DspStorage DspId Proof) (txid : TxId) : Except SearchError (Option Proof) :=
  match d.dspId txid with
  | none => .ok none
  | some id => match d.lookup id with
    | none => .error .missingFromStorage
    | some proof => .ok (some proof)

def DspStorage.Has (d : DspStorage DspId Proof) (txid : TxId) (proof : Proof) : Prop :=
  ∃ id, d.dspId txid = some id ∧ d.lookup id = some proof

structure SearchState where
  path : List TxId
  seenTxs : List TxId

abbrev SearchResult (Proof : Type) := Except SearchError (Option (Proof × List TxId) × SearchState)

def recursionMax : Nat := 1000

def ancestorMax : Nat := 20000

def searchParents (search : TxId → SearchState → SearchResult Proof) : List TxId → SearchState → SearchResult Proof
  | [],s => .ok (none,{ s with path := s.path.dropLast })
  | parent::rest,s =>
    if parent ∈ s.seenTxs then searchParents search rest s
    else (search parent { s with seenTxs := parent::s.seenTxs }).bind fun r =>
      if r.1.isSome then .ok r else searchParents search rest r.2

namespace CTxMemPool

/-- `search` without a score. -/
def search (p : CTxMemPool) (d : DspStorage DspId Proof) : Nat → TxId → SearchState → SearchResult Proof
  | 0,_,_ => .error .unfinished
  | depth+1,txid,s =>
    let path := s.path++[txid]
    if recursionMax < path.length ∨ ancestorMax < s.seenTxs.length then .error .recursionLimitReached
    else (d.getDoubleSpendProof txid).bind fun
      | some proof => .ok (some (proof,path),{ s with path := [] })
      | none => searchParents (p.search d depth) (p.mapLinks .parents txid) { s with path := path }

def recursiveDSProofSearch (p : CTxMemPool) (d : DspStorage DspId Proof) (txid : TxId) :
    Except SearchError (Option (Proof × List TxId)) :=
  if txid ∈ p.txids then (p.search d (recursionMax+1) txid ⟨[],[]⟩).map Prod.fst else .ok none

def ExceedsLimits (p : CTxMemPool) (root : TxId) : Prop :=
  (∃ chain : List TxId, chain.IsChain p.SpendsFrom ∧ recursionMax < chain.length) ∨
    ∃ above : List TxId, above.Nodup ∧ (∀ a ∈ above, TransGen p.SpendsFrom root a) ∧ ancestorMax < above.length

section Calls

variable (p : CTxMemPool) (d : DspStorage DspId Proof) (root : TxId)

def Left (seen : List TxId) (a : TxId) : Prop := d.dspId a = none ∧ ∀ b, p.SpendsFrom a b → b ∈ seen

structure Tracked (seen : List TxId) : Prop where
  nodup : seen.Nodup
  above : ∀ a ∈ seen, TransGen p.SpendsFrom root a

/-- What was seen since then was left again. -/
structure Progress (seen seen' : List TxId) : Prop extends Tracked p root seen' where
  grows : seen ⊆ seen'
  left : ∀ a ∈ seen', a ∉ seen → p.Left d seen' a

def Ends (path : List TxId) (txid : TxId) (seen : List TxId) (Done : List TxId → Prop) : SearchResult Proof → Prop :=
  ExceptPost (fun e => e = .recursionLimitReached ∧ p.ExceedsLimits root) fun
    | (some (proof,found),_) => found.IsChain p.SpendsFrom ∧ path++[txid] <+: found ∧ ∃ a ∈ found.getLast?, d.Has a proof
    | (none,s') => s'.path = path ∧ p.Progress d root seen s'.seenTxs ∧ Done s'.seenTxs

variable {p d root} {seen seen' seen'' path : List TxId} {s : SearchState} {txid : TxId}

theorem Tracked.progress (h : p.Tracked root seen) : p.Progress d root seen seen :=
  ⟨h,Subset.refl _,fun _ ha hnot => absurd ha hnot⟩

theorem Progress.trans (h : p.Progress d root seen seen') (h' : p.Progress d root seen' seen'') :
    p.Progress d root seen seen'' := by
  refine ⟨h'.toTracked,Subset.trans h.grows h'.grows,fun a ha hnot => ?_⟩
  by_cases h₁ : a ∈ seen'
  · obtain ⟨hnone,hparents⟩ := h.left a h₁ hnot
    exact ⟨hnone,fun b hb => h'.grows (hparents b hb)⟩
  · exact h'.left a ha h₁

theorem Ends.after {Done Done' : List TxId → Prop} {r : SearchResult Proof} (h : p.Ends d root path txid seen' Done r)
    (hprogress : p.Progress d root seen seen') (hdone : ∀ l, seen' ⊆ l → Done l → Done' l) :
    p.Ends d root path txid seen Done' r := by
  apply ExceptPost.mono h
  rintro ⟨_ | ⟨proof,found⟩,s'⟩ hr
  · exact ⟨hr.1,hprogress.trans hr.2.1,hdone _ hr.2.1.grows hr.2.2⟩
  · exact hr

theorem searchParents_ends {search : TxId → SearchState → SearchResult Proof} (hroot : ReflTransGen p.SpendsFrom root txid)
    (hsearch : ∀ parent s, p.SpendsFrom txid parent → s.path = path++[txid] → p.Tracked root s.seenTxs →
      p.Ends d root s.path parent s.seenTxs (fun l => p.Left d l parent) (search parent s))
    (parents : List TxId) (hparents : ∀ a ∈ parents, p.SpendsFrom txid a) (hpath : s.path = path++[txid])
    (h : p.Tracked root s.seenTxs) :
    p.Ends d root path txid s.seenTxs (fun l => parents ⊆ l) (searchParents search parents s) := by
  induction parents generalizing s with
  | nil =>
    refine ⟨?_,h.progress,nil_subset _⟩
    rw [hpath,dropLast_concat]
  | cons parent rest ih =>
    obtain ⟨hparent,hrest⟩ := forall_mem_cons.mp hparents
    unfold searchParents
    split
    · rename_i hseen
      exact (ih hrest hpath h).after h.progress fun l hsub hl => cons_subset.mpr ⟨hsub hseen,hl⟩
    · rename_i hseen
      have hnew : p.Tracked root (parent::s.seenTxs) :=
        ⟨nodup_cons.mpr ⟨hseen,h.nodup⟩,forall_mem_cons.mpr ⟨.tail' hroot hparent,h.above⟩⟩
      refine ExceptPost.bind (hsearch parent { s with seenTxs := parent::s.seenTxs } hparent hpath hnew) ?_
      rintro ⟨_ | ⟨proof,found⟩,s₁⟩ hr
      · obtain ⟨hpath₁,hprogress,hleft⟩ := hr
        obtain ⟨hin,hgrows⟩ := cons_subset.mp hprogress.grows
        have hall : p.Progress d root s.seenTxs s₁.seenTxs := by
          refine ⟨hprogress.toTracked,hgrows,fun a ha hnot => ?_⟩
          by_cases hap : a = parent
          · exact hap ▸ hleft
          · exact hprogress.left a ha (not_mem_cons_of_ne_of_not_mem hap hnot)
        exact (ih hrest (hpath₁.trans hpath) hprogress.toTracked).after hall fun l hsub hl =>
          cons_subset.mpr ⟨hsub hin,hl⟩
      · obtain ⟨hchain,hfront,hlast⟩ := hr
        rw [hpath] at hfront
        exact ⟨hchain,(prefix_append _ _).trans hfront,hlast⟩

variable {unit : Nat} (hindexed : Indexed unit p)
  (hstored : ∀ a ∈ p.txids, ∀ id, d.dspId a = some id → ∃ proof, d.lookup id = some proof)

include hindexed hstored

theorem search_ends {depth : Nat} (hdepth : s.path.length+depth = recursionMax+1)
    (hpath : s.path.length ≤ recursionMax) (hchain : (s.path++[txid]).IsChain p.SpendsFrom) (htx : txid ∈ p.txids)
    (hroot : ReflTransGen p.SpendsFrom root txid) (h : p.Tracked root s.seenTxs) :
    p.Ends d root s.path txid s.seenTxs (fun l => p.Left d l txid) (p.search d depth txid s) := by
  induction depth generalizing txid s with
  | zero => omega
  | succ depth ih =>
    unfold search
    apply ExceptPost.ite
    · rintro (hlong | hmany)
      · exact ⟨rfl,.inl ⟨_,hchain,hlong⟩⟩
      · exact ⟨rfl,.inr ⟨_,h.nodup,h.above,hmany⟩⟩
    · intro hlimits
      rw [not_or,length_append,length_singleton] at hlimits
      unfold DspStorage.getDoubleSpendProof
      cases hid : d.dspId txid with
      | none =>
        have hloop := @searchParents_ends _ _ p d root s.path ⟨s.path++[txid],s.seenTxs⟩ txid (p.search d depth) hroot ?_ _
          (fun a => (hindexed.parents txid a).mp) rfl h
        · change p.Ends d root s.path txid _ (fun l => p.Left d l txid) (searchParents _ _ _)
          exact hloop.after h.progress fun l _ hl => ⟨hid,fun b hb => hl ((hindexed.parents txid b).mpr hb)⟩
        · intro parent t hparent ht htracked
          have hlen : t.path.length = s.path.length+1 := by rw [ht,length_append,length_singleton]
          refine ih (by omega) (by omega) ?_ hparent.right (hroot.tail hparent) htracked
          rw [ht]
          exact hchain.append (isChain_singleton _) (by simpa using hparent)
      | some id =>
        obtain ⟨proof,hproof⟩ := hstored txid htx id hid
        simp only [hproof]
        exact ⟨hchain,prefix_rfl,txid,by simp,id,hid,hproof⟩

/-- The search finds a proof whenever there is one, and gives up only at its limits. -/
theorem recursiveDSProofSearch_exact (htx : txid ∈ p.txids) :
    (∀ result, p.recursiveDSProofSearch d txid = .ok result →
      (result.isSome = true ↔ ∃ a, ReflTransGen p.SpendsFrom txid a ∧ (d.dspId a).isSome = true)) ∧
    (∀ proof path, p.recursiveDSProofSearch d txid = .ok (some (proof,path)) →
      path.head? = some txid ∧ path.IsChain p.SpendsFrom ∧ ∃ a ∈ path.getLast?, d.Has a proof) ∧
    ∀ e, p.recursiveDSProofSearch d txid = .error e → e = .recursionLimitReached ∧ p.ExceedsLimits txid := by
  have h := @search_ends _ _ p d txid ⟨[],[]⟩ txid _ hindexed hstored (recursionMax+1) (Nat.zero_add _) (Nat.zero_le _)
    (isChain_singleton _) htx .refl ⟨nodup_nil,nofun⟩
  rw [recursiveDSProofSearch,if_pos htx]
  cases hr : p.search d (recursionMax+1) txid ⟨[],[]⟩ with
  | error e =>
    rw [hr] at h
    refine ⟨nofun,nofun,fun e' he => ?_⟩
    cases he
    exact h
  | ok r =>
    rw [hr] at h
    obtain ⟨_ | ⟨proof,path⟩,s'⟩ := r
    · obtain ⟨-,hprogress,hleft⟩ := h
      refine ⟨fun result he => ?_,nofun,nofun⟩
      cases he
      simp only [Option.isSome_none,Bool.false_eq_true,false_iff]
      rintro ⟨a,ha,hsome⟩
      -- what was left is closed under parents
      have hall : p.Left d s'.seenTxs a := by
        clear hsome
        induction ha with
        | refl => exact hleft
        | tail _ hstep ih => exact hprogress.left _ (ih.2 _ hstep) not_mem_nil
      rw [hall.1] at hsome
      cases hsome
    · obtain ⟨hchain,⟨rest,rfl⟩,a,ha,id,hid,hproof⟩ := h
      refine ⟨fun result he => ?_,fun proof path he => ?_,nofun⟩
      · cases he
        refine ⟨fun _ => ⟨a,?_,by rw [hid]; rfl⟩,fun _ => rfl⟩
        exact relationReflTransGen_of_exists_isChain_cons rest hchain (getLast_of_mem_getLast? ha)
      · cases he
        exact ⟨rfl,hchain,a,ha,id,hid,hproof⟩
end Calls

def twoEntries : CTxMemPool :=
  let entry := fun (hash parent : TxId) => (⟨⟨[⟨⟨parent,0⟩,[],0⟩],[],1,0,hash⟩,0,0,100,100,0⟩ : CTxMemPoolEntry)
  (empty.addUnchecked 1 (entry 1 7)).addUnchecked 1 (entry 2 1)

theorem twoEntries_indexed : Indexed 1 twoEntries := by
  refine (empty_indexed.addUnchecked ⟨by decide,fun _ _ => rfl,fun _ _ => rfl⟩).addUnchecked ⟨by decide,by decide,?_⟩
  intro x hx
  change (if x ∈ [⟨7,0⟩] then _ else _) = none
  rw [if_neg]
  rintro h
  cases mem_singleton.mp h
  cases hx

def proofOfOne : DspStorage Unit Unit := ⟨fun a => if a = 1 then some () else none,some⟩

theorem recursiveDSProofSearch_exact_twoEntries : ([2,1] : List TxId).head? = some 2 ∧
    IsChain twoEntries.SpendsFrom [2,1] ∧ ∃ a ∈ ([2,1] : List TxId).getLast?, proofOfOne.Has a () :=
  (recursiveDSProofSearch_exact twoEntries_indexed (fun _ _ id _ => ⟨id,rfl⟩) (by decide)).2.1 () [2,1] rfl
end CTxMemPool
end Search
end BitfiniteCore
