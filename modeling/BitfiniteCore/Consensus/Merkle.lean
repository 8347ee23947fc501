import BitfiniteCore.Validation.ConnectBlock

/-! # The merkle root of a block -/

namespace BitfiniteCore
open List

section Root

variable {α : Type} [DecidableEq α] (hash : α → α → α)

def levelPairs : List α → List (α × α)
  | [] => []
  | [a] => [(a,a)]
  | a::b::hashes => (a,b)::levelPairs hashes

def levelMutated : List α → Bool
  | a::b::hashes => a == b || levelMutated hashes
  | _ => false

def nextLevel (hashes : List α) : List α := (levelPairs hashes).map fun p => hash p.1 p.2

def merkleLoop : Nat → List α → Bool → List α × Bool
  | 0, hashes, mutation => (hashes,mutation)
  | fuel+1, hashes, mutation =>
    if hashes.length > 1 then merkleLoop fuel (nextLevel hash hashes) (mutation || levelMutated hashes)
    else (hashes,mutation)

def computeMerkleRoot (zero : α) (hashes : List α) : α × Bool :=
  let r := merkleLoop hash hashes.length hashes false
  (r.1.headD zero,r.2)

def merklePairs : Nat → List α → List (α × α)
  | 0, _ => []
  | fuel+1, hashes => if hashes.length > 1 then levelPairs hashes++merklePairs fuel (nextLevel hash hashes) else []

/-- The hash has no collision among the pairs of two computations, and none of its results is a leaf. -/
structure CollisionFreePairs (P : Set (α × α)) (L : Set α) : Prop where
  inj : Set.InjOn (fun p : α × α => hash p.1 p.2) P
  leaf : ∀ p ∈ P, hash p.1 p.2 ∉ L

def pairsOf (l l' : List α) : Set (α × α) := {p | p ∈ merklePairs hash l.length l ∨ p ∈ merklePairs hash l'.length l'}

def leavesOf (l l' : List α) : Set α := {a | a ∈ l ∨ a ∈ l'}
end Root

section Heights

variable {α : Type} {hash : α → α → α} {P : Set (α × α)} {L : Set α}

inductive AtHeight (hash : α → α → α) (P : Set (α × α)) (L : Set α) : Nat → α → Prop
  | leaf {a : α} (ha : a ∈ L) : AtHeight hash P L 0 a
  | node {k : Nat} {p : α × α} (hp : p ∈ P) (h : AtHeight hash P L k p.1) : AtHeight hash P L (k+1) (hash p.1 p.2)

theorem AtHeight.unique (hfree : CollisionFreePairs hash P L) {k m : Nat} {a : α} (h : AtHeight hash P L k a)
    (h' : AtHeight hash P L m a) : k = m := by
  induction h generalizing m with
  | leaf ha =>
    cases h' with
    | leaf _ => rfl
    | node hp _ => exact absurd ha (hfree.leaf _ hp)
  | @node k p hp _ ih =>
    generalize hb : hash p.1 p.2 = b at h'
    cases h' with
    | leaf hb' => exact absurd (hb ▸ hb') (hfree.leaf _ hp)
    | node hq hq' =>
      obtain rfl := hfree.inj hp hq hb
      rw [ih hq']
end Heights

section Commitment

variable {α : Type} [DecidableEq α] {hash : α → α → α} {P : Set (α × α)} {L : Set α} {A B : List α}

omit [DecidableEq α] in
theorem levelPairs_length (A : List α) : (levelPairs A).length = (A.length+1)/2 := by
  induction A using levelPairs.induct with
  | case1 => simp [levelPairs]
  | case2 a => simp [levelPairs]
  | case3 a b A ih =>
    rw [levelPairs,length_cons,ih,length_cons,length_cons]
    omega

omit [DecidableEq α] in
theorem levelPairs_fst {p : α × α} (h : p ∈ levelPairs A) : p.1 ∈ A := by
  induction A using levelPairs.induct with
  | case1 => cases h
  | case2 a =>
    rw [mem_singleton.mp h]
    exact mem_cons_self
  | case3 a b A ih =>
    obtain rfl | h := mem_cons.mp h
    · exact mem_cons_self
    · exact mem_cons_of_mem _ (mem_cons_of_mem _ (ih h))

theorem levelPairs_inj (hA : levelMutated A = false) (hB : levelMutated B = false) (h : levelPairs A = levelPairs B) :
    A = B := by
  induction A using levelPairs.induct generalizing B with
  | case1 =>
    cases B with
    | nil => rfl
    | cons b B => cases B <;> cases h
  | case2 a =>
    match B with
    | [] => cases h
    | [b] => rw [(Prod.mk.inj (List.cons.inj h).1).1]
    | b::c::B =>
      -- the longer list ends in the same hash twice
      obtain ⟨hb,hc⟩ := Prod.mk.inj (List.cons.inj h).1
      rw [levelMutated,← hb,← hc,beq_self_eq_true,Bool.true_or] at hB
      cases hB
  | case3 a b A ih =>
    match B with
    | [] => cases h
    | [c] =>
      obtain ⟨ha,hb⟩ := Prod.mk.inj (List.cons.inj h).1
      rw [levelMutated,ha,hb,beq_self_eq_true,Bool.true_or] at hA
      cases hA
    | c::d::B =>
      obtain ⟨⟨rfl,rfl⟩,hrest⟩ := (List.cons.inj h).imp Prod.mk.inj id
      rw [levelMutated,Bool.or_eq_false_iff] at hA hB
      rw [ih hA.2 hB.2 hrest]

omit [DecidableEq α] in
theorem nextLevel_length (A : List α) : (nextLevel hash A).length = (A.length+1)/2 := by
  rw [nextLevel,length_map,levelPairs_length]

omit [DecidableEq α] in
theorem nextLevel_height {k : Nat} (hpairs : ∀ p ∈ levelPairs A, p ∈ P) (h : ∀ a ∈ A, AtHeight hash P L k a) :
    ∀ a ∈ nextLevel hash A, AtHeight hash P L (k+1) a := by
  intro a ha
  obtain ⟨p,hp,rfl⟩ := mem_map.mp ha
  exact .node (hpairs p hp) (h _ (levelPairs_fst hp))

theorem merkleLoop_mutation (fuel : Nat) {A : List α} {mutation : Bool}
    (h : (merkleLoop hash fuel A mutation).2 = false) : mutation = false := by
  induction fuel generalizing A mutation with
  | zero => exact h
  | succ fuel ih =>
    rw [merkleLoop] at h
    split at h
    · exact (Bool.or_eq_false_iff.mp (ih h)).1
    · exact h

omit [DecidableEq α] in
theorem mem_merklePairs_of_level {fuel : Nat} (hlen : 1 < A.length) {p : α × α} (hp : p ∈ levelPairs A) :
    p ∈ merklePairs hash (fuel+1) A := by
  rw [merklePairs,if_pos hlen]
  exact mem_append_left _ hp

omit [DecidableEq α] in
theorem mem_merklePairs_of_next {fuel : Nat} (hlen : 1 < A.length) {p : α × α}
    (hp : p ∈ merklePairs hash fuel (nextLevel hash A)) : p ∈ merklePairs hash (fuel+1) A := by
  rw [merklePairs,if_pos hlen]
  exact mem_append_right _ hp

theorem merkleLoop_height (fuel : Nat) {k : Nat} (hfuel : A.length ≤ fuel) (hne : A ≠ [])
    (hpairs : ∀ p ∈ merklePairs hash fuel A, p ∈ P) (h : ∀ a ∈ A, AtHeight hash P L k a) (mutation : Bool) :
    ∃ m a, (1 < A.length → k < m) ∧ (A.length ≤ 1 → m = k) ∧ (merkleLoop hash fuel A mutation).1 = [a] ∧ AtHeight hash P L m a := by
  induction fuel generalizing A k mutation with
  | zero => exact absurd (length_eq_zero_iff.mp (Nat.le_zero.mp hfuel)) hne
  | succ fuel ih =>
    have hpos := length_pos_of_ne_nil hne
    rw [merkleLoop]
    split
    · rename_i hlen
      have hlen' := @nextLevel_length α hash A
      obtain ⟨m,a,hm,hm',hroot,ha⟩ := @ih (nextLevel hash A) (k+1) (by omega)
        (ne_nil_of_length_pos (by omega)) (fun p hp => hpairs p (mem_merklePairs_of_next hlen hp))
        (nextLevel_height (fun p hp => hpairs p (mem_merklePairs_of_level hlen hp)) h) (mutation || levelMutated A)
      have hup : k < m := by
        by_cases hone : 1 < (nextLevel hash A).length
        · exact Nat.lt_of_succ_lt (hm hone)
        · rw [hm' (Nat.not_lt.mp hone)]
          exact Nat.lt_succ_self k
      exact ⟨m,a,fun _ => hup,fun h => absurd hlen (Nat.not_lt.mpr h),hroot,ha⟩
    · rename_i hlen
      obtain ⟨a,rfl⟩ := length_eq_one_iff.mp (show A.length = 1 by omega)
      exact ⟨k,a,fun h => absurd h hlen,fun _ => rfl,rfl,h a mem_cons_self⟩

omit [DecidableEq α] in
theorem map_injOn {β : Type} {f : β → α} {S : Set β} (hf : Set.InjOn f S) {l l' : List β} (hl : ∀ b ∈ l, b ∈ S)
    (hl' : ∀ b ∈ l', b ∈ S) (h : l.map f = l'.map f) : l = l' := by
  induction l generalizing l' with
  | nil => exact (map_eq_nil_iff.mp h.symm).symm
  | cons b l ih =>
    cases l' with
    | nil => cases h
    | cons b' l' =>
      rw [forall_mem_cons] at hl hl'
      obtain ⟨hb,hrest⟩ := List.cons.inj h
      rw [hf hl.1 hl'.1 hb,ih hl.2 hl'.2 hrest]

theorem merkleLoop_inj (hfree : CollisionFreePairs hash P L) (fuel fuel' : Nat) {k : Nat} (hA : A.length ≤ fuel)
    (hB : B.length ≤ fuel') (hneA : A ≠ []) (hneB : B ≠ []) (hpA : ∀ p ∈ merklePairs hash fuel A, p ∈ P)
    (hpB : ∀ p ∈ merklePairs hash fuel' B, p ∈ P) (hhA : ∀ a ∈ A, AtHeight hash P L k a)
    (hhB : ∀ b ∈ B, AtHeight hash P L k b) {mutA mutB : Bool}
    (hroot : (merkleLoop hash fuel A mutA).1 = (merkleLoop hash fuel' B mutB).1)
    (hmutA : (merkleLoop hash fuel A mutA).2 = false) (hmutB : (merkleLoop hash fuel' B mutB).2 = false) : A = B := by
  induction fuel generalizing A B fuel' k mutA mutB with
  | zero => exact absurd (length_eq_zero_iff.mp (Nat.le_zero.mp hA)) hneA
  | succ fuel ih =>
    cases fuel' with
    | zero => exact absurd (length_eq_zero_iff.mp (Nat.le_zero.mp hB)) hneB
    | succ fuel' =>
      obtain ⟨m,a,hmA,hmA',hrA,haA⟩ := merkleLoop_height (fuel+1) hA hneA hpA hhA mutA
      obtain ⟨m',b,hmB,hmB',hrB,haB⟩ := merkleLoop_height (fuel'+1) hB hneB hpB hhB mutB
      obtain rfl : a = b := singleton_inj.mp (hrA.symm.trans (hroot.trans hrB))
      obtain rfl := haA.unique hfree haB
      by_cases hlenA : 1 < A.length
      · have hlenB : 1 < B.length := by
          by_contra hone
          exact absurd (hmA hlenA) (by rw [hmB' (Nat.not_lt.mp hone)]; exact Nat.lt_irrefl k)
        rw [merkleLoop,if_pos hlenA] at hroot hmutA
        rw [merkleLoop,if_pos hlenB] at hroot hmutB
        have hlA := @nextLevel_length α hash A
        have hlB := @nextLevel_length α hash B
        have hupA := nextLevel_height (fun p hp => hpA p (mem_merklePairs_of_level hlenA hp)) hhA
        have hupB := nextLevel_height (fun p hp => hpB p (mem_merklePairs_of_level hlenB hp)) hhB
        have hnext : nextLevel hash A = nextLevel hash B :=
          ih fuel' (by omega) (by omega) (ne_nil_of_length_pos (by omega))
            (ne_nil_of_length_pos (by omega)) (fun p hp => hpA p (mem_merklePairs_of_next hlenA hp))
            (fun p hp => hpB p (mem_merklePairs_of_next hlenB hp)) hupA hupB hroot hmutA hmutB
        have hpairs : levelPairs A = levelPairs B :=
          map_injOn hfree.inj (fun p hp => hpA p (mem_merklePairs_of_level hlenA hp))
            (fun p hp => hpB p (mem_merklePairs_of_level hlenB hp)) hnext
        exact levelPairs_inj (Bool.or_eq_false_iff.mp (merkleLoop_mutation fuel hmutA)).2
          (Bool.or_eq_false_iff.mp (merkleLoop_mutation fuel' hmutB)).2 hpairs
      · have hlenB : ¬1 < B.length := by
          intro hmore
          exact absurd (hmB hmore) (by rw [hmA' (Nat.not_lt.mp hlenA)]; exact Nat.lt_irrefl k)
        rw [merkleLoop,merkleLoop,if_neg hlenA,if_neg hlenB] at hroot
        exact hroot

theorem computeMerkleRoot_inj {zero : α} (hneA : A ≠ []) (hneB : B ≠ [])
    (hfree : CollisionFreePairs hash (pairsOf hash A B) (leavesOf A B))
    (hroot : (computeMerkleRoot hash zero A).1 = (computeMerkleRoot hash zero B).1)
    (hmutA : (computeMerkleRoot hash zero A).2 = false) (hmutB : (computeMerkleRoot hash zero B).2 = false) : A = B := by
  have hhA : ∀ a ∈ A, AtHeight hash (pairsOf hash A B) (leavesOf A B) 0 a := fun a ha => .leaf (.inl ha)
  have hhB : ∀ b ∈ B, AtHeight hash (pairsOf hash A B) (leavesOf A B) 0 b := fun b hb => .leaf (.inr hb)
  obtain ⟨-,a,-,-,hrA,-⟩ := merkleLoop_height A.length (Nat.le_refl _) hneA (fun p hp => .inl hp) hhA false
  obtain ⟨-,b,-,-,hrB,-⟩ := merkleLoop_height B.length (Nat.le_refl _) hneB (fun p hp => .inr hp) hhB false
  apply merkleLoop_inj hfree A.length B.length (Nat.le_refl _) (Nat.le_refl _) hneA hneB (fun p hp => .inl hp)
    (fun p hp => .inr hp) hhA hhB _ hmutA hmutB
  unfold computeMerkleRoot at hroot
  dsimp only at hroot
  rw [hrA,hrB] at hroot ⊢
  exact congrArg (fun x => [x]) hroot
end Commitment

section Block

def blockMerkleRoot (sha256D64 : Uint256 → Uint256 → Uint256) (vtx : List CTransaction) : Uint256 × Bool :=
  computeMerkleRoot sha256D64 0 (vtx.map CTransaction.getId)

variable {ctx : BlockContext} {block : CBlock}

theorem checkBlock_root (h : checkBlock ctx block = .ok ()) : ctx.checkBlockHeader block.toCBlockHeader = true ∧
    block.hashMerkleRoot = (ctx.blockMerkleRoot block.vtx).1 ∧ (ctx.blockMerkleRoot block.vtx).2 = false ∧
      block.vtx ≠ [] := by
  unfold checkBlock at h
  split at h
  · cases h
  rename_i hheader
  dsimp only at h
  split at h
  · cases h
  rename_i hroot
  split at h
  · cases h
  rename_i hmut
  refine ⟨by simpa using hheader,by simpa using hroot,Bool.eq_false_iff.mpr hmut,?_⟩
  intro hnil
  rw [hnil] at h
  cases h

theorem checkBlock_mutated (hheader : ctx.checkBlockHeader block.toCBlockHeader = true)
    (hroot : block.hashMerkleRoot = (ctx.blockMerkleRoot block.vtx).1) (hmut : (ctx.blockMerkleRoot block.vtx).2 = true) :
    checkBlock ctx block = .error (.invalid ⟨100,rejectInvalid,"bad-txns-duplicate",true⟩) := by
  unfold checkBlock
  rw [hheader]
  dsimp only
  rw [← hroot,hmut]
  simp

/-- A merkle root commits to one unmarked list of leaves, and `CheckBlock` accepts one list for a header. -/
theorem merkleRoot_commits :
    (∀ (α : Type) [DecidableEq α] (hash : α → α → α) (zero : α) (A B : List α), A ≠ [] → B ≠ [] →
      CollisionFreePairs hash (pairsOf hash A B) (leavesOf A B) →
      (computeMerkleRoot hash zero A).1 = (computeMerkleRoot hash zero B).1 →
      (computeMerkleRoot hash zero A).2 = false → (computeMerkleRoot hash zero B).2 = false → A = B) ∧
    ∀ (sha256D64 : Uint256 → Uint256 → Uint256) (ctx : BlockContext) (block block' : CBlock),
      ctx.blockMerkleRoot = blockMerkleRoot sha256D64 → block.toCBlockHeader = block'.toCBlockHeader →
      CollisionFreePairs sha256D64
        (pairsOf sha256D64 (block.vtx.map CTransaction.getId) (block'.vtx.map CTransaction.getId))
        (leavesOf (block.vtx.map CTransaction.getId) (block'.vtx.map CTransaction.getId)) →
      checkBlock ctx block = .ok () →
      (checkBlock ctx block' = .ok () → block.vtx.map CTransaction.getId = block'.vtx.map CTransaction.getId) ∧
      (block'.vtx ≠ [] → block'.hashMerkleRoot = (blockMerkleRoot sha256D64 block'.vtx).1 →
        block.vtx.map CTransaction.getId ≠ block'.vtx.map CTransaction.getId →
        checkBlock ctx block' = .error (.invalid ⟨100,rejectInvalid,"bad-txns-duplicate",true⟩)) := by
  refine ⟨fun α _ hash zero A B hA hB hfree => computeMerkleRoot_inj hA hB hfree,?_⟩
  intro sha256D64 ctx block block' hctx hheader hfree haccept
  obtain ⟨hpow,hroot,hmut,hne⟩ := checkBlock_root haccept
  rw [hctx] at hroot hmut
  have hsame : block.hashMerkleRoot = block'.hashMerkleRoot := congrArg CBlockHeader.hashMerkleRoot hheader
  have heq : block'.vtx ≠ [] → block'.hashMerkleRoot = (blockMerkleRoot sha256D64 block'.vtx).1 →
      (blockMerkleRoot sha256D64 block'.vtx).2 = false →
      block.vtx.map CTransaction.getId = block'.vtx.map CTransaction.getId := by
    intro hne' hroot' hmut'
    apply computeMerkleRoot_inj _ _ hfree (hroot.symm.trans (hsame.trans hroot')) hmut hmut'
    · exact fun h => hne (map_eq_nil_iff.mp h)
    · exact fun h => hne' (map_eq_nil_iff.mp h)
  constructor
  · intro haccept'
    obtain ⟨-,hroot',hmut',hne'⟩ := checkBlock_root haccept'
    rw [hctx] at hroot' hmut'
    exact heq hne' hroot' hmut'
  · intro hne' hroot' hdiff
    apply checkBlock_mutated (hheader ▸ hpow) (by rw [hctx]; exact hroot')
    rw [hctx]
    by_contra hclean
    exact hdiff (heq hne' hroot' (Bool.eq_false_iff.mpr hclean))
end Block

section Terms

/-- Hashes as terms: two of them are equal only when they were made in the same way. -/
inductive MerkleTerm where
  | id (n : Nat)
  | pair (left right : MerkleTerm)
deriving DecidableEq

theorem MerkleTerm.pair_injective (a b c d : MerkleTerm) (h : MerkleTerm.pair a b = MerkleTerm.pair c d) :
    a = c ∧ b = d := by
  injection h with h1 h2
  exact ⟨h1,h2⟩

private def threeLeaves : List MerkleTerm := [.id 1,.id 2,.id 3]

/-- A pairing without collisions on small ids. -/
def packPair (a b : Uint256) : Uint256 := .ofNat 256 (2^200+a.toNat*2^16+b.toNat)

def packContext : BlockContext := { BlockContext.lenient 1 with blockMerkleRoot := blockMerkleRoot packPair }

def packSpend (id : TxId) : CTransaction := ⟨[⟨⟨id+100,0⟩,[],0⟩],[⟨900,[0x51],none⟩],2,0,id⟩

def packVtx : List CTransaction :=
  [⟨[⟨⟨0,outPointNullIndex⟩,[1,2],0⟩],[⟨50,[0x51],none⟩],2,0,20⟩,packSpend 21,packSpend 22]

def packBlock (vtx : List CTransaction) : CBlock := ⟨⟨1,1,(blockMerkleRoot packPair packVtx).1,0,1,0,2⟩,vtx⟩

/-- Three leaves and the list with its last leaf repeated share a root; `CheckBlock` accepts the block with three
transactions and refuses the one with the last of them repeated. -/
theorem merkleRoot_commits_sample : (computeMerkleRoot MerkleTerm.pair (.id 0) threeLeaves).1 =
      (computeMerkleRoot MerkleTerm.pair (.id 0) (threeLeaves++[.id 3])).1 ∧
    (computeMerkleRoot MerkleTerm.pair (.id 0) threeLeaves).2 = false ∧
    (computeMerkleRoot MerkleTerm.pair (.id 0) (threeLeaves++[.id 3])).2 = true ∧
    checkBlock packContext (packBlock packVtx) = .ok () ∧
    checkBlock packContext (packBlock (packVtx++[packSpend 22])) =
      .error (.invalid ⟨100,rejectInvalid,"bad-txns-duplicate",true⟩) := by
  have haccept : checkBlock packContext (packBlock packVtx) = .ok () := by decide +kernel
  refine ⟨by decide,by decide,?_,haccept,?_⟩
  · by_contra hclean
    have hfree : CollisionFreePairs MerkleTerm.pair (pairsOf MerkleTerm.pair threeLeaves (threeLeaves++[.id 3]))
        (leavesOf threeLeaves (threeLeaves++[.id 3])) := by
      refine ⟨fun p _ q _ h => Prod.ext (MerkleTerm.pair.inj h).1 (MerkleTerm.pair.inj h).2,fun p _ hmem => ?_⟩
      have hleaf : ∀ t ∈ threeLeaves++(threeLeaves++[.id 3]), ∃ n, t = .id n := by
        simp [threeLeaves]
      obtain ⟨n,hn⟩ := hleaf _ (mem_append.mpr hmem)
      cases hn
    have heq := merkleRoot_commits.1 MerkleTerm MerkleTerm.pair (.id 0) threeLeaves (threeLeaves++[.id 3])
      (by decide) (by decide) hfree (by decide) (by decide) (Bool.eq_false_iff.mpr hclean)
    exact absurd heq (by decide)
  · have hfree : CollisionFreePairs packPair (pairsOf packPair ((packBlock packVtx).vtx.map CTransaction.getId)
        ((packBlock (packVtx++[packSpend 22])).vtx.map CTransaction.getId))
        (leavesOf ((packBlock packVtx).vtx.map CTransaction.getId)
          ((packBlock (packVtx++[packSpend 22])).vtx.map CTransaction.getId)) := by
      have hpairs : ((merklePairs packPair 3 [20,21,22]++merklePairs packPair 4 [20,21,22,22]).all fun p =>
          ((merklePairs packPair 3 [20,21,22]++merklePairs packPair 4 [20,21,22,22]).all fun q =>
            packPair p.1 p.2 != packPair q.1 q.2 || p == q) &&
          !([20,21,22,20,21,22,22] : List Uint256).contains (packPair p.1 p.2)) = true := by decide +kernel
      simp only [all_eq_true,Bool.and_eq_true,Bool.or_eq_true,bne_iff_ne,beq_iff_eq,Bool.not_eq_true',contains_eq_mem,
        decide_eq_false_iff_not] at hpairs
      exact ⟨fun p hp q hq h => ((hpairs p (mem_append.mpr hp)).1 q (mem_append.mpr hq)).resolve_left fun hne => hne h,
        fun p hp hmem => (hpairs p (mem_append.mpr hp)).2 (mem_append.mpr hmem)⟩
    exact (merkleRoot_commits.2 packPair packContext (packBlock packVtx) (packBlock (packVtx++[packSpend 22])) rfl rfl
      hfree haccept).2 (by decide) (by decide +kernel) (by decide)
end Terms
end BitfiniteCore
