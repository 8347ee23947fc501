import BitfiniteCore.Consensus.Merkle
import Mathlib.Logic.Function.Iterate

/-! # Partial merkle trees -/

namespace BitfiniteCore
open List

section Model

variable {α : Type}

structure CPartialMerkleTree (α : Type) where
  nTransactions : Nat
  vBits : List Bool
  vHash : List α
  fBad : Bool

/-- The number of nodes at a height, in arithmetic of 32 bits. -/
def calcTreeWidth (nTransactions height : Nat) : Nat := (nTransactions+2^height-1)%2^32/2^height

def treeHeightLoop (nTransactions : Nat) : Nat → Nat → Nat
  | 0, nHeight => nHeight
  | rounds+1, nHeight =>
    if calcTreeWidth nTransactions nHeight > 1 then treeHeightLoop nTransactions rounds (nHeight+1) else nHeight

/-- The height of the tree; a width of at most one is reached at height 31 for every count. -/
def treeHeight (nTransactions : Nat) : Nat := treeHeightLoop nTransactions 31 0

variable (hash : α → α → α)

/-- `none` is an access outside of the list of ids. -/
def calcHash (nTransactions : Nat) (vTxid : List α) : Nat → Nat → Option α
  | 0, pos => vTxid[pos]?
  | height+1, pos =>
    (calcHash nTransactions vTxid height (pos*2)).bind fun left =>
      if pos*2+1 < calcTreeWidth nTransactions height then
        (calcHash nTransactions vTxid height (pos*2+1)).map fun right => hash left right
      else some (hash left left)

def leafRange (nTransactions height pos : Nat) : List Nat :=
  (range' (pos*2^height) (2^height)).filter fun p => decide (p < nTransactions)

def traverseAndBuild (nTransactions : Nat) (vTxid : List α) (vMatch : List Bool) : Nat → Nat → Option (List Bool × List α)
  | 0, pos =>
    (calcHash hash nTransactions vTxid 0 pos).map fun h =>
      ([(leafRange nTransactions 0 pos).any fun p => vMatch.getD p false],[h])
  | height+1, pos =>
    let fParentOfMatch := (leafRange nTransactions (height+1) pos).any fun p => vMatch.getD p false
    if !fParentOfMatch then
      (calcHash hash nTransactions vTxid (height+1) pos).map fun h => ([fParentOfMatch],[h])
    else
      (traverseAndBuild nTransactions vTxid vMatch height (pos*2)).bind fun l =>
        if pos*2+1 < calcTreeWidth nTransactions height then
          (traverseAndBuild nTransactions vTxid vMatch height (pos*2+1)).map fun r =>
            (fParentOfMatch::l.1++r.1,l.2++r.2)
        else some (fParentOfMatch::l.1,l.2)

def CPartialMerkleTree.build (vTxid : List α) (vMatch : List Bool) : Option (CPartialMerkleTree α) :=
  let nTransactions := vTxid.length%2^32
  (traverseAndBuild hash nTransactions vTxid vMatch (treeHeight nTransactions) 0).map fun r =>
    ⟨nTransactions,r.1,r.2,false⟩

/-- The variables that `TraverseAndExtract` changes. -/
structure ExtractState (α : Type) where
  nBitsUsed : Nat
  nHashUsed : Nat
  vMatch : List α
  vnIndex : List Nat
  fBad : Bool

variable [DecidableEq α] (zero : α)

/-- An access to the bits or hashes needs a proof that it is inside of them. -/
def CPartialMerkleTree.traverseAndExtract (t : CPartialMerkleTree α) : Nat → Nat → ExtractState α → α × ExtractState α
  | 0, pos, s =>
    if hb : s.nBitsUsed < t.vBits.length then
      let fParentOfMatch := t.vBits[s.nBitsUsed]
      let s := { s with nBitsUsed := s.nBitsUsed+1 }
      if hh : s.nHashUsed < t.vHash.length then
        let h := t.vHash[s.nHashUsed]
        let s := { s with nHashUsed := s.nHashUsed+1 }
        if fParentOfMatch then (h,{ s with vMatch := s.vMatch++[h], vnIndex := s.vnIndex++[pos] }) else (h,s)
      else (zero,{ s with fBad := true })
    else (zero,{ s with fBad := true })
  | height+1, pos, s =>
    if hb : s.nBitsUsed < t.vBits.length then
      let fParentOfMatch := t.vBits[s.nBitsUsed]
      let s := { s with nBitsUsed := s.nBitsUsed+1 }
      if !fParentOfMatch then
        if hh : s.nHashUsed < t.vHash.length then (t.vHash[s.nHashUsed],{ s with nHashUsed := s.nHashUsed+1 })
        else (zero,{ s with fBad := true })
      else
        let l := traverseAndExtract t height (pos*2) s
        if pos*2+1 < calcTreeWidth t.nTransactions height then
          let r := traverseAndExtract t height (pos*2+1) l.2
          (hash l.1 r.1,if r.1 = l.1 then { r.2 with fBad := true } else r.2)
        else (hash l.1 l.1,l.2)
    else (zero,{ s with fBad := true })

/-- The root or `uint256()`, and the two vectors; that of indexes is not cleared. -/
def CPartialMerkleTree.extractMatches (t : CPartialMerkleTree α) (vnIndex : List Nat) : α × List α × List Nat :=
  if t.nTransactions = 0 then (zero,[],vnIndex)
  else if t.vHash.length > t.nTransactions then (zero,[],vnIndex)
  else if t.vBits.length < t.vHash.length then (zero,[],vnIndex)
  else
    let r := t.traverseAndExtract hash zero (treeHeight t.nTransactions) 0 ⟨0,0,[],vnIndex,t.fBad⟩
    let s := r.2
    if s.fBad then (zero,s.vMatch,s.vnIndex)
    else if (s.nBitsUsed+7)/8 ≠ (t.vBits.length+7)/8 then (zero,s.vMatch,s.vnIndex)
    else if s.nHashUsed ≠ t.vHash.length then (zero,s.vMatch,s.vnIndex)
    else (r.1,s.vMatch,s.vnIndex)
end Model

section Widths

theorem calcTreeWidth_31 (n : Nat) : calcTreeWidth n 31 ≤ 1 := by
  rw [calcTreeWidth]
  omega

variable {n height : Nat}

theorem lt_calcTreeWidth (hn : n ≤ 2^31) (hh : height ≤ 31) (k : Nat) : k < calcTreeWidth n height ↔ k*2^height < n := by
  have hpow : 2^height ≤ 2^31 := Nat.pow_le_pow_right (by omega) hh
  have hpos := Nat.two_pow_pos height
  rw [calcTreeWidth,Nat.mod_eq_of_lt (by omega),Nat.lt_div_iff_mul_lt hpos]
  omega

theorem calcTreeWidth_eq (hn : n ≤ 2^31) (hh : height ≤ 31) : calcTreeWidth n height = (n+2^height-1)/2^height := by
  have hpow : 2^height ≤ 2^31 := Nat.pow_le_pow_right (by omega) hh
  rw [calcTreeWidth,Nat.mod_eq_of_lt (by omega)]

theorem calcTreeWidth_succ (hn : n ≤ 2^31) (hh : height+1 ≤ 31) :
    calcTreeWidth n (height+1) = (calcTreeWidth n height+1)/2 := by
  have hpos := Nat.two_pow_pos height
  rw [calcTreeWidth_eq hn hh,calcTreeWidth_eq hn (by omega),← Nat.add_div_right _ hpos,Nat.div_div_eq_div_mul,
    ← Nat.pow_succ]
  congr 1
  rw [Nat.pow_succ]
  omega

private theorem treeHeightLoop_spec (n rounds nHeight : Nat) (hend : calcTreeWidth n (nHeight+rounds) ≤ 1) :
    nHeight ≤ treeHeightLoop n rounds nHeight ∧ treeHeightLoop n rounds nHeight ≤ nHeight+rounds ∧
    calcTreeWidth n (treeHeightLoop n rounds nHeight) ≤ 1 ∧
    ∀ j, nHeight ≤ j → j < treeHeightLoop n rounds nHeight → 1 < calcTreeWidth n j := by
  induction rounds generalizing nHeight with
  | zero => exact ⟨le_rfl,le_rfl,hend,fun j h1 h2 => absurd h2 (by rw [treeHeightLoop]; omega)⟩
  | succ rounds ih =>
    rw [treeHeightLoop]
    split
    · rename_i hwide
      obtain ⟨h1,h2,h3,h4⟩ := ih (nHeight+1) (by rwa [show nHeight+1+rounds = nHeight+(rounds+1) by omega])
      refine ⟨by omega,by omega,h3,fun j hj hlt => ?_⟩
      by_cases he : j = nHeight
      · rw [he]
        exact hwide
      · exact h4 j (by omega) hlt
    · exact ⟨le_rfl,by omega,by omega,fun j h1 h2 => by omega⟩

theorem treeHeight_spec (n : Nat) : treeHeight n ≤ 31 ∧ calcTreeWidth n (treeHeight n) ≤ 1 ∧
    ∀ j < treeHeight n, 1 < calcTreeWidth n j := by
  have h := treeHeightLoop_spec n 31 0 (by simpa using calcTreeWidth_31 n)
  exact ⟨by simpa [treeHeight] using h.2.1,h.2.2.1,fun j hj => h.2.2.2 j (Nat.zero_le j) hj⟩

theorem leafRange_split (hn : n ≤ 2^31) (hh : height+1 ≤ 31) (pos : Nat) :
    leafRange n (height+1) pos = leafRange n height (pos*2)++
      (if pos*2+1 < calcTreeWidth n height then leafRange n height (pos*2+1) else []) := by
  have hrange : range' (pos*2^(height+1)) (2^(height+1)) =
      range' (pos*2*2^height) (2^height)++range' ((pos*2+1)*2^height) (2^height) := by
    have happ := range'_append_1 (s := pos*2*2^height) (m := 2^height) (n := 2^height)
    rw [show pos*2*2^height+2^height = (pos*2+1)*2^height by ring] at happ
    rw [happ]
    congr 1 <;> ring
  rw [leafRange,hrange,filter_append]
  congr 1
  split
  · rfl
  · rename_i hnone
    rw [lt_calcTreeWidth hn (by omega)] at hnone
    apply filter_eq_nil_iff.mpr
    intro p hp
    have := (mem_range'_1.mp hp).1
    simp only [decide_eq_true_eq]
    omega

theorem leafRange_zero (hn : n ≤ 2^31) {pos : Nat} (hpos : pos < calcTreeWidth n 0) : leafRange n 0 pos = [pos] := by
  rw [lt_calcTreeWidth hn (by omega)] at hpos
  simp only [Nat.pow_zero,Nat.mul_one] at hpos
  simp [leafRange,hpos]

theorem leafRange_top (hn : n ≤ 2^31) (hwidth : calcTreeWidth n height ≤ 1) (hh : height ≤ 31) :
    leafRange n height 0 = List.range n := by
  have hle : n ≤ 2^height := by
    by_contra hlt
    have := (lt_calcTreeWidth hn hh 1).mpr (by omega)
    omega
  have happ := range'_append_1 (s := 0) (m := n) (n := 2^height-n)
  rw [Nat.zero_add,Nat.add_sub_cancel' hle] at happ
  rw [leafRange,Nat.zero_mul,← happ,filter_append,← range_eq_range']
  have hin : (List.range n).filter (fun p => decide (p < n)) = List.range n := by
    apply filter_eq_self.mpr
    intro p hp
    simpa using hp
  have hout : (range' n (2^height-n)).filter (fun p => decide (p < n)) = [] := by
    apply filter_eq_nil_iff.mpr
    intro p hp
    have := (mem_range'_1.mp hp).1
    simpa using this
  rw [hin,hout,append_nil]
end Widths

section Levels

variable {α : Type} {hash : α → α → α} {vTxid : List α} {height : Nat}

theorem nextLevel_getElem (A : List α) (k : Nat) :
    (nextLevel hash A)[k]? = A[2*k]?.map fun left => hash left (A[2*k+1]?.getD left) := by
  rw [nextLevel,getElem?_map]
  induction A using levelPairs.induct generalizing k with
  | case1 => simp [levelPairs]
  | case2 a =>
    cases k with
    | zero => simp [levelPairs]
    | succ k => simp [levelPairs,Nat.mul_succ]
  | case3 a b A ih =>
    cases k with
    | zero => simp [levelPairs]
    | succ k =>
      rw [levelPairs,getElem?_cons_succ,ih,Nat.mul_succ]
      rfl

def levelAt (hash : α → α → α) (vTxid : List α) (height : Nat) : List α := (nextLevel hash)^[height] vTxid

theorem levelAt_succ : levelAt hash vTxid (height+1) = nextLevel hash (levelAt hash vTxid height) :=
  Function.iterate_succ_apply' _ _ _

theorem levelAt_length (hash : α → α → α) (hn : vTxid.length ≤ 2^31) (hh : height ≤ 31) :
    (levelAt hash vTxid height).length = calcTreeWidth vTxid.length height := by
  induction height with
  | zero =>
    rw [calcTreeWidth_eq hn hh]
    simp [levelAt]
  | succ height ih =>
    rw [levelAt_succ,nextLevel,length_map,levelPairs_length,ih (by omega),calcTreeWidth_succ hn hh]

theorem calcHash_eq (hn : vTxid.length ≤ 2^31) (hh : height ≤ 31) (pos : Nat) :
    calcHash hash vTxid.length vTxid height pos = (levelAt hash vTxid height)[pos]? := by
  induction height generalizing pos with
  | zero => rfl
  | succ height ih =>
    have hlen := levelAt_length hash hn (show height ≤ 31 by omega)
    rw [calcHash,levelAt_succ,nextLevel_getElem,ih (by omega),Nat.mul_comm pos 2]
    cases (levelAt hash vTxid height)[2*pos]? with
    | none => rfl
    | some left =>
      split
      · rw [ih (by omega),getElem?_eq_getElem (by omega)]
        rfl
      · rw [getElem?_eq_none (by omega)]
        rfl

theorem calcHash_some (hash : α → α → α) (hn : vTxid.length ≤ 2^31) (hh : height ≤ 31) {pos : Nat}
    (hpos : pos < calcTreeWidth vTxid.length height) : ∃ a, calcHash hash vTxid.length vTxid height pos = some a := by
  have hlen := levelAt_length hash hn hh
  exact ⟨_,(calcHash_eq hn hh pos).trans (getElem?_eq_getElem (by omega))⟩

theorem calcHash_children {pos : Nat} {a : α} (h : calcHash hash vTxid.length vTxid (height+1) pos = some a) :
    ∃ l, calcHash hash vTxid.length vTxid height (pos*2) = some l ∧
      if pos*2+1 < calcTreeWidth vTxid.length height then
        ∃ r, calcHash hash vTxid.length vTxid height (pos*2+1) = some r ∧ a = hash l r
      else a = hash l l := by
  rw [calcHash,Option.bind_eq_some_iff] at h
  obtain ⟨l,hl,hrest⟩ := h
  refine ⟨l,hl,?_⟩
  split
  · rename_i hright
    rw [if_pos hright,Option.map_eq_some_iff] at hrest
    obtain ⟨r,hr,rfl⟩ := hrest
    exact ⟨r,hr,rfl⟩
  · rename_i hright
    rw [if_neg hright] at hrest
    exact (Option.some.inj hrest).symm

theorem calcHash_injective (hinj : ∀ a b c d, hash a b = hash c d → a = c ∧ b = d) (hnodup : vTxid.Nodup)
    {pos pos' : Nat} {a : α} (h : calcHash hash vTxid.length vTxid height pos = some a) (h' : calcHash hash vTxid.length vTxid height pos' = some a) :
    pos = pos' := by
  induction height generalizing pos pos' a with
  | zero =>
    rw [calcHash] at h h'
    obtain ⟨hp,he⟩ := List.getElem?_eq_some_iff.mp h
    obtain ⟨hp',he'⟩ := List.getElem?_eq_some_iff.mp h'
    exact hnodup.getElem_inj_iff.mp (he.trans he'.symm)
  | succ height ih =>
    obtain ⟨l,hl,ha⟩ := calcHash_children h
    obtain ⟨l',hl',ha'⟩ := calcHash_children h'
    have hll : l = l' := by
      split at ha <;> split at ha'
      · obtain ⟨r,-,rfl⟩ := ha
        obtain ⟨r',-,he⟩ := ha'
        exact (hinj _ _ _ _ he).1
      · obtain ⟨r,-,rfl⟩ := ha
        exact (hinj _ _ _ _ ha').1
      · obtain ⟨r',-,he⟩ := ha'
        exact (hinj _ _ _ _ (ha ▸ he)).1
      · exact (hinj _ _ _ _ (ha ▸ ha')).1
    have := ih hl (hll ▸ hl')
    omega

private theorem merkleLoop_levels [DecidableEq α] (H fuel : Nat) (A : List α) (m : Bool) (hfuel : H ≤ fuel)
    (hwide : ∀ j < H, 1 < (levelAt hash A j).length) (hend : (levelAt hash A H).length ≤ 1) :
    (merkleLoop hash fuel A m).1 = levelAt hash A H := by
  induction H generalizing fuel A m with
  | zero =>
    cases fuel with
    | zero => rfl
    | succ fuel =>
      have hlen : ¬A.length > 1 := by simpa [levelAt] using hend
      rw [merkleLoop,if_neg hlen]
      rfl
  | succ H ih =>
    cases fuel with
    | zero => omega
    | succ fuel =>
      have hlen : A.length > 1 := hwide 0 (by omega)
      have hshift : ∀ j, levelAt hash (nextLevel hash A) j = levelAt hash A (j+1) := fun j => rfl
      rw [merkleLoop,if_pos hlen]
      exact ih fuel (nextLevel hash A) _ (by omega) (fun j hj => hshift j ▸ hwide (j+1) (by omega)) (hshift H ▸ hend)

theorem calcHash_root [DecidableEq α] (hash : α → α → α) (zero : α) (hne : vTxid ≠ []) (hn : vTxid.length ≤ 2^31) :
    calcHash hash vTxid.length vTxid (treeHeight vTxid.length) 0 = some (computeMerkleRoot hash zero vTxid).1 := by
  obtain ⟨hh,hend,hwide⟩ := treeHeight_spec vTxid.length
  have hlen := levelAt_length hash hn hh
  have hpos : 0 < vTxid.length := length_pos_iff.mpr hne
  have hone : 0 < calcTreeWidth vTxid.length (treeHeight vTxid.length) := (lt_calcTreeWidth hn hh 0).mpr (by omega)
  have hfuel : treeHeight vTxid.length ≤ vTxid.length := by
    by_contra hlt
    have hw := (lt_calcTreeWidth hn (by omega) 1).mp (hwide vTxid.length (by omega))
    have := Nat.lt_two_pow_self (n := vTxid.length)
    omega
  have hloop := merkleLoop_levels (treeHeight vTxid.length) vTxid.length vTxid false hfuel
    (fun j hj => by rw [levelAt_length hash hn (by omega)]; exact hwide j hj) (by rw [hlen]; exact hend)
  rw [calcHash_eq hn hh,computeMerkleRoot]
  rw [hloop]
  cases hlevel : levelAt hash vTxid (treeHeight vTxid.length) with
  | nil =>
    rw [hlevel] at hlen
    simp at hlen
    omega
  | cons a A => rfl
end Levels

section Completeness

variable {α : Type} [DecidableEq α] {hash : α → α → α} {zero : α} {vTxid : List α} {vMatch : List Bool}

def matchedBelow (n : Nat) (vMatch : List Bool) (height pos : Nat) : List Nat :=
  (leafRange n height pos).filter fun p => vMatch.getD p false

def idsAt (vTxid : List α) (positions : List Nat) : List α := positions.filterMap fun p => vTxid[p]?

def ExtractState.walked (s : ExtractState α) (bits hashes : Nat) (vTxid : List α) (positions : List Nat) : ExtractState α :=
  ⟨s.nBitsUsed+bits,s.nHashUsed+hashes,s.vMatch++idsAt vTxid positions,s.vnIndex++positions,s.fBad⟩

omit [DecidableEq α] in
private theorem walked_walked (s : ExtractState α) (b b' h h' : Nat) (p p' : List Nat) :
    (s.walked b h vTxid p).walked b' h' vTxid p' = s.walked (b+b') (h+h') vTxid (p++p') := by
  simp [ExtractState.walked,idsAt,Nat.add_assoc]

/-- What is built below a node is read back to the node and the matches below it, wherever it stands. -/
structure ReadsBack (hash : α → α → α) (zero : α) (vTxid : List α) (vMatch : List Bool) (height pos : Nat)
    (bits : List Bool) (hashes : List α) : Prop where
  count : hashes.length ≤ (leafRange vTxid.length height pos).length
  nodes : hashes.length ≤ bits.length
  read : ∀ (t : CPartialMerkleTree α) (s : ExtractState α) (restB : List Bool) (restH : List α) (a : α),
    t.nTransactions = vTxid.length → t.vBits.drop s.nBitsUsed = bits++restB → t.vHash.drop s.nHashUsed = hashes++restH →
    calcHash hash vTxid.length vTxid height pos = some a →
    t.traverseAndExtract hash zero height pos s =
      (a,s.walked bits.length hashes.length vTxid (matchedBelow vTxid.length vMatch height pos))

private theorem drop_cons {β : Type} {l rest : List β} {k : Nat} {b : β} (h : l.drop k = b::rest) :
    ∃ hk : k < l.length, l[k] = b ∧ l.drop (k+1) = rest := by
  have hk : k < l.length := by
    by_contra hge
    rw [drop_eq_nil_of_le (by omega)] at h
    cases h
  rw [drop_eq_getElem_cons hk,List.cons.injEq] at h
  exact ⟨hk,h.1,h.2⟩

private theorem matchedBelow_nil {n height pos : Nat}
    (h : (leafRange n height pos).any (fun p => vMatch.getD p false) = false) : matchedBelow n vMatch height pos = [] := by
  apply filter_eq_nil_iff.mpr
  intro p hp
  simpa using any_eq_false.mp h p hp

private theorem leafRange_pos {n height pos : Nat} (hn : n ≤ 2^31) (hh : height ≤ 31) (hpos : pos < calcTreeWidth n height) :
    1 ≤ (leafRange n height pos).length := by
  rw [lt_calcTreeWidth hn hh] at hpos
  apply length_pos_of_mem (a := pos*2^height)
  rw [leafRange,mem_filter,mem_range'_1]
  exact ⟨⟨le_rfl,Nat.lt_add_of_pos_right (Nat.two_pow_pos height)⟩,by simpa using hpos⟩

private theorem readsBack_stop (hn : vTxid.length ≤ 2^31) {height pos : Nat} (hh : height+1 ≤ 31)
    (hpos : pos < calcTreeWidth vTxid.length (height+1)) {a : α}
    (ha : calcHash hash vTxid.length vTxid (height+1) pos = some a)
    (hnone : (leafRange vTxid.length (height+1) pos).any (fun p => vMatch.getD p false) = false) :
    ReadsBack hash zero vTxid vMatch (height+1) pos [false] [a] := by
  refine ⟨leafRange_pos hn hh hpos,le_rfl,?_⟩
  intro t s restB restH a' ht hb hh' ha'
  obtain ⟨hbk,hbit,-⟩ := drop_cons hb
  obtain ⟨hhk,hval,-⟩ := drop_cons hh'
  rw [ha] at ha'
  rw [CPartialMerkleTree.traverseAndExtract,dif_pos hbk]
  simp only [hbit,Bool.not_false,if_true,dif_pos hhk,hval,← Option.some.inj ha']
  simp [ExtractState.walked,matchedBelow_nil hnone,idsAt]

private theorem readsBack_leaf (hn : vTxid.length ≤ 2^31) {pos : Nat} (hpos : pos < calcTreeWidth vTxid.length 0) {a : α}
    (ha : calcHash hash vTxid.length vTxid 0 pos = some a) :
    ReadsBack hash zero vTxid vMatch 0 pos [vMatch.getD pos false] [a] := by
  have hrange := leafRange_zero hn hpos
  refine ⟨by simp [hrange],le_rfl,?_⟩
  intro t s restB restH a' ht hb hh' ha'
  obtain ⟨hbk,hbit,-⟩ := drop_cons hb
  obtain ⟨hhk,hval,-⟩ := drop_cons hh'
  rw [ha] at ha'
  rw [CPartialMerkleTree.traverseAndExtract,dif_pos hbk]
  have hid : vTxid[pos]? = some a := ha
  simp only [hbit,dif_pos hhk,hval,← Option.some.inj ha']
  cases hm : vMatch.getD pos false with
  | true =>
    have hmatched : matchedBelow vTxid.length vMatch 0 pos = [pos] := by
      rw [matchedBelow,hrange,filter_cons_of_pos (by exact hm),filter_nil]
    simp [ExtractState.walked,hmatched,idsAt,hid]
  | false =>
    have hmatched : matchedBelow vTxid.length vMatch 0 pos = [] := by
      rw [matchedBelow,hrange,filter_cons_of_neg (by rw [hm]; decide),filter_nil]
    simp [ExtractState.walked,hmatched,idsAt]

private theorem matchedBelow_split {n height : Nat} (hn : n ≤ 2^31) (hh : height+1 ≤ 31) (pos : Nat) :
    matchedBelow n vMatch (height+1) pos = matchedBelow n vMatch height (pos*2)++
      (if pos*2+1 < calcTreeWidth n height then matchedBelow n vMatch height (pos*2+1) else []) := by
  rw [matchedBelow,leafRange_split hn hh,filter_append]
  split <;> rfl

private theorem ReadsBack.node (hinj : ∀ a b c d, hash a b = hash c d → a = c ∧ b = d) (hnodup : vTxid.Nodup)
    (hn : vTxid.length ≤ 2^31) {height pos : Nat} (hh : height+1 ≤ 31)
    (hright : pos*2+1 < calcTreeWidth vTxid.length height) {lb rb : List Bool} {lh rh : List α}
    (hl : ReadsBack hash zero vTxid vMatch height (pos*2) lb lh)
    (hr : ReadsBack hash zero vTxid vMatch height (pos*2+1) rb rh) :
    ReadsBack hash zero vTxid vMatch (height+1) pos (true::lb++rb) (lh++rh) := by
  have hcount := hl.count
  have hcount' := hr.count
  have hnodes := hl.nodes
  have hnodes' := hr.nodes
  refine ⟨?_,?_,?_⟩
  · rw [leafRange_split hn hh,if_pos hright,length_append,length_append]
    omega
  · simp only [length_append,length_cons,cons_append]
    omega
  · intro t s restB restH a ht hb hh' ha
    obtain ⟨l,hcl,hrest⟩ := calcHash_children ha
    rw [if_pos hright] at hrest
    obtain ⟨r,hcr,rfl⟩ := hrest
    rw [cons_append,cons_append,append_assoc] at hb
    obtain ⟨hbk,hbit,hdrop⟩ := drop_cons hb
    have hleft := hl.read t { s with nBitsUsed := s.nBitsUsed+1 } (rb++restB) (rh++restH) l ht hdrop
      (by rw [← append_assoc]; exact hh') hcl
    have hsecond := hr.read t (({ s with nBitsUsed := s.nBitsUsed+1 } : ExtractState α).walked lb.length lh.length vTxid
      (matchedBelow vTxid.length vMatch height (pos*2))) restB restH r ht
      (by
        dsimp only [ExtractState.walked]
        rw [← drop_drop,hdrop,drop_left])
      (by
        dsimp only [ExtractState.walked]
        rw [← drop_drop,hh',append_assoc,drop_left]) hcr
    have hne : r ≠ l := by
      intro he
      have := calcHash_injective hinj hnodup hcl (he ▸ hcr)
      omega
    rw [CPartialMerkleTree.traverseAndExtract,dif_pos hbk]
    simp only [hbit,Bool.not_true,Bool.false_eq_true,if_false,ht,if_pos hright]
    rw [hleft]
    rw [hsecond]
    rw [if_neg hne,walked_walked,matchedBelow_split hn hh,if_pos hright]
    simp only [ExtractState.walked,length_append,length_cons,cons_append]
    congr 2
    omega

private theorem ReadsBack.last (hn : vTxid.length ≤ 2^31) {height pos : Nat} (hh : height+1 ≤ 31)
    (hright : ¬pos*2+1 < calcTreeWidth vTxid.length height) {lb : List Bool} {lh : List α}
    (hl : ReadsBack hash zero vTxid vMatch height (pos*2) lb lh) :
    ReadsBack hash zero vTxid vMatch (height+1) pos (true::lb) lh := by
  have hcount := hl.count
  have hnodes := hl.nodes
  refine ⟨?_,?_,?_⟩
  · rw [leafRange_split hn hh,if_neg hright,append_nil]
    exact hcount
  · simp only [length_cons]
    omega
  · intro t s restB restH a ht hb hh' ha
    obtain ⟨l,hcl,hrest⟩ := calcHash_children ha
    rw [if_neg hright] at hrest
    obtain ⟨hbk,hbit,hdrop⟩ := drop_cons hb
    have hleft := hl.read t { s with nBitsUsed := s.nBitsUsed+1 } restB restH l ht hdrop hh' hcl
    rw [CPartialMerkleTree.traverseAndExtract,dif_pos hbk]
    simp only [hbit,Bool.not_true,Bool.false_eq_true,if_false,ht,if_neg hright]
    rw [hleft,hrest,matchedBelow_split hn hh,if_neg hright,append_nil]
    simp only [ExtractState.walked,length_cons]
    congr 2
    omega

theorem traverseAndBuild_readsBack (zero : α) (vMatch : List Bool) (hinj : ∀ a b c d, hash a b = hash c d → a = c ∧ b = d) (hnodup : vTxid.Nodup)
    (hn : vTxid.length ≤ 2^31) {height pos : Nat} (hh : height ≤ 31) (hpos : pos < calcTreeWidth vTxid.length height) :
    ∃ r, traverseAndBuild hash vTxid.length vTxid vMatch height pos = some r ∧
      ReadsBack hash zero vTxid vMatch height pos r.1 r.2 := by
  obtain ⟨a,ha⟩ := calcHash_some hash hn hh hpos
  induction height generalizing pos a with
  | zero =>
    refine ⟨([vMatch.getD pos false],[a]),?_,readsBack_leaf hn hpos ha⟩
    rw [traverseAndBuild,ha,leafRange_zero hn hpos]
    simp
  | succ height ih =>
    rw [traverseAndBuild]
    cases hany : (leafRange vTxid.length (height+1) pos).any (fun p => vMatch.getD p false) with
    | false =>
      refine ⟨([false],[a]),?_,readsBack_stop hn hh hpos ha hany⟩
      rw [ha]
      rfl
    | true =>
      have hleft : pos*2 < calcTreeWidth vTxid.length height := by
        rw [calcTreeWidth_succ hn hh] at hpos
        omega
      obtain ⟨l,hcl⟩ := calcHash_some hash hn (show height ≤ 31 by omega) hleft
      obtain ⟨lr,hbl,hl⟩ := ih (by omega) hleft l hcl
      simp only [Bool.not_true,Bool.false_eq_true,if_false,hbl,Option.bind_some]
      by_cases hright : pos*2+1 < calcTreeWidth vTxid.length height
      · obtain ⟨r,hcr⟩ := calcHash_some hash hn (show height ≤ 31 by omega) hright
        obtain ⟨rr,hbr,hr⟩ := ih (by omega) hright r hcr
        refine ⟨(true::lr.1++rr.1,lr.2++rr.2),?_,hl.node hinj hnodup hn hh hright hr⟩
        rw [if_pos hright,hbr]
        rfl
      · exact ⟨(true::lr.1,lr.2),by rw [if_neg hright],hl.last hn hh hright⟩
end Completeness

section Soundness

variable {α : Type} [DecidableEq α] {hash : α → α → α} {zero : α} {vTxid : List α} {t : CPartialMerkleTree α}

def TrueLeaves (vTxid : List α) (s s' : ExtractState α) : Prop :=
  ∃ ids positions, s'.vMatch = s.vMatch++ids ∧ s'.vnIndex = s.vnIndex++positions ∧
    List.Forall₂ (fun txid p => vTxid[p]? = some txid) ids positions

omit [DecidableEq α] in
private theorem TrueLeaves.same {s s' : ExtractState α} (h : s'.vMatch = s.vMatch) (h' : s'.vnIndex = s.vnIndex) :
    TrueLeaves vTxid s s' :=
  ⟨[],[],by simp [h],by simp [h'],.nil⟩

omit [DecidableEq α] in
private theorem TrueLeaves.trans {s s' s'' : ExtractState α} (h : TrueLeaves vTxid s s') (h' : TrueLeaves vTxid s' s'') :
    TrueLeaves vTxid s s'' := by
  obtain ⟨ids,positions,h1,h2,h3⟩ := h
  obtain ⟨ids',positions',h1',h2',h3'⟩ := h'
  exact ⟨ids++ids',positions++positions',by rw [h1',h1,append_assoc],by rw [h2',h2,append_assoc],rel_append h3 h3'⟩

theorem traverseAndExtract_trueLeaves (hinj : ∀ a b c d, hash a b = hash c d → a = c ∧ b = d)
    (ht : t.nTransactions = vTxid.length) {height pos : Nat} {s : ExtractState α}
    (h : calcHash hash vTxid.length vTxid height pos = some (t.traverseAndExtract hash zero height pos s).1) :
    TrueLeaves vTxid s (t.traverseAndExtract hash zero height pos s).2 := by
  induction height generalizing pos s with
  | zero =>
    rw [CPartialMerkleTree.traverseAndExtract] at h ⊢
    dsimp only at h ⊢
    split_ifs at h ⊢
    · exact ⟨[_],[pos],rfl,rfl,.cons h .nil⟩
    all_goals exact .same rfl rfl
  | succ height ih =>
    rw [CPartialMerkleTree.traverseAndExtract] at h ⊢
    by_cases hb : s.nBitsUsed < t.vBits.length
    · rw [dif_pos hb] at h ⊢
      cases hbit : t.vBits[s.nBitsUsed] with
      | false =>
        simp only [hbit,Bool.not_false,if_true] at h ⊢
        split_ifs at h ⊢
        all_goals exact .same rfl rfl
      | true =>
        simp only [hbit,Bool.not_true,Bool.false_eq_true,if_false,ht] at h ⊢
        generalize hs : ({ s with nBitsUsed := s.nBitsUsed+1 } : ExtractState α) = s1 at h ⊢
        have hstart : TrueLeaves vTxid s s1 := by
          rw [← hs]
          exact .same rfl rfl
        by_cases hright : pos*2+1 < calcTreeWidth vTxid.length height
        · simp only [if_pos hright] at h ⊢
          obtain ⟨l,hcl,hrest⟩ := calcHash_children h
          rw [if_pos hright] at hrest
          obtain ⟨r,hcr,heq⟩ := hrest
          obtain ⟨hl,hr⟩ := hinj _ _ _ _ heq
          have hleft := ih (s := s1) (hl ▸ hcl)
          have hsecond := ih (s := (t.traverseAndExtract hash zero height (pos*2) s1).2) (hr ▸ hcr)
          have hboth := (hstart.trans hleft).trans hsecond
          split_ifs
          · exact hboth
          · exact hboth
        · simp only [if_neg hright] at h ⊢
          obtain ⟨l,hcl,hrest⟩ := calcHash_children h
          rw [if_neg hright] at hrest
          exact hstart.trans (ih ((hinj _ _ _ _ hrest).1 ▸ hcl))
    · rw [dif_neg hb]
      exact .same rfl rfl
end Soundness

theorem CPartialMerkleTree.extractMatches_found {α : Type} [DecidableEq α] {hash : α → α → α} {zero : α}
    {t : CPartialMerkleTree α} {vnIndex : List Nat} {r : α × ExtractState α}
    (hr : t.traverseAndExtract hash zero (treeHeight t.nTransactions) 0 ⟨0,0,[],vnIndex,t.fBad⟩ = r)
    (h : (t.extractMatches hash zero vnIndex).1 ≠ zero) :
    t.extractMatches hash zero vnIndex = (r.1,r.2.vMatch,r.2.vnIndex) := by
  revert h
  rw [extractMatches,hr]
  dsimp only
  split_ifs
  · exact fun h => absurd rfl h
  · exact fun h => absurd rfl h
  · exact fun h => absurd rfl h
  · exact fun h => absurd rfl h
  · exact fun h => absurd rfl h
  · exact fun h => absurd rfl h
  · exact fun _ => rfl

/-- A tree gives back the root and the matches, and whatever it is made of, its matches are leaves when its root,
not the null hash, is right. -/
theorem partialMerkleTree_faithful {α : Type} [DecidableEq α] (hash : α → α → α) (zero : α)
    (hinj : ∀ a b c d, hash a b = hash c d → a = c ∧ b = d) :
    (∀ (vTxid : List α) (vMatch : List Bool), vTxid ≠ [] → vTxid.Nodup → vTxid.length ≤ 2^31 →
      vMatch.length = vTxid.length → ∃ t, CPartialMerkleTree.build hash vTxid vMatch = some t ∧
        t.extractMatches hash zero [] = ((computeMerkleRoot hash zero vTxid).1,
          idsAt vTxid ((List.range vTxid.length).filter fun p => vMatch.getD p false),
          (List.range vTxid.length).filter fun p => vMatch.getD p false)) ∧
    ∀ (vTxid : List α) (t : CPartialMerkleTree α), vTxid.length ≤ 2^31 → t.nTransactions = vTxid.length →
      (computeMerkleRoot hash zero vTxid).1 ≠ zero →
      (t.extractMatches hash zero []).1 = (computeMerkleRoot hash zero vTxid).1 →
      List.Forall₂ (fun txid p => vTxid[p]? = some txid) (t.extractMatches hash zero []).2.1
        (t.extractMatches hash zero []).2.2 := by
  constructor
  · intro vTxid vMatch hne hnodup hn hlen
    obtain ⟨hh,hend,-⟩ := treeHeight_spec vTxid.length
    have hpos : 0 < vTxid.length := length_pos_iff.mpr hne
    have hmod : vTxid.length%2^32 = vTxid.length := Nat.mod_eq_of_lt (by omega)
    have hone := (lt_calcTreeWidth hn hh 0).mpr (by omega)
    obtain ⟨⟨bits,hashes⟩,hbuild,hread⟩ := traverseAndBuild_readsBack zero vMatch hinj hnodup hn hh hone
    have hroot := calcHash_root hash zero hne hn
    have htop := leafRange_top hn hend hh
    have hcount := hread.count
    have hnodes := hread.nodes
    rw [htop,length_range] at hcount
    refine ⟨⟨vTxid.length,bits,hashes,false⟩,?_,?_⟩
    · rw [CPartialMerkleTree.build]
      simp only [hmod,hbuild]
      rfl
    · have hwalk := hread.read ⟨vTxid.length,bits,hashes,false⟩ ⟨0,0,[],[],false⟩ [] [] _ rfl (by simp) (by simp) hroot
      rw [CPartialMerkleTree.extractMatches]
      simp only
      rw [if_neg (by omega),if_neg (by dsimp only at hcount; omega),if_neg (by dsimp only at hnodes; omega),hwalk]
      simp [ExtractState.walked,matchedBelow,htop]
  · intro vTxid t hn ht hzero hroot
    have hne : vTxid ≠ [] := by
      rintro rfl
      exact hzero rfl
    have htop := calcHash_root hash zero hne hn
    have hfound := t.extractMatches_found rfl (fun h => hzero (hroot.symm.trans h))
    rw [hfound] at hroot ⊢
    rw [← hroot,← ht] at htop
    rw [ht] at htop
    obtain ⟨ids,positions,h1,h2,h3⟩ := traverseAndExtract_trueLeaves hinj ht htop
    rw [ht,h1,h2]
    exact h3

theorem partialMerkleTree_faithful_terms :
    ∃ t, CPartialMerkleTree.build MerkleTerm.pair [.id 1,.id 2,.id 3] [false,true,false] = some t ∧
      t.extractMatches MerkleTerm.pair (.id 0) [] =
        ((computeMerkleRoot MerkleTerm.pair (.id 0) [.id 1,.id 2,.id 3]).1,[.id 2],[1]) :=
  (partialMerkleTree_faithful MerkleTerm.pair (.id 0) MerkleTerm.pair_injective).1 [.id 1,.id 2,.id 3] [false,true,false]
    (by decide) (by decide) (by decide) rfl

theorem partialMerkleTree_null_root :
    (∀ a b c d : MerkleTerm, MerkleTerm.pair a b = MerkleTerm.pair c d → a = c ∧ b = d) ∧
    (∀ a b, MerkleTerm.pair a b ∉ [MerkleTerm.id 0]) ∧
    (⟨1,replicate 9 true,[.id 7],false⟩ : CPartialMerkleTree MerkleTerm).extractMatches MerkleTerm.pair (.id 0) [] =
      ((computeMerkleRoot MerkleTerm.pair (.id 0) [.id 0]).1,[.id 7],[0]) ∧
    [MerkleTerm.id 0][0]? ≠ some (.id 7) :=
  ⟨MerkleTerm.pair_injective,by simp,by decide,by decide⟩
end BitfiniteCore
