import BitfiniteCore.Chain.State
import Mathlib.Data.List.Sort
import Mathlib.Logic.Relation

/-!
# Loading the block index

Undo positions, file numbers, skip pointers and the largest time of a chain are left out.
-/

namespace BitfiniteCore
open Function Relation List

structure CDiskBlockIndex where
  hash : BlockHash
  hashPrev : BlockHash
  nHeight : Nat
  hashMerkleRoot : Uint256
  nBits : Nat
  nStatus : BlockStatus
  nTx : Nat

structure CBlockIndex where
  pprev : Option BlockHash
  nHeight : Nat
  hashMerkleRoot : Uint256
  nBits : Nat
  nStatus : BlockStatus
  nTx : Nat
  nChainTx : Nat
  nChainWork : Nat

namespace CBlockIndex

def null : CBlockIndex := ⟨none,0,0,0,BlockStatus.empty,0,0,0⟩

def ofDisk (d : CDiskBlockIndex) : CBlockIndex :=
  ⟨if d.hashPrev = 0 then none else some d.hashPrev,d.nHeight,d.hashMerkleRoot,d.nBits,d.nStatus,d.nTx,0,0⟩
end CBlockIndex

/-- `mapBlockIndex` with the order in which it is iterated. -/
structure BlockMap where
  keys : List BlockHash
  entry : BlockHash → CBlockIndex

namespace BlockMap

def insertBlockIndex (m : BlockMap) (hash : BlockHash) : BlockMap :=
  if hash = 0 then m else if hash ∈ m.keys then m else ⟨m.keys++[hash],update m.entry hash .null⟩

/-- `LoadBlockIndexGuts`; `none` is the return value false. -/
def loadBlockIndexGuts (powLimit : Nat) : List CDiskBlockIndex → BlockMap → Except Stop (Option BlockMap)
  | [], m => .ok (some m)
  | d::ds, m =>
    if d.hash = 0 then .error (.assertion "pindexNew")
    else
      let m := (m.insertBlockIndex d.hash).insertBlockIndex d.hashPrev
      let m := { m with entry := update m.entry d.hash (.ofDisk d) }
      if checkProofOfWork d.hash d.nBits powLimit then loadBlockIndexGuts powLimit ds m else .ok none
end BlockMap

structure LoadedIndex where
  map : BlockMap
  setBlockIndexCandidates : List BlockHash
  mapBlocksUnlinked : List (BlockHash × BlockHash)
  pindexBestInvalid : Option BlockHash
  pindexBestParked : Option BlockHash
  pindexBestHeader : Option BlockHash

namespace LoadedIndex

variable (r : LoadedIndex)

def entry (b : BlockHash) : CBlockIndex := r.map.entry b

def setEntry (b : BlockHash) (e : CBlockIndex) : LoadedIndex :=
  { r with map := { r.map with entry := update r.map.entry b e } }

/-- The comparator at load: no entry has a sequence id yet. -/
def worse (pa pb : BlockHash) : Bool :=
  if (r.entry pa).nChainWork > (r.entry pb).nChainWork then false
  else if (r.entry pa).nChainWork < (r.entry pb).nChainWork then true
  else if pa < pb then false
  else if pa > pb then true
  else false

def linkWork (b : BlockHash) : LoadedIndex :=
  let e := r.entry b
  let e := { e with nChainWork := (e.pprev.map fun p => (r.entry p).nChainWork).getD 0+getBlockProof e.nBits }
  match e.pprev with
  | none => r.setEntry b (if 0 < e.nTx then { e with nChainTx := e.nTx } else e)
  | some p =>
    if 0 < e.nTx then
      if (r.entry p).nChainTx ≠ 0 then r.setEntry b { e with nChainTx := ((r.entry p).nChainTx+e.nTx)%2^32 }
      else
        { r.setEntry b { e with nChainTx := 0 } with mapBlocksUnlinked := r.mapBlocksUnlinked++[(p,b)] }
    else r.setEntry b e

def markFailedParent (b : BlockHash) : LoadedIndex :=
  let e := r.entry b
  if !e.nStatus.hasFailed && e.pprev.any fun p => (r.entry p).nStatus.hasFailed then
    r.setEntry b { e with nStatus := e.nStatus.withFailedParent true }
  else r

def enlist (b : BlockHash) : LoadedIndex :=
  let e := r.entry b
  let better := fun best : Option BlockHash => best.all fun x => decide ((r.entry x).nChainWork < e.nChainWork)
  { r with
    setBlockIndexCandidates :=
      if e.nStatus.isValid .transactions && (e.nChainTx != 0 || e.pprev.isNone) then
        r.setBlockIndexCandidates.insert b
      else r.setBlockIndexCandidates
    pindexBestInvalid :=
      if e.nStatus.isInvalid && better r.pindexBestInvalid then some b else r.pindexBestInvalid
    pindexBestParked :=
      if e.nStatus.isOnParkedChain && better r.pindexBestParked then some b else r.pindexBestParked
    pindexBestHeader :=
      if e.nStatus.isValid .tree && r.pindexBestHeader.all fun x => r.worse x b then some b
      else r.pindexBestHeader }

def visit (b : BlockHash) : LoadedIndex := ((r.linkWork b).markFailedParent b).enlist b
end LoadedIndex

def BlockMap.sortedByHeight (m : BlockMap) : List BlockHash :=
  m.keys.insertionSort fun a b => (m.entry a).nHeight < (m.entry b).nHeight ∨
    (m.entry a).nHeight = (m.entry b).nHeight ∧ a ≤ b

/-- `LoadBlockIndex` on an empty chain state; `none` is the return value false. -/
def loadBlockIndex (powLimit : Nat) (disk : List CDiskBlockIndex) : Except Stop (Option LoadedIndex) :=
  (BlockMap.loadBlockIndexGuts powLimit disk ⟨[],fun _ => .null⟩).map fun o => o.bind fun m =>
    if m.keys.any fun b => (m.entry b).nHeight == 0 && (m.entry b).hashMerkleRoot == 0 then none
    else some (m.sortedByHeight.foldl LoadedIndex.visit ⟨m,[],[],none,none,none⟩)

namespace BlockMap

variable {m m' : BlockMap} {b hash : BlockHash} {powLimit : Nat} {d : CDiskBlockIndex}

theorem mem_insertBlockIndex : b ∈ (m.insertBlockIndex hash).keys ↔ b ∈ m.keys ∨ b = hash ∧ hash ≠ 0 := by
  unfold insertBlockIndex
  split_ifs with h0 hmem
  · simp [h0]
  · constructor
    · exact .inl
    · intro h
      exact h.elim id fun hb => hb.1 ▸ hmem
  · rw [mem_append,mem_singleton,and_iff_left h0]

structure FromDisk (disk : List CDiskBlockIndex) (m : BlockMap) : Prop where
  nodup : m.keys.Nodup
  entry : ∀ b, m.entry b = .null ∨ b ∈ m.keys ∧ ∃ d ∈ disk, d.hash = b ∧ m.entry b = .ofDisk d

theorem FromDisk.insert {disk : List CDiskBlockIndex} (h : FromDisk disk m) (hash : BlockHash) :
    FromDisk disk (m.insertBlockIndex hash) := by
  unfold insertBlockIndex
  split_ifs with h0 hmem
  · exact h
  · exact h
  constructor
  · apply nodup_append.mpr
    refine ⟨h.nodup,by simp,fun b hb c hc he => hmem ?_⟩
    rw [← mem_singleton.mp hc,← he]
    exact hb
  · intro b
    by_cases hb : b = hash
    · left
      rw [hb]
      exact update_self ..
    · dsimp only
      rw [update_of_ne hb]
      exact (h.entry b).imp_right fun hd => ⟨mem_append_left _ hd.1,hd.2⟩

theorem loadBlockIndexGuts_fromDisk {disk : List CDiskBlockIndex} (ds : List CDiskBlockIndex)
    (hds : ∀ d ∈ ds, d ∈ disk) (h : FromDisk disk m) (hok : loadBlockIndexGuts powLimit ds m = .ok (some m')) :
    FromDisk disk m' := by
  induction ds generalizing m with
  | nil =>
    cases hok
    exact h
  | cons d ds ih =>
    rw [loadBlockIndexGuts] at hok
    split at hok
    · cases hok
    rename_i hnull
    split at hok
    · have hins := (h.insert d.hash).insert d.hashPrev
      apply ih (fun d' hd' => hds d' (mem_cons_of_mem d hd')) _ hok
      refine ⟨hins.nodup,fun b => ?_⟩
      by_cases hbd : b = d.hash
      · right
        rw [hbd]
        refine ⟨?_,d,hds d mem_cons_self,rfl,update_self ..⟩
        exact mem_insertBlockIndex.mpr (.inl (mem_insertBlockIndex.mpr (.inr ⟨rfl,hnull⟩)))
      · simp only [update_of_ne hbd]
        exact hins.entry b
    · cases hok

theorem insertBlockIndex_entry (hb : b ∈ m.keys) (hash : BlockHash) :
    (m.insertBlockIndex hash).entry b = m.entry b := by
  unfold insertBlockIndex
  split_ifs with h0 hmem
  · rfl
  · rfl
  · have hne : b ≠ hash := fun he => hmem (he ▸ hb)
    exact update_of_ne hne ..

/-- An entry that no later record overwrites stays, so with distinct hashes every record is found in the map. -/
theorem loadBlockIndexGuts_entry (ds : List CDiskBlockIndex) (hok : loadBlockIndexGuts powLimit ds m = .ok (some m'))
    (hnodup : (ds.map CDiskBlockIndex.hash).Nodup) :
    (∀ b ∈ m.keys, b ∉ ds.map CDiskBlockIndex.hash → m'.entry b = m.entry b) ∧
      ∀ d ∈ ds, d.hash ≠ 0 ∧ m'.entry d.hash = .ofDisk d := by
  induction ds generalizing m with
  | nil =>
    cases hok
    exact ⟨fun _ _ _ => rfl,by simp⟩
  | cons d ds ih =>
    rw [loadBlockIndexGuts] at hok
    rw [map_cons,nodup_cons] at hnodup
    split at hok
    · cases hok
    rename_i hnull
    split at hok
    · obtain ⟨hkeep,hloaded⟩ := ih hok hnodup.2
      have hkey : ∀ b, b ∈ m.keys ∨ b = d.hash → b ∈ ((m.insertBlockIndex d.hash).insertBlockIndex d.hashPrev).keys := by
        intro b hb
        rw [mem_insertBlockIndex,mem_insertBlockIndex]
        exact .inl (hb.imp_right fun he => ⟨he,hnull⟩)
      refine ⟨fun b hb hn => ?_,fun d' hd' => ?_⟩
      · rw [map_cons,mem_cons,not_or] at hn
        rw [hkeep b (hkey b (.inl hb)) hn.2]
        dsimp only
        rw [update_of_ne hn.1,insertBlockIndex_entry (mem_insertBlockIndex.mpr (.inl hb)),insertBlockIndex_entry hb]
      · rcases mem_cons.mp hd' with rfl | hd'
        · exact ⟨hnull,by rw [hkeep _ (hkey _ (.inr rfl)) hnodup.1]; exact update_self ..⟩
        · exact hloaded d' hd'
    · cases hok
end BlockMap

namespace LoadedIndex

variable {r : LoadedIndex} {a b c : BlockHash}

structure VisitedAt (r : LoadedIndex) (b : BlockHash) (r' : LoadedIndex) : Prop where
  keys : r'.map.keys = r.map.keys
  pprev : ∀ x, (r'.entry x).pprev = (r.entry x).pprev
  other : ∀ x, x ≠ b → (r'.entry x).nStatus = (r.entry x).nStatus
  self : (r'.entry b).nStatus =
    if !(r.entry b).nStatus.hasFailed && (r.entry b).pprev.any fun p => (r.entry p).nStatus.hasFailed then
      (r.entry b).nStatus.withFailedParent true
    else (r.entry b).nStatus
  candidates : ∀ x ∈ r'.setBlockIndexCandidates, x ∈ r.setBlockIndexCandidates ∨
    x = b ∧ (r'.entry b).nStatus.isInvalid = false
  header : r'.pindexBestHeader = r.pindexBestHeader ∨
    r'.pindexBestHeader = some b ∧ (r'.entry b).nStatus.isInvalid = false

private theorem linkWork_frame (r : LoadedIndex) (b : BlockHash) :
    (r.linkWork b).map.keys = r.map.keys ∧ (∀ x, ((r.linkWork b).entry x).pprev = (r.entry x).pprev) ∧
    (∀ x, ((r.linkWork b).entry x).nStatus = (r.entry x).nStatus) ∧
    (r.linkWork b).setBlockIndexCandidates = r.setBlockIndexCandidates ∧
    (r.linkWork b).pindexBestHeader = r.pindexBestHeader := by
  have hset : ∀ e : CBlockIndex, e.pprev = (r.entry b).pprev → e.nStatus = (r.entry b).nStatus → ∀ x,
      ((r.setEntry b e).entry x).pprev = (r.entry x).pprev ∧
        ((r.setEntry b e).entry x).nStatus = (r.entry x).nStatus := by
    intro e hp hs x
    by_cases hx : x = b
    · subst hx
      simp [setEntry,entry,hp,hs]
    · simp [setEntry,entry,hx]
  unfold linkWork
  dsimp only
  split
  · split
    · exact ⟨rfl,fun x => (hset _ (by rfl) (by rfl) x).1,fun x => (hset _ (by rfl) (by rfl) x).2,rfl,rfl⟩
    · exact ⟨rfl,fun x => (hset _ (by rfl) (by rfl) x).1,fun x => (hset _ (by rfl) (by rfl) x).2,rfl,rfl⟩
  · split
    · split
      · exact ⟨rfl,fun x => (hset _ (by rfl) (by rfl) x).1,fun x => (hset _ (by rfl) (by rfl) x).2,rfl,rfl⟩
      · exact ⟨rfl,fun x => (hset _ (by rfl) (by rfl) x).1,fun x => (hset _ (by rfl) (by rfl) x).2,rfl,rfl⟩
    · exact ⟨rfl,fun x => (hset _ (by rfl) (by rfl) x).1,fun x => (hset _ (by rfl) (by rfl) x).2,rfl,rfl⟩

private theorem isValid_not_isInvalid {st : BlockStatus} {v : BlockValidity} (h : st.isValid v = true) :
    st.isInvalid = false := by
  unfold BlockStatus.isValid at h
  split at h
  · cases h
  · rename_i hv
    exact Bool.eq_false_iff.mpr hv

theorem visit_spec (r : LoadedIndex) (b : BlockHash) : VisitedAt r b (r.visit b) := by
  obtain ⟨hkeys,hpprev,hstatus,hcand,hheader⟩ := linkWork_frame r b
  have hmark : VisitedAt r b ((r.linkWork b).markFailedParent b) := by
    have hcond : (!((r.linkWork b).entry b).nStatus.hasFailed &&
        ((r.linkWork b).entry b).pprev.any fun p => ((r.linkWork b).entry p).nStatus.hasFailed) =
        (!(r.entry b).nStatus.hasFailed && (r.entry b).pprev.any fun p => (r.entry p).nStatus.hasFailed) := by
      simp only [hstatus,hpprev]
    unfold markFailedParent
    dsimp only
    rw [hcond]
    split
    · rename_i hc
      refine ⟨hkeys,fun x => ?_,fun x hx => ?_,?_,fun x hx => .inl (hcand ▸ hx),.inl hheader⟩
      · by_cases hx : x = b
        · subst hx
          simpa [setEntry,entry] using hpprev x
        · simpa [setEntry,entry,hx] using hpprev x
      · simpa [setEntry,entry,hx] using hstatus x
      · rw [if_pos hc,← hstatus b]
        simp [setEntry,entry]
    · rename_i hc
      exact ⟨hkeys,hpprev,fun x _ => hstatus x,by rw [if_neg hc,hstatus],fun x hx => .inl (hcand ▸ hx),.inl hheader⟩
  refine ⟨hmark.keys,hmark.pprev,hmark.other,hmark.self,fun x hx => ?_,?_⟩
  · change x ∈ (if _ then _ else _) at hx
    split at hx
    · rename_i hc
      rcases mem_insert_iff.mp hx with rfl | hx
      · exact .inr ⟨rfl,isValid_not_isInvalid (Bool.and_eq_true_iff.mp hc).1⟩
      · exact hmark.candidates x hx
    · exact hmark.candidates x hx
  · change (if _ then _ else _) = _ ∨ (if _ then _ else _) = _ ∧ _
    split
    · rename_i hc
      exact .inr ⟨rfl,isValid_not_isInvalid (Bool.and_eq_true_iff.mp hc).1⟩
    · exact hmark.header

/-- The flags of an entry and of its parent on disk, as the loop leaves them. -/
def loadedStatus (m : BlockMap) (b : BlockHash) : BlockStatus :=
  if !(m.entry b).nStatus.hasFailed && (m.entry b).pprev.any fun p => (m.entry p).nStatus.hasFailed then
    (m.entry b).nStatus.withFailedParent true
  else (m.entry b).nStatus

/-- The loop invariant, `done` being the entries visited so far. -/
structure Visited (m : BlockMap) (done : List BlockHash) (r : LoadedIndex) : Prop where
  keys : r.map.keys = m.keys
  pprev : ∀ x, (r.entry x).pprev = (m.entry x).pprev
  status : ∀ x, (r.entry x).nStatus = if x ∈ done then loadedStatus m x else (m.entry x).nStatus
  candidates : ∀ x ∈ r.setBlockIndexCandidates, x ∈ done ∧ (loadedStatus m x).isInvalid = false
  header : ∀ x, r.pindexBestHeader = some x → x ∈ done ∧ (loadedStatus m x).isInvalid = false

private theorem loadedStatus_hasFailed (m : BlockMap) (b : BlockHash) :
    (loadedStatus m b).hasFailed = (m.entry b).nStatus.hasFailed := by
  unfold loadedStatus
  split <;> rfl

theorem Visited.hasFailed {m : BlockMap} {done : List BlockHash} (h : Visited m done r) (x : BlockHash) :
    (r.entry x).nStatus.hasFailed = (m.entry x).nStatus.hasFailed := by
  rw [h.status]
  split
  · exact loadedStatus_hasFailed m x
  · rfl

theorem Visited.visit {m : BlockMap} {done : List BlockHash} (h : Visited m done r) (hb : b ∉ done) :
    Visited m (done++[b]) (r.visit b) := by
  have hv := visit_spec r b
  have hself : ((r.visit b).entry b).nStatus = loadedStatus m b := by
    have hst : (r.entry b).nStatus = (m.entry b).nStatus := by rw [h.status,if_neg hb]
    rw [hv.self,hst,h.pprev]
    simp only [h.hasFailed]
    rfl
  refine ⟨hv.keys.trans h.keys,fun x => (hv.pprev x).trans (h.pprev x),fun x => ?_,fun x hx => ?_,fun x hx => ?_⟩
  · by_cases hx : x = b
    · subst hx
      rw [hself,if_pos (by simp)]
    · rw [hv.other x hx,h.status]
      simp [hx]
  · rcases hv.candidates x hx with hx | ⟨rfl,hvalid⟩
    · exact ⟨mem_append_left _ (h.candidates x hx).1,(h.candidates x hx).2⟩
    · rw [hself] at hvalid
      exact ⟨by simp,hvalid⟩
  · rcases hv.header with he | ⟨he,hvalid⟩
    · rw [he] at hx
      exact ⟨mem_append_left _ (h.header x hx).1,(h.header x hx).2⟩
    · rw [he] at hx
      cases hx
      rw [hself] at hvalid
      exact ⟨by simp,hvalid⟩

theorem Visited.foldl {m : BlockMap} (l done : List BlockHash) (h : Visited m done r) (hnodup : (done++l).Nodup) :
    Visited m (done++l) (l.foldl LoadedIndex.visit r) := by
  induction l generalizing done r with
  | nil => simpa using h
  | cons b l ih =>
    have hb : b ∉ done := by
      intro hb
      exact (nodup_append.mp hnodup).2.2 b hb b mem_cons_self rfl
    rw [append_cons] at hnodup ⊢
    exact ih (done++[b]) (h.visit hb) hnodup
end LoadedIndex

open LoadedIndex BlockMap

variable {powLimit : Nat} {disk : List CDiskBlockIndex} {r : LoadedIndex}

theorem loadBlockIndex_visited (h : loadBlockIndex powLimit disk = .ok (some r)) :
    ∃ m, FromDisk disk m ∧ Visited m m.sortedByHeight r ∧ (∀ b, b ∈ m.sortedByHeight ↔ b ∈ m.keys) ∧
      ((disk.map CDiskBlockIndex.hash).Nodup → ∀ d ∈ disk, d.hash ≠ 0 ∧ m.entry d.hash = .ofDisk d) := by
  unfold loadBlockIndex at h
  cases hguts : loadBlockIndexGuts powLimit disk ⟨[],fun _ => .null⟩ with
  | error e =>
    rw [hguts] at h
    cases h
  | ok o =>
    rw [hguts] at h
    have ho := Except.ok.inj h
    obtain ⟨m,rfl,hm⟩ := Option.bind_eq_some_iff.mp ho
    split at hm
    · cases hm
    · have hdisk := loadBlockIndexGuts_fromDisk disk (fun _ hd => hd)
        ⟨nodup_nil,fun _ => .inl rfl⟩ hguts
      have hperm : m.sortedByHeight.Perm m.keys := perm_insertionSort ..
      have hstart : Visited m [] ⟨m,[],[],none,none,none⟩ := by
        refine ⟨rfl,fun _ => rfl,fun x => by simp [LoadedIndex.entry],?_,?_⟩
        · intro x hx
          cases hx
        · intro x hx
          cases hx
      refine ⟨m,hdisk,?_,fun b => hperm.mem_iff,fun hnodup => (loadBlockIndexGuts_entry disk hguts hnodup).2⟩
      rw [← Option.some.inj hm]
      exact hstart.foldl m.sortedByHeight [] (hperm.nodup_iff.mpr hdisk.nodup)

def DiskAbove (disk : List CDiskBlockIndex) : CDiskBlockIndex → CDiskBlockIndex → Prop :=
  TransGen fun p d => p ∈ disk ∧ d ∈ disk ∧ d.hashPrev = p.hash

private theorem ofDisk_pprev {d : CDiskBlockIndex} {p : BlockHash} (h : (CBlockIndex.ofDisk d).pprev = some p) :
    d.hashPrev = p := by
  unfold CBlockIndex.ofDisk at h
  split at h
  · cases h
  · exact Option.some.inj h

private theorem BlockMap.FromDisk.of_pprev {m : BlockMap} (h : FromDisk disk m) {p b : BlockHash}
    (hp : (m.entry b).pprev = some p) :
    b ∈ m.keys ∧ ∃ d ∈ disk, d.hash = b ∧ d.hashPrev = p ∧ m.entry b = .ofDisk d := by
  rcases h.entry b with hnull | ⟨hkey,d,hd,hhash,hentry⟩
  · rw [hnull] at hp
    cases hp
  · rw [hentry] at hp
    exact ⟨hkey,d,hd,hhash,ofDisk_pprev hp,hentry⟩

private theorem BlockMap.FromDisk.diskAbove {m : BlockMap} (h : FromDisk disk m) {da : CDiskBlockIndex} (hda : da ∈ disk)
    {b : BlockHash} (hab : TransGen (fun x y => (m.entry y).pprev = some x) da.hash b) :
    ∃ d ∈ disk, d.hash = b ∧ m.entry b = .ofDisk d ∧ DiskAbove disk da d := by
  induction hab with
  | single hp =>
    obtain ⟨-,d,hd,hhash,hprev,hentry⟩ := h.of_pprev hp
    exact ⟨d,hd,hhash,hentry,.single ⟨hda,hd,hprev⟩⟩
  | tail _ hp ih =>
    obtain ⟨dp,hdp,hhash,-,habove⟩ := ih
    obtain ⟨-,d,hd,hhash',hprev,hentry⟩ := h.of_pprev hp
    exact ⟨d,hd,hhash',hentry,habove.tail ⟨hdp,hd,hprev.trans hhash.symm⟩⟩

/-- An entry two or more levels below a failed one is marked, or has a failed parent. -/
def MarksStored (disk : List CDiskBlockIndex) : Prop :=
  ∀ a p d : CDiskBlockIndex, a.nStatus.hasFailed = true → DiskAbove disk a p → p ∈ disk → d ∈ disk →
    d.hashPrev = p.hash → p.nStatus.hasFailed = true ∨ d.nStatus.isInvalid = true

def DescendantsInvalid (r : LoadedIndex) : Prop :=
  ∀ a b, TransGen (fun x y => (r.entry y).pprev = some x) a b → (r.entry a).nStatus.hasFailed = true →
    (r.entry b).nStatus.isInvalid = true ∧ b ∉ r.setBlockIndexCandidates ∧ r.pindexBestHeader ≠ some b

theorem descendantsInvalid_of_marksStored (hload : loadBlockIndex powLimit disk = .ok (some r))
    (hstored : MarksStored disk) : DescendantsInvalid r := by
  intro a b hab hfailed
  obtain ⟨m,hdisk,hv,hmem,-⟩ := loadBlockIndex_visited hload
  have hrel : TransGen (fun x y => (m.entry y).pprev = some x) a b := by
    simpa only [hv.pprev] using hab
  rw [hv.hasFailed] at hfailed
  obtain ⟨da,hda,rfl,hentrya⟩ : ∃ d ∈ disk, d.hash = a ∧ m.entry a = .ofDisk d := by
    rcases hdisk.entry a with hnull | ⟨-,hd⟩
    · rw [hnull] at hfailed
      cases hfailed
    · exact hd
  have hdaFailed : da.nStatus.hasFailed = true := by rwa [hentrya] at hfailed
  -- the last step decides: only the parent's own flag is looked at
  obtain ⟨p,hap,hp⟩ := (TransGen.tail'_iff (r := fun x y => (m.entry y).pprev = some x)).mp hrel
  obtain ⟨hkey,d,hd,hhash,hprev,hentry⟩ := hdisk.of_pprev hp
  have hinvalid : (loadedStatus m b).isInvalid = true := by
    by_cases hpf : (m.entry p).nStatus.hasFailed = true
    · unfold loadedStatus
      split
      · simp [BlockStatus.isInvalid,BlockStatus.withFailedParent]
      · rename_i hc
        have : (m.entry b).nStatus.hasFailed = true := by
          by_contra hn
          exact hc (by simp [hp,hpf,hn])
        simp [BlockStatus.isInvalid,this]
    · rcases ReflTransGen.cases_tail hap with rfl | hap'
      · exact absurd hfailed hpf
      · obtain ⟨dp,hdp,hphash,hpentry,habove⟩ := hdisk.diskAbove hda (TransGen.tail'_iff.mpr hap')
        have hstore := (hstored da dp d hdaFailed habove hdp hd (hprev.trans hphash.symm)).resolve_left
          fun hf => hpf (by rw [hpentry]; exact hf)
        have hst : (m.entry b).nStatus.isInvalid = true := by rwa [hentry]
        unfold loadedStatus
        split
        · simp [BlockStatus.isInvalid,BlockStatus.withFailedParent]
        · exact hst
  have hstatus : (r.entry b).nStatus = loadedStatus m b := by rw [hv.status,if_pos ((hmem b).mpr hkey)]
  refine ⟨hstatus ▸ hinvalid,fun hc => ?_,fun hh => ?_⟩
  · exact Bool.false_ne_true ((hv.candidates b hc).2.symm.trans hinvalid)
  · exact Bool.false_ne_true ((hv.header b hh).2.symm.trans hinvalid)

/-- For records with distinct hashes, no descendant of a failed block is left valid exactly if the marks on disk
reach two levels below it. -/
theorem loadBlockIndex_marks_iff (hload : loadBlockIndex powLimit disk = .ok (some r))
    (hnodup : (disk.map CDiskBlockIndex.hash).Nodup) : DescendantsInvalid r ↔ MarksStored disk := by
  refine ⟨fun hall a p d hfailed hap hp hd hprev => ?_,descendantsInvalid_of_marksStored hload⟩
  obtain ⟨m,-,hv,hmem,hentry⟩ := loadBlockIndex_visited hload
  have hstep : ∀ x y : CDiskBlockIndex, x ∈ disk → y ∈ disk → y.hashPrev = x.hash →
      (m.entry y.hash).pprev = some x.hash := by
    intro x y hx hy he
    have hne := (hentry hnodup x hx).1
    rw [(hentry hnodup y hy).2,CBlockIndex.ofDisk,he]
    exact if_neg hne
  have hlift : TransGen (fun x y => (r.entry y).pprev = some x) a.hash p.hash := by
    simp only [hv.pprev]
    exact hap.lift CDiskBlockIndex.hash fun x y h => hstep x y h.1 h.2.1 h.2.2
  have ha : a ∈ disk := by
    obtain ⟨c,hc,-⟩ := TransGen.head'_iff.mp hap
    exact hc.1
  have hpd := hstep p d hp hd hprev
  obtain ⟨hinvalid,-⟩ := hall a.hash d.hash (hlift.tail (by rw [hv.pprev]; exact hpd))
    (by rw [hv.hasFailed,(hentry hnodup a ha).2]; exact hfailed)
  by_contra hnot
  rw [not_or,Bool.not_eq_true,Bool.not_eq_true] at hnot
  -- neither the parent nor the entry is marked, so the loop leaves the entry as it was stored
  have hloaded : loadedStatus m d.hash = d.nStatus := by
    unfold loadedStatus
    rw [hpd,(hentry hnodup d hd).2,Option.any_some,(hentry hnodup p hp).2]
    change (if (!d.nStatus.hasFailed && p.nStatus.hasFailed) = true then _ else _) = _
    rw [hnot.1,Bool.and_false]
    rfl
  rw [hv.status] at hinvalid
  split at hinvalid
  · rw [hloaded,hnot.2] at hinvalid
    cases hinvalid
  · rw [(hentry hnodup d hd).2] at hinvalid
    exact Bool.false_ne_true (hnot.2.symm.trans hinvalid)

def failedChain (deep : BlockStatus) : List CDiskBlockIndex :=
  [⟨1,0,0,1,0x207fffff,⟨.scripts,true,false,false,false,false⟩,1⟩,
    ⟨2,1,1,1,0x207fffff,⟨.transactions,true,true,false,false,false⟩,1⟩,
    ⟨3,2,2,1,0x207fffff,⟨.transactions,true,false,false,false,false⟩,1⟩,
    ⟨4,3,3,1,0x207fffff,deep,1⟩]

theorem loadBlockIndex_marks_iff_sample : ∃ r,
    loadBlockIndex (2^255-1) (failedChain ⟨.transactions,true,false,true,false,false⟩) = .ok (some r) ∧
    (r.entry 4).nStatus.isInvalid = true ∧ 4 ∉ r.setBlockIndexCandidates ∧ r.pindexBestHeader ≠ some 4 := by
  refine ⟨_,rfl,(@loadBlockIndex_marks_iff (2^255-1)
    (failedChain ⟨.transactions,true,false,true,false,false⟩) _ rfl (by decide)).mpr ?_ 2 4 ?_ ?_⟩
  · intro a p d _ _ hp hd hprev
    simp only [failedChain,mem_cons,not_mem_nil,or_false] at hp hd
    rcases hd with rfl | rfl | rfl | rfl
    · rcases hp with rfl | rfl | rfl | rfl <;> exact absurd hprev (by decide)
    · right
      rfl
    · left
      rcases hp with rfl | rfl | rfl | rfl
      · exact absurd hprev (by decide)
      · rfl
      · exact absurd hprev (by decide)
      · exact absurd hprev (by decide)
    · right
      rfl
  · exact .tail (b := 3) (.single (by decide)) (by decide)
  · decide

theorem loadBlockIndex_misses_grandchild : ∃ r,
    loadBlockIndex (2^255-1) (failedChain ⟨.transactions,true,false,false,false,false⟩) = .ok (some r) ∧
    TransGen (fun x y => (r.entry y).pprev = some x) 2 4 ∧ (r.entry 2).nStatus.hasFailed = true ∧
    (r.entry 4).nStatus.isInvalid = false ∧ 4 ∈ r.setBlockIndexCandidates ∧ r.pindexBestHeader = some 4 := by
  refine ⟨_,rfl,?_,?_,?_,?_,?_⟩
  · exact .tail (b := 3) (.single (by decide)) (by decide)
  · decide
  · decide
  · decide
  · decide
end BitfiniteCore
