import BitfiniteCore.Lib.Extents
import BitfiniteCore.Storage.DurableIndex
import BitfiniteCore.Storage.FlushSteps

/-! # Extents of blocks and undo data -/

namespace BitfiniteCore
open Function DurableFile GuardedRun Extent

def MAX_CONSENSUS_BLOCK_SIZE : Nat := 2000*1000000

def BlockPosition.blockExtent (e : BlockPosition) (size : Nat) : Option Extent :=
  if e.hasData then some ⟨e.nFile,e.nDataPos-8,e.nDataPos+size⟩ else none

def BlockPosition.undoExtent (e : BlockPosition) (size : Nat) : Option Extent :=
  if e.hasUndo then some ⟨e.nFile,e.nUndoPos-8,e.nUndoPos+size+32⟩ else none

namespace BlockStorage

def extents (extent : BlockHash → BlockPosition → Option Extent) (s : BlockStorage) (hash : BlockHash) :
    Option Extent :=
  (s.mapBlockIndex hash).bind (extent hash)

def blockExtent (data : BlockRecords) : BlockStorage → BlockHash → Option Extent :=
  extents fun hash e => e.blockExtent (data.block hash).length

def undoExtent (data : BlockRecords) : BlockStorage → BlockHash → Option Extent :=
  extents fun hash e => e.undoExtent (data.undo hash).length

/-- No file is in use yet; files of an earlier run may be there. -/
structure Fresh (s : BlockStorage) : Prop where
  info : ∀ n, s.info n = {}
  index : ∀ hash e, s.mapBlockIndex hash = some e → e.hasData = false ∧ e.hasUndo = false

/-- An existing record, clear of those of the index. -/
structure Reindexes (data : BlockRecords) (s : BlockStorage) (hash : BlockHash) (pos : FlatFilePos) : Prop where
  reads : s.ReadsBlock data hash pos
  position : pos.nPos < 2^32
  clear : ∀ {hash' x}, s.blockExtent data hash' = some x →
    Clear ⟨pos.nFile,pos.nPos-8,pos.nPos+(data.block hash).length⟩ x
end BlockStorage

inductive FileEvent where
  | addToBlockIndex (hash : BlockHash)
  | saveBlock (hash : BlockHash) (nTime : Nat) (dbp : Option FlatFilePos) (blkFault revFault : FlushFault)
      (space opens : Bool)
  | writeUndo (hash : BlockHash) (space opens : Bool)
  | findFilesToPrune (params : PruneParams) (tipHeight : Nat) (initialDownload : Bool)
  | findFilesToPruneManual (tipHeight nManualPruneHeight : Nat)

/-- A block is saved once, and its undo data is written while it has data. -/
inductive FileStep (data : BlockRecords) (nHeight : BlockHash → Nat) : BlockStorage → FileEvent → BlockStorage → Prop
  | addToBlockIndex {s : BlockStorage} {hash : BlockHash} (hnew : s.mapBlockIndex hash = none) :
      FileStep data nHeight s (.addToBlockIndex hash) (s.setEntry hash {})
  | saveBlock {s : BlockStorage} {hash : BlockHash} {e : BlockPosition} {nTime : Nat} {dbp : Option FlatFilePos}
      {blkFault revFault : FlushFault} {space opens : Bool}
      (hentry : s.mapBlockIndex hash = some e) (hdata : e.hasData = false)
      (hsize : (data.block hash).length ≤ MAX_CONSENSUS_BLOCK_SIZE)
      (hdbp : ∀ pos, dbp = some pos → s.Reindexes data hash pos) :
      FileStep data nHeight s (.saveBlock hash nTime dbp blkFault revFault space opens)
        (s.acceptBlock data hash e (nHeight hash) nTime dbp blkFault revFault space opens)
  | writeUndo {s : BlockStorage} {hash : BlockHash} {e : BlockPosition} {space opens : Bool}
      (hentry : s.mapBlockIndex hash = some e) (hdata : e.hasData = true)
      (htotal : (s.info e.nFile).nUndoSize+((data.undo hash).length+40) < 2^32) :
      FileStep data nHeight s (.writeUndo hash space opens) (s.writeUndoDataForBlock data hash e space opens)
  | findFilesToPrune {s : BlockStorage} {params : PruneParams} {tipHeight : Nat} {initialDownload : Bool} :
      FileStep data nHeight s (.findFilesToPrune params tipHeight initialDownload)
        (s.pruneFiles (s.findFilesToPrune params tipHeight initialDownload))
  | findFilesToPruneManual {s : BlockStorage} {tipHeight nManualPruneHeight : Nat} :
      FileStep data nHeight s (.findFilesToPruneManual tipHeight nManualPruneHeight)
        (s.pruneFiles (s.findFilesToPruneManual tipHeight nManualPruneHeight))

/-- A record that is reindexed leaves room for the largest block below 4 GiB. -/
def LeavesRoom (data : BlockRecords) (_ : BlockStorage) : FileEvent → Prop
  | .saveBlock hash _ (some pos) _ _ _ _ =>
    pos.nPos+((data.block hash).length+8)+(MAX_CONSENSUS_BLOCK_SIZE+8) < 2^32
  | _ => True

namespace BlockStorage

variable {data : BlockRecords} {nHeight : BlockHash → Nat} {s t : BlockStorage} {hash : BlockHash}
  {e e' : BlockPosition} {x : Extent} {files : List Nat}

section Extents

variable {extent : BlockHash → BlockPosition → Option Extent}

theorem extents_update (hmap : t.mapBlockIndex = update s.mapBlockIndex hash (some e)) :
    t.extents extent = update (s.extents extent) hash (extent hash e) := by
  funext hash'
  by_cases hh : hash' = hash
  · subst hh
    simp [extents,hmap]
  · simp [extents,hmap,hh]

theorem extents_of_update (hmap : t.mapBlockIndex = update s.mapBlockIndex hash (some e)) (he : extent hash e = none)
    {hash' : BlockHash} (hx : t.extents extent hash' = some x) : s.extents extent hash' = some x := by
  rw [extents_update hmap,he] at hx
  by_cases hh : hash' = hash
  · subst hh
    simp at hx
  · rwa [update_of_ne hh] at hx

theorem extents_none (h : ∀ hash e, s.mapBlockIndex hash = some e → extent hash e = none) (hash : BlockHash) :
    s.extents extent hash = none := by
  cases he : s.mapBlockIndex hash with
  | none => rw [extents,he,Option.bind_none]
  | some e => rw [extents,he,Option.bind_some,h hash e he]
end Extents

theorem blockExtent_nFile {size : Nat} (hx : e.blockExtent size = some x) : x.nFile = e.nFile := by
  rw [BlockPosition.blockExtent] at hx
  split_ifs at hx
  cases hx
  rfl

theorem undoExtent_nFile {size : Nat} (hx : e.undoExtent size = some x) : x.nFile = e.nFile := by
  rw [BlockPosition.undoExtent] at hx
  split_ifs at hx
  cases hx
  rfl

theorem placeBlock_map (s : BlockStorage) (pos : FlatFilePos) (fKnown : Bool) (nAddSize nHeight nTime : Nat)
    (blkFault revFault : FlushFault) :
    (s.placeBlock pos fKnown nAddSize nHeight nTime blkFault revFault).mapBlockIndex = s.mapBlockIndex := by
  rw [placeBlock,addToFile,enterFile]
  split_ifs <;> rfl

theorem acceptBlock_appends (s : BlockStorage) (data : BlockRecords) (hash : BlockHash) (e : BlockPosition)
    (nHeight nTime : Nat) (blkFault revFault : FlushFault) (space opens : Bool) {pos : FlatFilePos}
    (hpos : s.newBlockPos ((data.block hash).length+8) = pos) :
    (∀ n, (s.acceptBlock data hash e nHeight nTime none blkFault revFault space opens).info n =
      (s.placeBlock pos false ((data.block hash).length+8) nHeight nTime blkFault revFault).info n) ∧
    ((s.acceptBlock data hash e nHeight nTime none blkFault revFault space opens).mapBlockIndex = s.mapBlockIndex ∨
      (s.acceptBlock data hash e nHeight nTime none blkFault revFault space opens).mapBlockIndex =
        update s.mapBlockIndex hash (some { e with nFile := pos.nFile, nDataPos := pos.nPos+8, nUndoPos := 0, hasData := true })) := by
  have hmap := placeBlock_map s pos false ((data.block hash).length+8) nHeight nTime blkFault revFault
  rw [acceptBlock,saveBlockToDisk,findBlockPos,hpos]
  generalize s.placeBlock pos false ((data.block hash).length+8) nHeight nTime blkFault revFault = t at hmap ⊢
  generalize t.blk.allocate BLOCKFILE_CHUNK_SIZE pos ((data.block hash).length+8) space = alloc
  rw [← hmap]
  obtain ⟨blk,outOfSpace⟩ := alloc
  cases outOfSpace with
  | true => exact ⟨fun _ => rfl,.inl rfl⟩
  | false =>
    cases opens with
    | false => exact ⟨fun _ => rfl,.inl rfl⟩
    | true => exact ⟨fun _ => rfl,.inr rfl⟩

theorem acceptBlock_reindexes (s : BlockStorage) (data : BlockRecords) (hash : BlockHash) (e : BlockPosition)
    (nHeight nTime : Nat) (pos : FlatFilePos) (blkFault revFault : FlushFault) (space opens : Bool) :
    (∀ n, (s.acceptBlock data hash e nHeight nTime (some pos) blkFault revFault space opens).info n =
      (s.placeBlock pos true ((data.block hash).length+8) nHeight nTime blkFault revFault).info n) ∧
    (s.acceptBlock data hash e nHeight nTime (some pos) blkFault revFault space opens).mapBlockIndex =
      update s.mapBlockIndex hash
        (some { e with nFile := pos.nFile, nDataPos := pos.nPos, nUndoPos := 0, hasData := true }) := by
  have hmap := placeBlock_map s pos true ((data.block hash).length+8) nHeight nTime blkFault revFault
  rw [acceptBlock,saveBlockToDisk,findBlockPos]
  generalize s.placeBlock pos true ((data.block hash).length+8) nHeight nTime blkFault revFault = t at hmap ⊢
  rw [← hmap]
  exact ⟨fun _ => rfl,rfl⟩

theorem writeUndoDataForBlock_appends (s : BlockStorage) (data : BlockRecords) (hash : BlockHash)
    (hundo : e.hasUndo = false) (space opens : Bool) :
    (s.writeUndoDataForBlock data hash e space opens).vinfoBlockFile =
      modifyInfo s.vinfoBlockFile e.nFile (fun info =>
        { info with nUndoSize := addUInt32 info.nUndoSize ((data.undo hash).length+40) }) ∧
    ((s.writeUndoDataForBlock data hash e space opens).mapBlockIndex = s.mapBlockIndex ∨
      (s.writeUndoDataForBlock data hash e space opens).mapBlockIndex = update s.mapBlockIndex hash
        (some { e with nUndoPos := (s.info e.nFile).nUndoSize+8, hasUndo := true })) := by
  simp only [writeUndoDataForBlock,hundo,Bool.false_eq_true,if_false]
  split_ifs
  · exact ⟨rfl,.inl rfl⟩
  · exact ⟨rfl,.inr rfl⟩

theorem takeWhile_end {α : Type*} {p : α → Bool} {d : α} (hd : p d = false) (l : List α) :
    p (l[(l.takeWhile p).length]?.getD d) = false := by
  induction l with
  | nil => exact hd
  | cons a l ih =>
    cases ha : p a with
    | false => simp [ha]
    | true => simpa [List.takeWhile_cons,ha] using ih

theorem newBlockPos_room (s : BlockStorage) (nAddSize : Nat) :
    (s.newBlockPos nAddSize).nPos = 0 ∨ addUInt32 (s.newBlockPos nAddSize).nPos nAddSize < MAX_BLOCKFILE_SIZE := by
  have hend := takeWhile_end (p := fun info : CBlockFileInfo =>
    0 < info.nSize && MAX_BLOCKFILE_SIZE ≤ addUInt32 info.nSize nAddSize) (d := {}) rfl
    (s.vinfoBlockFile.drop s.nLastBlockFile)
  rw [List.getElem?_drop,← List.getD_eq_getElem?_getD] at hend
  change (decide (0 < (s.newBlockPos nAddSize).nPos) &&
    decide (MAX_BLOCKFILE_SIZE ≤ addUInt32 (s.newBlockPos nAddSize).nPos nAddSize)) = false at hend
  rw [Bool.and_eq_false_iff,decide_eq_false_iff_not,decide_eq_false_iff_not] at hend
  omega

theorem pruneFiles_map (he : s.mapBlockIndex hash = some e) (files : List Nat) :
    (s.pruneFiles files).mapBlockIndex hash = some (if e.nFile ∈ files then {} else e) := by
  induction files generalizing s e with
  | nil => simpa [pruneFiles] using he
  | cons n rest ih =>
    have hone : (s.pruneOneBlockFile n).mapBlockIndex hash = some (if e.nFile = n then {} else e) := by
      by_cases hn : e.nFile = n <;> simp [pruneOneBlockFile,he,hn]
    refine (ih hone).trans ?_
    by_cases hn : e.nFile = n
    · simp [hn]
    · simp [hn]

theorem pruneFiles_map_none (h : s.mapBlockIndex hash = none) (files : List Nat) :
    (s.pruneFiles files).mapBlockIndex hash = none := by
  induction files generalizing s with
  | nil => exact h
  | cons n rest ih => exact ih (by simp [pruneOneBlockFile,h])

theorem pruneFiles_entry_cases (he : (s.pruneFiles files).mapBlockIndex hash = some e) :
    e = {} ∨ s.mapBlockIndex hash = some e ∧ e.nFile ∉ files := by
  cases hs : s.mapBlockIndex hash with
  | none =>
    rw [pruneFiles_map_none hs] at he
    cases he
  | some e₀ =>
    rw [pruneFiles_map hs] at he
    split_ifs at he with hmem
    · exact .inl (Option.some.inj he).symm
    · cases he
      exact .inr ⟨rfl,hmem⟩

theorem pruneFiles_info (s : BlockStorage) (files : List Nat) (n : Nat) :
    (s.pruneFiles files).info n = if n ∈ files then {} else s.info n := by
  induction files generalizing s with
  | nil => rfl
  | cons m rest ih =>
    refine (ih _).trans ?_
    have hone : (s.pruneOneBlockFile m).info n = if n = m then {} else s.info n := info_addToFile m n _
    rw [hone]
    by_cases hn : n = m
    · simp [hn]
    · simp [hn]

theorem extents_pruneFiles {extent : BlockHash → BlockPosition → Option Extent} (hempty : extent hash {} = none)
    (hnFile : ∀ e x, extent hash e = some x → x.nFile = e.nFile)
    (hx : (s.pruneFiles files).extents extent hash = some x) : s.extents extent hash = some x ∧ x.nFile ∉ files := by
  obtain ⟨e,he,hex⟩ := Option.bind_eq_some_iff.mp hx
  rcases pruneFiles_entry_cases he with rfl | ⟨hs,hfile⟩
  · rw [hempty] at hex
    cases hex
  · rw [extents,hs,hnFile e x hex]
    exact ⟨hex,hfile⟩

theorem lastBlockWeCanPrune_le {tipHeight : Nat} (htip : MIN_BLOCKS_TO_KEEP ≤ tipHeight) :
    lastBlockWeCanPrune tipHeight ≤ tipHeight-MIN_BLOCKS_TO_KEEP := by
  rw [lastBlockWeCanPrune,addUInt32,MIN_BLOCKS_TO_KEEP] at *
  omega

theorem pruneLoop_height {nPruneTarget nBuffer nLastBlockWeCanPrune nCurrentUsage n : Nat}
    (hn : n ∈ s.pruneLoop nPruneTarget nBuffer nLastBlockWeCanPrune nCurrentUsage files) :
    (s.info n).nHeightLast ≤ nLastBlockWeCanPrune := by
  induction files generalizing nCurrentUsage with
  | nil => cases hn
  | cons m rest ih =>
    rw [pruneLoop] at hn
    split_ifs at hn with hempty hspace hheight
    · exact ih hn
    · cases hn
    · exact ih hn
    · rcases List.mem_cons.mp hn with rfl | hrest
      · exact not_lt.mp hheight
      · exact ih hrest

theorem findFilesToPrune_height {params : PruneParams} {tipHeight n : Nat} {initialDownload : Bool}
    (hn : n ∈ s.findFilesToPrune params tipHeight initialDownload) :
    (s.info n).nHeightLast ≤ lastBlockWeCanPrune tipHeight := by
  simp only [findFilesToPrune] at hn
  split_ifs at hn
  · cases hn
  all_goals first | exact pruneLoop_height hn | cases hn

theorem findFilesToPruneManual_height {tipHeight nManualPruneHeight n : Nat}
    (hn : n ∈ s.findFilesToPruneManual tipHeight nManualPruneHeight) :
    (s.info n).nHeightLast ≤ lastBlockWeCanPrune tipHeight := by
  rw [findFilesToPruneManual,List.mem_filter,Bool.and_eq_true,decide_eq_true_eq] at hn
  exact le_trans hn.2.2 (min_le_right _ _)

/-- The sizes leave room for one more block, so that the counters do not wrap. -/
structure Placed (data : BlockRecords) (nHeight : BlockHash → Nat) (s : BlockStorage) : Prop where
  blocks : Packed (s.blockExtent data) s.sizes
  undos : Packed (s.undoExtent data) s.undoSizes
  undo_data : ∀ {hash e}, s.mapBlockIndex hash = some e → e.hasUndo = true → e.hasData = true
  heights : ∀ {hash e}, s.mapBlockIndex hash = some e → e.hasData = true → nHeight hash ≤ (s.info e.nFile).nHeightLast
  room : ∀ n, s.sizes n+(MAX_CONSENSUS_BLOCK_SIZE+8) < 2^32

theorem Fresh.placed (h : s.Fresh) : Placed data nHeight s where
  blocks := .empty (extents_none fun hash e he => by simp [BlockPosition.blockExtent,(h.index hash e he).1])
  undos := .empty (extents_none fun hash e he => by simp [BlockPosition.undoExtent,(h.index hash e he).2])
  undo_data {hash e} he hu := by simp [(h.index hash e he).2] at hu
  heights {hash e} he hd := by simp [(h.index hash e he).1] at hd
  room n := by
    rw [sizes,h.info]
    decide

/-- The statistics of a file only grow, up to the room for a block. -/
structure InfoGrows (s t : BlockStorage) : Prop where
  size : ∀ n, s.sizes n ≤ t.sizes n
  undoSize : ∀ n, s.undoSizes n ≤ t.undoSizes n
  height : ∀ n, (s.info n).nHeightLast ≤ (t.info n).nHeightLast
  room : ∀ n, t.sizes n+(MAX_CONSENSUS_BLOCK_SIZE+8) < 2^32

section

variable (h : Placed data nHeight s)

include h

theorem Placed.grow (hgrow : InfoGrows s t) (hmap : t.mapBlockIndex = s.mapBlockIndex) :
    Placed data nHeight t := by
  have hblock : t.blockExtent data = s.blockExtent data := by
    funext hash
    rw [blockExtent,extents,hmap]
    rfl
  have hundo : t.undoExtent data = s.undoExtent data := by
    funext hash
    rw [undoExtent,extents,hmap]
    rfl
  constructor
  · rw [hblock]
    exact h.blocks.mono id fun _ => hgrow.size _
  · rw [hundo]
    exact h.undos.mono id fun _ => hgrow.undoSize _
  · rw [hmap]
    exact h.undo_data
  · intro hash e he hd
    rw [hmap] at he
    exact le_trans (h.heights he hd) (hgrow.height _)
  · exact hgrow.room

theorem Placed.setBlock (hgrow : InfoGrows s t)
    (hmap : t.mapBlockIndex = update s.mapBlockIndex hash (some e)) (hdata : e.hasData = true)
    (hundo : e.hasUndo = false) (hnext : e.nDataPos+(data.block hash).length ≤ t.sizes e.nFile)
    (hclear : ∀ {hash' x}, s.blockExtent data hash' = some x →
      Clear ⟨e.nFile,e.nDataPos-8,e.nDataPos+(data.block hash).length⟩ x)
    (hheight : nHeight hash ≤ (t.info e.nFile).nHeightLast) : Placed data nHeight t := by
  constructor
  · rw [blockExtent,extents_update hmap,BlockPosition.blockExtent,if_pos hdata]
    exact h.blocks.insert hgrow.size hnext hclear
  · have hnone : e.undoExtent (data.undo hash).length = none := by simp [BlockPosition.undoExtent,hundo]
    exact h.undos.mono (extents_of_update hmap hnone) fun _ => hgrow.undoSize _
  · intro hash' e' he' hu
    by_cases hh : hash' = hash
    · subst hh
      rw [hmap,update_self] at he'
      cases he'
      exact hdata
    · rw [hmap,update_of_ne hh] at he'
      exact h.undo_data he' hu
  · intro hash' e' he' hd
    by_cases hh : hash' = hash
    · subst hh
      rw [hmap,update_self] at he'
      cases he'
      exact hheight
    · rw [hmap,update_of_ne hh] at he'
      exact le_trans (h.heights he' hd) (hgrow.height _)
  · exact hgrow.room

theorem Placed.addToBlockIndex (hnew : s.mapBlockIndex hash = none) :
    Placed data nHeight (s.setEntry hash {}) := by
  have hmap : (s.setEntry hash {}).mapBlockIndex = update s.mapBlockIndex hash (some {}) := rfl
  have hold {hash' : BlockHash} {e : BlockPosition} (he : (s.setEntry hash {}).mapBlockIndex hash' = some e)
      (hflag : e.hasData = true ∨ e.hasUndo = true) : s.mapBlockIndex hash' = some e := by
    by_cases hh : hash' = hash
    · subst hh
      rw [hmap,update_self] at he
      cases he
      simp at hflag
    · rwa [hmap,update_of_ne hh] at he
  constructor
  · exact h.blocks.mono (extents_of_update hmap rfl) fun _ => le_refl _
  · exact h.undos.mono (extents_of_update hmap rfl) fun _ => le_refl _
  · intro hash' e he hu
    exact h.undo_data (hold he (.inr hu)) hu
  · intro hash' e he hd
    exact h.heights (hold he (.inl hd)) hd
  · exact h.room

omit h in
theorem InfoGrows.of_entry {n₀ : Nat} {info : CBlockFileInfo}
    (hroom : ∀ n, s.sizes n+(MAX_CONSENSUS_BLOCK_SIZE+8) < 2^32)
    (hinfo : ∀ n, t.info n = if n = n₀ then info else s.info n) (hsize : s.sizes n₀ ≤ info.nSize)
    (hundo : s.undoSizes n₀ ≤ info.nUndoSize) (hheight : (s.info n₀).nHeightLast ≤ info.nHeightLast)
    (hroom₀ : info.nSize+(MAX_CONSENSUS_BLOCK_SIZE+8) < 2^32) : InfoGrows s t := by
  constructor
  · intro n
    rw [sizes,sizes,hinfo]
    split_ifs with hn
    · rw [hn]
      exact hsize
    · exact le_refl _
  · intro n
    rw [undoSizes,undoSizes,hinfo]
    split_ifs with hn
    · rw [hn]
      exact hundo
    · exact le_refl _
  · intro n
    rw [hinfo]
    split_ifs with hn
    · rw [hn]
      exact hheight
    · exact le_refl _
  · intro n
    rw [sizes,hinfo]
    split_ifs
    · exact hroom₀
    · exact hroom n

section

variable (hentry : s.mapBlockIndex hash = some e)

include hentry

theorem Placed.noUndo
    (hdata : e.hasData = false) : e.hasUndo = false := by
  cases hu : e.hasUndo with
  | false => rfl
  | true =>
    rw [h.undo_data hentry hu] at hdata
    cases hdata

theorem Placed.saveKnown
    (hdata : e.hasData = false) {pos : FlatFilePos} (hpos : s.Reindexes data hash pos)
    (hroom : pos.nPos+((data.block hash).length+8)+(MAX_CONSENSUS_BLOCK_SIZE+8) < 2^32) (nTime : Nat)
    (blkFault revFault : FlushFault) (space opens : Bool) :
    Placed data nHeight (s.acceptBlock data hash e (nHeight hash) nTime (some pos) blkFault revFault space opens) := by
  obtain ⟨hinfo,hmap⟩ := acceptBlock_reindexes s data hash e (nHeight hash) nTime pos blkFault revFault space opens
  have hadd : addUInt32 pos.nPos ((data.block hash).length+8) = pos.nPos+((data.block hash).length+8) :=
    Nat.mod_eq_of_lt (lt_of_le_of_lt (Nat.le_add_right _ _) hroom)
  generalize s.acceptBlock data hash e (nHeight hash) nTime (some pos) blkFault revFault space opens = t at hinfo hmap ⊢
  simp only [placeBlock_info,if_true,hadd] at hinfo
  have hgrow : InfoGrows s t := .of_entry h.room hinfo (le_max_right _ _) le_rfl (le_max_right _ _) (by
    have hold : (s.info pos.nFile).nSize+(MAX_CONSENSUS_BLOCK_SIZE+8) < 2^32 := h.room pos.nFile
    dsimp only
    omega)
  have hlast := hinfo pos.nFile
  rw [if_pos rfl] at hlast
  have hundo : e.hasUndo = false := h.noUndo hentry hdata
  refine h.setBlock hgrow hmap rfl hundo ?_ hpos.clear ?_
  · show pos.nPos+(data.block hash).length ≤ (t.info pos.nFile).nSize
    rw [hlast]
    exact le_trans (Nat.add_le_add_left (Nat.le_add_right _ _) _) (le_max_left _ _)
  · rw [hlast]
    exact le_max_left _ _

omit hentry in
theorem Placed.newSize {nAddSize : Nat} (hadd : nAddSize ≤ MAX_CONSENSUS_BLOCK_SIZE+8) :
    addUInt32 (s.newBlockPos nAddSize).nPos nAddSize = (s.newBlockPos nAddSize).nPos+nAddSize ∧
      (s.newBlockPos nAddSize).nPos+nAddSize+(MAX_CONSENSUS_BLOCK_SIZE+8) < 2^32 := by
  have hroom : (s.newBlockPos nAddSize).nPos+(MAX_CONSENSUS_BLOCK_SIZE+8) < 2^32 := h.room _
  have hfile := newBlockPos_room s nAddSize
  generalize (s.newBlockPos nAddSize).nPos = nPos at hroom hfile ⊢
  rw [addUInt32,Nat.mod_eq_of_lt (by omega)] at hfile ⊢
  rw [MAX_BLOCKFILE_SIZE] at hfile
  rw [MAX_CONSENSUS_BLOCK_SIZE] at *
  exact ⟨rfl,by omega⟩

theorem Placed.saveNew
    (hdata : e.hasData = false) (hsize : (data.block hash).length ≤ MAX_CONSENSUS_BLOCK_SIZE) (nTime : Nat)
    (blkFault revFault : FlushFault) (space opens : Bool) :
    Placed data nHeight (s.acceptBlock data hash e (nHeight hash) nTime none blkFault revFault space opens) := by
  obtain ⟨hadd,hroom⟩ := h.newSize (Nat.add_le_add_right hsize 8)
  have hfirst : s.sizes (s.newBlockPos ((data.block hash).length+8)).nFile =
      (s.newBlockPos ((data.block hash).length+8)).nPos := rfl
  obtain ⟨pos,hpos⟩ : ∃ pos, s.newBlockPos ((data.block hash).length+8) = pos := ⟨_,rfl⟩
  obtain ⟨hinfo,hmap⟩ := acceptBlock_appends s data hash e (nHeight hash) nTime blkFault revFault space opens hpos
  rw [hpos] at hadd hroom hfirst
  generalize s.acceptBlock data hash e (nHeight hash) nTime none blkFault revFault space opens = t at hinfo hmap ⊢
  simp only [placeBlock_info,Bool.false_eq_true,if_false] at hinfo
  rw [show (s.info pos.nFile).nSize = pos.nPos from hfirst,hadd] at hinfo
  have hgrow : InfoGrows s t := .of_entry h.room hinfo (by rw [hfirst]; exact Nat.le_add_right _ _) le_rfl
    (le_max_right _ _) hroom
  have hlast := hinfo pos.nFile
  rw [if_pos rfl] at hlast
  rcases hmap with hmap | hmap
  · exact h.grow hgrow hmap
  have hundo : e.hasUndo = false := h.noUndo hentry hdata
  have hnext : pos.nPos+8+(data.block hash).length ≤ t.sizes pos.nFile := by
    rw [sizes,hlast,Nat.add_right_comm]
    exact le_refl _
  have hclear {hash' : BlockHash} {x : Extent} (hx : s.blockExtent data hash' = some x) :
      Clear ⟨pos.nFile,pos.nPos+8-8,pos.nPos+8+(data.block hash).length⟩ x := by
    apply h.blocks.clear_end _ hx
    rw [Nat.add_sub_cancel]
    exact le_of_eq hfirst
  have hheight : nHeight hash ≤ (t.info pos.nFile).nHeightLast := by
    rw [hlast]
    exact le_max_left _ _
  exact h.setBlock hgrow hmap rfl hundo hnext hclear hheight

omit hentry in
theorem Placed.setUndo (hgrow : InfoGrows s t) (hentry : s.mapBlockIndex hash = some e)
    (hdata : e.hasData = true) {nUndoPos : Nat}
    (hmap : t.mapBlockIndex = update s.mapBlockIndex hash (some { e with nUndoPos, hasUndo := true }))
    (hfirst : s.undoSizes e.nFile ≤ nUndoPos-8) (hnext : nUndoPos+(data.undo hash).length+32 ≤ t.undoSizes e.nFile) :
    Placed data nHeight t := by
  have hcases {hash' : BlockHash} {e' : BlockPosition} (he' : t.mapBlockIndex hash' = some e') :
      ∃ e₀, s.mapBlockIndex hash' = some e₀ ∧ e'.nFile = e₀.nFile ∧ e'.hasData = e₀.hasData ∧
        (e' = e₀ ∨ e'.hasData = true) := by
    by_cases hh : hash' = hash
    · subst hh
      rw [hmap,update_self] at he'
      cases he'
      exact ⟨e,hentry,rfl,rfl,.inr hdata⟩
    · rw [hmap,update_of_ne hh] at he'
      exact ⟨e',he',rfl,rfl,.inl rfl⟩
  constructor
  · have hblock : t.blockExtent data = s.blockExtent data := by
      rw [blockExtent,extents_update hmap]
      apply update_eq_self_iff.mpr
      rw [extents,hentry]
      rfl
    rw [hblock]
    exact h.blocks.mono id fun _ => hgrow.size _
  · rw [undoExtent,extents_update hmap,BlockPosition.undoExtent,if_pos rfl]
    exact h.undos.insert hgrow.undoSize hnext (h.undos.clear_end hfirst)
  · intro hash' e' he' hu
    obtain ⟨e₀,he₀,_,_,rfl | hd⟩ := hcases he'
    · exact h.undo_data he₀ hu
    · exact hd
  · intro hash' e' he' hd
    obtain ⟨e₀,he₀,hfile,hsame,_⟩ := hcases he'
    rw [hfile]
    exact le_trans (h.heights he₀ (hsame ▸ hd)) (hgrow.height _)
  · exact hgrow.room

theorem Placed.writeUndo (hdata : e.hasData = true)
    (htotal : (s.info e.nFile).nUndoSize+((data.undo hash).length+40) < 2^32) (space opens : Bool) :
    Placed data nHeight (s.writeUndoDataForBlock data hash e space opens) := by
  cases hundo : e.hasUndo with
  | true => simpa [writeUndoDataForBlock,hundo] using h
  | false =>
    obtain ⟨hfiles,hmap⟩ := writeUndoDataForBlock_appends s data hash hundo space opens
    generalize s.writeUndoDataForBlock data hash e space opens = t at hfiles hmap ⊢
    have hinfo (n : Nat) : t.info n = if n = e.nFile then
        { s.info e.nFile with nUndoSize := (s.info e.nFile).nUndoSize+((data.undo hash).length+40) }
        else s.info n := by
      rw [info,hfiles,getD_modifyInfo]
      split_ifs
      · rw [← info,addUInt32,Nat.mod_eq_of_lt htotal]
      · rfl
    have hgrow : InfoGrows s t := .of_entry h.room hinfo le_rfl (Nat.le_add_right _ _) le_rfl (h.room _)
    rcases hmap with hmap | hmap
    · exact h.grow hgrow hmap
    · apply h.setUndo hgrow hentry hdata hmap
      · rw [Nat.add_sub_cancel]
      · rw [undoSizes,hinfo,if_pos rfl]
        show (s.info e.nFile).nUndoSize+8+(data.undo hash).length+32 ≤
          (s.info e.nFile).nUndoSize+((data.undo hash).length+40)
        omega
end

theorem Placed.pruneFiles (files : List Nat) : Placed data nHeight (s.pruneFiles files) := by
  have hinfo {n : Nat} (hn : n ∉ files) : (s.pruneFiles files).info n = s.info n := by
    rw [pruneFiles_info,if_neg hn]
  have hblock {hash : BlockHash} {x : Extent} (hx : (s.pruneFiles files).blockExtent data hash = some x) :
      s.blockExtent data hash = some x ∧ x.nFile ∉ files :=
    extents_pruneFiles rfl (fun _ _ => blockExtent_nFile) hx
  have hundo {hash : BlockHash} {x : Extent} (hx : (s.pruneFiles files).undoExtent data hash = some x) :
      s.undoExtent data hash = some x ∧ x.nFile ∉ files :=
    extents_pruneFiles rfl (fun _ _ => undoExtent_nFile) hx
  constructor
  · refine h.blocks.mono (fun hx => (hblock hx).1) fun hx => ?_
    rw [sizes,sizes,hinfo (hblock hx).2]
  · refine h.undos.mono (fun hx => (hundo hx).1) fun hx => ?_
    rw [undoSizes,undoSizes,hinfo (hundo hx).2]
  · intro hash e he hu
    rcases pruneFiles_entry_cases he with rfl | ⟨hs,_⟩
    · cases hu
    · exact h.undo_data hs hu
  · intro hash e he hd
    rcases pruneFiles_entry_cases he with rfl | ⟨hs,hfile⟩
    · cases hd
    · rw [hinfo hfile]
      exact h.heights hs hd
  · intro n
    rw [sizes,pruneFiles_info]
    split_ifs
    · decide
    · exact h.room n
end

def KeepsFlags (s : BlockStorage) (hash : BlockHash) (e : BlockPosition) : Prop :=
  ∃ e', s.mapBlockIndex hash = some e' ∧ e'.hasData = e.hasData ∧ e'.hasUndo = e.hasUndo

theorem Placed.prune_flags (h : Placed data nHeight s) (hentry : s.mapBlockIndex hash = some e)
    (hfiles : ∀ n ∈ files, (s.info n).nHeightLast < nHeight hash) : (s.pruneFiles files).KeepsFlags hash e := by
  refine ⟨_,pruneFiles_map hentry files,?_⟩
  cases hd : e.hasData with
  | true =>
    have hmem : e.nFile ∉ files := fun hmem => absurd (h.heights hentry hd) (not_le.mpr (hfiles _ hmem))
    rw [if_neg hmem]
    exact ⟨hd,rfl⟩
  | false =>
    have hu := h.noUndo hentry hd
    split_ifs
    · exact ⟨rfl,hu.symm⟩
    · exact ⟨hd,rfl⟩
end BlockStorage

theorem FlatFileSeq.flush_holds {files : FlatFileSeq} {pos : FlatFilePos} {n first : Nat} {record : List UInt8}
    (h : HoldsAt (files.openFile n).contents first record)
    (hend : n = pos.nFile → first+record.length ≤ pos.nPos) (finalize : Bool) (fault : FlushFault) :
    HoldsAt ((files.flush pos finalize fault).1.openFile n).contents first record := by
  by_cases hn : n = pos.nFile
  · have hcut : HoldsAt (if finalize then (files.openFile pos.nFile).truncate pos.nPos
        else files.openFile pos.nFile).contents first record := by
      rw [hn] at h
      split_ifs
      · exact h.truncate (hend hn)
      · exact h
    cases fault with
    | none => simpa only [flush,openFile_set,if_pos hn,sync] using hcut
    | openFile => exact h
    | truncateFile =>
      rw [hn] at h
      cases finalize with
      | true => simpa only [flush,if_true,openFile_set,if_pos hn] using h
      | false => simpa only [flush,Bool.false_eq_true,if_false,openFile_set,if_pos hn,sync] using h
    | fileCommit => simpa only [flush,openFile_set,if_pos hn] using hcut
  · cases fault with
    | none => simpa only [flush,openFile_set,if_neg hn] using h
    | openFile => exact h
    | truncateFile =>
      cases finalize with
      | true => simpa only [flush,if_true,openFile_set,if_neg hn] using h
      | false => simpa only [flush,Bool.false_eq_true,if_false,openFile_set,if_neg hn] using h
    | fileCommit => simpa only [flush,openFile_set,if_neg hn] using h

/-- What is held at an extent is still held in the other files. -/
def FlatFileSeq.KeepsAt (files files' : FlatFileSeq) (x : Extent) : Prop :=
  ∀ record, x.first+record.length = x.next → HoldsAt (files.openFile x.nFile).contents x.first record →
    HoldsAt (files'.openFile x.nFile).contents x.first record

/-- Records do not overlap, leaving a file cuts none of them, and pruning keeps the last blocks. -/
structure ExtentsSound (data : BlockRecords) (nHeight : BlockHash → Nat) (s : BlockStorage) : Prop where
  blocks : Packed (s.blockExtent data) s.sizes
  undos : Packed (s.undoExtent data) s.undoSizes
  leave : ∀ {hash x} blkFault revFault,
    (s.blockExtent data hash = some x → s.blk.KeepsAt (s.flushBlockFile true blkFault revFault).blk x) ∧
    (s.undoExtent data hash = some x → s.rev.KeepsAt (s.flushBlockFile true blkFault revFault).rev x)
  heights : ∀ {hash e}, s.mapBlockIndex hash = some e → e.hasData = true → nHeight hash ≤ (s.info e.nFile).nHeightLast
  prune : ∀ {hash e tipHeight}, s.mapBlockIndex hash = some e → MIN_BLOCKS_TO_KEEP ≤ tipHeight →
    tipHeight-MIN_BLOCKS_TO_KEEP < nHeight hash →
    (∀ params initialDownload,
      (s.pruneFiles (s.findFilesToPrune params tipHeight initialDownload)).KeepsFlags hash e) ∧
    ∀ nManualPruneHeight, (s.pruneFiles (s.findFilesToPruneManual tipHeight nManualPruneHeight)).KeepsFlags hash e

section Runs

variable {data : BlockRecords} {nHeight : BlockHash → Nat} {s s' start : BlockStorage}

theorem BlockStorage.Placed.sound (h : s.Placed data nHeight) : ExtentsSound data nHeight s where
  blocks := h.blocks
  undos := h.undos
  leave blkFault revFault := by
    constructor
    · intro hx record hlen hheld
      apply FlatFileSeq.flush_holds hheld
      intro hlast
      have hwithin := h.blocks.within hx
      rw [hlast] at hwithin
      rw [hlen]
      exact hwithin
    · intro hx record hlen hheld
      apply FlatFileSeq.flush_holds hheld
      intro hlast
      have hwithin := h.undos.within hx
      rw [hlast] at hwithin
      rw [hlen]
      exact hwithin
  heights := h.heights
  prune hentry htip hheight := by
    have hlow {n : Nat} (hn : (s.info n).nHeightLast ≤ BlockStorage.lastBlockWeCanPrune _) :=
      lt_of_le_of_lt (le_trans hn (BlockStorage.lastBlockWeCanPrune_le htip)) hheight
    constructor
    · intro params initialDownload
      exact h.prune_flags hentry fun n hn => hlow (BlockStorage.findFilesToPrune_height hn)
    · intro nManualPruneHeight
      exact h.prune_flags hentry fun n hn => hlow (BlockStorage.findFilesToPruneManual_height hn)

theorem FileStep.placed {event : FileEvent} (h : s.Placed data nHeight) (hguard : LeavesRoom data s event)
    (hstep : FileStep data nHeight s event s') : s'.Placed data nHeight := by
  cases hstep with
  | addToBlockIndex hnew => exact h.addToBlockIndex hnew
  | @saveBlock hash e nTime dbp blkFault revFault space opens hentry hdata hsize hdbp =>
    cases dbp with
    | none => exact h.saveNew hentry hdata hsize nTime blkFault revFault space opens
    | some pos => exact h.saveKnown hentry hdata (hdbp pos rfl) hguard nTime blkFault revFault space opens
  | @writeUndo hash e space opens hentry hdata htotal => exact h.writeUndo hentry hdata htotal space opens
  | findFilesToPrune => exact h.pruneFiles _
  | findFilesToPruneManual => exact h.pruneFiles _

/-- In every run in which the reindexed records leave room for another block below 4 GiB. -/
theorem block_files_sound (hstart : start.Fresh)
    (hrun : Reaches (FileStep data nHeight) (LeavesRoom data) start s) : ExtentsSound data nHeight s := by
  have hplaced : s.Placed data nHeight := hrun.invariant hstart.placed FileStep.placed
  exact hplaced.sound
end Runs

def zeroRecords : BlockRecords where
  diskMagic := List.replicate 4 0
  block _ := List.replicate 100 0
  undo _ := []
  checksum _ := List.replicate 32 0
  diskMagic_length := rfl
  checksum_length _ := rfl

def unindexed (blk : FlatFileSeq) : BlockStorage where
  blk := blk
  rev _ := none
  vinfoBlockFile := []
  nLastBlockFile := 0
  setDirtyFileInfo _ := false
  mapBlockIndex _ := some {}
  setDirtyBlockIndex _ := false
  blockTree := { index := fun _ => none, fileInfo := fun _ => none, lastFile := 0 }

theorem unindexed_fresh (blk : FlatFileSeq) : (unindexed blk).Fresh where
  info _ := rfl
  index _ e he := by
    cases he
    exact ⟨rfl,rfl⟩

theorem unindexed_blockExtent (blk : FlatFileSeq) (hash : BlockHash) :
    (unindexed blk).blockExtent zeroRecords hash = none := rfl

def recordAfter (n : Nat) (hash : BlockHash) : FlatFileSeq :=
  let bytes := List.replicate n 0++zeroRecords.blockRecord hash
  FlatFileSeq.set (fun _ => none) 0 { contents := bytes, durable := bytes }

theorem recordAfter_reindexes {n : Nat} (hn : n+8 < 2^32) (hash : BlockHash) :
    (unindexed (recordAfter n hash)).Reindexes zeroRecords hash ⟨0,n+8⟩ := by
  have hheld : HoldsAt (List.replicate n 0++zeroRecords.blockRecord hash) (n+8-8) (zeroRecords.blockRecord hash) := by
    intro i _
    rw [Nat.add_sub_cancel,List.getElem?_append_right (by simp),List.length_replicate,Nat.add_sub_cancel_left]
  have hopen : (recordAfter n hash).openFile 0 =
      ⟨List.replicate n 0++zeroRecords.blockRecord hash,List.replicate n 0++zeroRecords.blockRecord hash⟩ := by
    rw [recordAfter,FlatFileSeq.openFile_set,if_pos rfl]
  refine ⟨⟨Nat.le_add_left _ _,?_,?_⟩,hn,fun hx => ?_⟩
  · rw [show (unindexed (recordAfter n hash)).blk = recordAfter n hash from rfl,hopen]
    exact hheld
  · rw [show (unindexed (recordAfter n hash)).blk = recordAfter n hash from rfl,hopen]
    exact hheld
  · rw [unindexed_blockExtent] at hx
    cases hx

theorem recordAfter_step {n : Nat} (hn : n+8 < 2^32) : ∃ s,
    FileStep zeroRecords (fun _ => 0) (unindexed (recordAfter n 0))
      (.saveBlock 0 0 (some ⟨0,n+8⟩) .none .none true true) s ∧
    s.blockExtent zeroRecords 0 = some ⟨0,n+8-8,n+8+100⟩ ∧ s.sizes 0 = (n+116)%2^32 := by
  have hlen : (zeroRecords.block 0).length = 100 := List.length_replicate
  have hsmall : (zeroRecords.block 0).length ≤ MAX_CONSENSUS_BLOCK_SIZE := by
    rw [hlen]
    decide
  have hreads : ∀ pos, some ⟨0,n+8⟩ = some pos → (unindexed (recordAfter n 0)).Reindexes zeroRecords 0 pos := by
    intro pos hpos
    cases hpos
    exact recordAfter_reindexes hn 0
  obtain ⟨hinfo,hmap⟩ := BlockStorage.acceptBlock_reindexes (unindexed (recordAfter n 0)) zeroRecords 0 {} 0 0 ⟨0,n+8⟩
    .none .none true true
  refine ⟨_,.saveBlock rfl rfl hsmall hreads,?_,?_⟩
  · rw [BlockStorage.blockExtent,BlockStorage.extents_update hmap,update_self,BlockPosition.blockExtent,if_pos rfl,hlen]
  · rw [BlockStorage.sizes,hinfo,BlockStorage.placeBlock_info,if_pos rfl,if_pos rfl,hlen]
    exact Nat.max_zero _

theorem block_files_sound_reindex : ∃ s,
    Reaches (FileStep zeroRecords fun _ => 0) (LeavesRoom zeroRecords) (unindexed (recordAfter 0 0)) s ∧
      s.blockExtent zeroRecords 0 = some ⟨0,0,108⟩ ∧ ExtentsSound zeroRecords (fun _ => 0) s := by
  obtain ⟨s,hstep,hextent,_⟩ := recordAfter_step (show 0+8 < 2^32 by decide)
  have hroom : LeavesRoom zeroRecords (unindexed (recordAfter 0 0))
      (.saveBlock 0 0 (some ⟨0,0+8⟩) .none .none true true) := by
    rw [LeavesRoom,show (zeroRecords.block 0).length = 100 from List.length_replicate]
    decide
  have hrun := Reaches.tail .refl hroom hstep
  exact ⟨s,hrun,hextent,block_files_sound (unindexed_fresh _) hrun⟩

theorem block_files_wrap : ∃ (data : BlockRecords) (nHeight : BlockHash → Nat) (start s : BlockStorage),
    start.Fresh ∧ Reaches (FileStep data nHeight) (fun _ _ => True) start s ∧
      (∃ x, s.blockExtent data 0 = some x ∧ x.nFile = 0) ∧ s.sizes 0 = 0 ∧
      ¬ Packed (s.blockExtent data) s.sizes := by
  obtain ⟨n,hn⟩ : ∃ n, n+116 = 2^32 := ⟨2^32-116,rfl⟩
  obtain ⟨s,hstep,hextent,hsize⟩ := recordAfter_step (show n+8 < 2^32 by omega)
  rw [hn,Nat.mod_self] at hsize
  refine ⟨zeroRecords,fun _ => 0,_,s,unindexed_fresh _,.tail .refl trivial hstep,⟨_,hextent,rfl⟩,hsize,fun h => ?_⟩
  have hwithin : n+8+100 ≤ s.sizes 0 := h.within hextent
  rw [hsize] at hwithin
  omega
end BitfiniteCore
