import BitfiniteCore.Storage.BlockFiles

/-! # The written index refers to durable bytes -/

namespace BitfiniteCore
open Function DurableFile GuardedRun List

/-- A record at `nPos` of file `nFile`, in files of which all but the last are durable where used. -/
structure RecordKept (files : FlatFileSeq) (size : Nat → Nat) (last nFile nPos : Nat) (record : List UInt8) :
    Prop where
  header : 8 ≤ nPos
  within : nPos-8+record.length ≤ size nFile
  held : HoldsAt (files.openFile nFile).contents (nPos-8) record
  durable : nFile ≠ last → HoldsAt (files.openFile nFile).durable (nPos-8) record

namespace RecordKept

variable {files : FlatFileSeq} {size : Nat → Nat} {last nFile nPos : Nat} {record : List UInt8}

section

variable (h : RecordKept files size last nFile nPos record)

include h

theorem grow {size' : Nat → Nat}
    (hle : size nFile ≤ size' nFile) : RecordKept files size' last nFile nPos record :=
  { h with within := h.within.trans hle }

theorem set {n : Nat} {f : DurableFile UInt8}
    (hheld : nFile = n → HoldsAt (files.openFile n).contents (nPos-8) record → HoldsAt f.contents (nPos-8) record)
    (hdur : f.durable = (files.openFile n).durable) :
    RecordKept (files.set n f) size last nFile nPos record := by
  by_cases hn : nFile = n
  · subst hn
    refine ⟨h.header,h.within,?_,?_⟩
    · rw [FlatFileSeq.openFile_set,if_pos rfl]
      exact hheld rfl h.held
    · intro hlast
      rw [FlatFileSeq.openFile_set,if_pos rfl,hdur]
      exact h.durable hlast
  · refine ⟨h.header,h.within,?_,?_⟩
    · rw [FlatFileSeq.openFile_set,if_neg hn]
      exact h.held
    · intro hlast
      rw [FlatFileSeq.openFile_set,if_neg hn]
      exact h.durable hlast

theorem allocate (chunkSize : Nat) (pos : FlatFilePos)
    (addSize : Nat) (space : Bool) :
    RecordKept (files.allocate chunkSize pos addSize space).1 size last nFile nPos record := by
  simp only [FlatFileSeq.allocate]
  split_ifs
  · exact h.set (fun _ hheld => hheld.extend _) rfl
  · exact h
  · exact h

theorem write {pos : FlatFilePos}
    (hpos : size pos.nFile ≤ pos.nPos) (bytes : List UInt8) :
    RecordKept (files.write pos bytes) size last nFile nPos record := by
  unfold FlatFileSeq.write
  refine h.set ?_ rfl
  intro hn hheld
  apply hheld.writeAt
  exact h.within.trans (hn ▸ hpos)

theorem flush (finalize : Bool) (last' : Nat) :
    RecordKept (files.flush ⟨last,size last⟩ finalize .none).1 size last' nFile nPos record := by
  by_cases hn : nFile = last
  · subst hn
    have hheld : HoldsAt (if finalize then (files.openFile nFile).truncate (size nFile)
        else files.openFile nFile).contents (nPos-8) record := by
      split_ifs
      · exact h.held.truncate h.within
      · exact h.held
    refine ⟨h.header,h.within,?_,?_⟩
    · simp only [FlatFileSeq.flush,FlatFileSeq.openFile_set,if_pos]
      exact hheld
    · intro _
      simp only [FlatFileSeq.flush,FlatFileSeq.openFile_set,if_pos]
      exact hheld
  · refine ⟨h.header,h.within,?_,?_⟩
    · simp only [FlatFileSeq.flush,FlatFileSeq.openFile_set,if_neg hn]
      exact h.held
    · intro _
      simp only [FlatFileSeq.flush,FlatFileSeq.openFile_set,if_neg hn]
      exact h.durable hn
end

theorem ofWrite (files : FlatFileSeq) {pos : FlatFilePos} (hwithin : pos.nPos+record.length ≤ size pos.nFile) :
    RecordKept (files.write pos record) size pos.nFile pos.nFile (pos.nPos+8) record := by
  refine ⟨by omega,by omega,?_,fun hlast => absurd rfl hlast⟩
  rw [FlatFileSeq.write,FlatFileSeq.openFile_set,if_pos rfl,Nat.add_sub_cancel]
  exact writeAt_holds _ _ _
end RecordKept

theorem getD_modifyInfo (infos : List CBlockFileInfo) (n m : Nat) (f : CBlockFileInfo → CBlockFileInfo) :
    (modifyInfo infos n f).getD m {} = if m = n then f (infos.getD n {}) else infos.getD m {} := by
  have hget (i : Nat) : (infos++replicate (n+1-infos.length) ({} : CBlockFileInfo)).getD i {} =
      infos.getD i {} := by
    simp only [getD_eq_getElem?_getD]
    by_cases hi : i < infos.length
    · rw [getElem?_append_left hi]
    · rw [getElem?_append_right (by omega),getElem?_eq_none (Nat.le_of_not_lt hi),getElem?_replicate]
      split_ifs <;> rfl
  have hlen : n < (infos++replicate (n+1-infos.length) ({} : CBlockFileInfo)).length := by
    simp only [length_append,length_replicate]
    omega
  simp only [modifyInfo,getD_eq_getElem?_getD,getElem?_modify] at hget ⊢
  by_cases hm : m = n
  · subst hm
    rw [if_pos rfl,← hget,getElem?_eq_getElem hlen]
    simp
  · rw [if_neg hm,← hget]
    simp [Ne.symm hm]

namespace BlockStorage

variable {s : BlockStorage}

theorem info_addToFile (n m : Nat) (f : CBlockFileInfo → CBlockFileInfo) :
    (s.addToFile n f).info m = if m = n then f (s.info n) else s.info m := getD_modifyInfo _ n m f

abbrev sizes (s : BlockStorage) (n : Nat) : Nat := (s.info n).nSize

abbrev undoSizes (s : BlockStorage) (n : Nat) : Nat := (s.info n).nUndoSize

/-- The records of an entry, in files used up to the given sizes. -/
structure EntryKept (data : BlockRecords) (s : BlockStorage) (size undoSize : Nat → Nat) (hash : BlockHash)
    (e : BlockPosition) : Prop where
  block : e.hasData → RecordKept s.blk size s.nLastBlockFile e.nFile e.nDataPos (data.blockRecord hash)
  undo : e.hasUndo → RecordKept s.rev undoSize s.nLastBlockFile e.nFile e.nUndoPos (data.undoRecord hash)
  undo_data : e.hasUndo → e.hasData

def KeptUpTo (data : BlockRecords) (s : BlockStorage) (size undoSize : Nat → Nat) : Prop :=
  ∀ hash e, s.mapBlockIndex hash = some e → EntryKept data s size undoSize hash e

def Kept (data : BlockRecords) (s : BlockStorage) : Prop := KeptUpTo data s s.sizes s.undoSizes

variable {data : BlockRecords} {size undoSize : Nat → Nat}

section

variable (h : KeptUpTo data s size undoSize)

include h

theorem KeptUpTo.grow {size' undoSize' : Nat → Nat}
    (hsize : ∀ n, size n ≤ size' n) (hundo : ∀ n, undoSize n ≤ undoSize' n) :
    KeptUpTo data s size' undoSize' := by
  intro hash e he
  have hk := h hash e he
  exact ⟨fun hd => (hk.block hd).grow (hsize _),fun hu => (hk.undo hu).grow (hundo _),hk.undo_data⟩

theorem KeptUpTo.setEntry {hash : BlockHash} {e : BlockPosition}
    (he : EntryKept data s size undoSize hash e) : KeptUpTo data (s.setEntry hash e) size undoSize := by
  intro hash' e' he'
  by_cases hh : hash' = hash
  · subst hh
    obtain rfl : e = e' := by simpa [BlockStorage.setEntry] using he'
    exact ⟨he.block,he.undo,he.undo_data⟩
  · have hold : s.mapBlockIndex hash' = some e' := by simpa [BlockStorage.setEntry,hh] using he'
    have hk := h hash' e' hold
    exact ⟨hk.block,hk.undo,hk.undo_data⟩

theorem KeptUpTo.addToFile (n : Nat) (f : CBlockFileInfo → CBlockFileInfo) :
    KeptUpTo data (s.addToFile n f) size undoSize := by
  intro hash e he
  have hk := h hash e he
  exact ⟨hk.block,hk.undo,hk.undo_data⟩

theorem KeptUpTo.withBlk (blk : FlatFileSeq)
    (hblk : ∀ {nFile nPos record}, RecordKept s.blk size s.nLastBlockFile nFile nPos record →
      RecordKept blk size s.nLastBlockFile nFile nPos record) : KeptUpTo data { s with blk } size undoSize := by
  intro hash e he
  have hk := h hash e he
  exact ⟨fun hd => hblk (hk.block hd),hk.undo,hk.undo_data⟩

theorem KeptUpTo.withRev (rev : FlatFileSeq)
    (hrev : ∀ {nFile nPos record}, RecordKept s.rev undoSize s.nLastBlockFile nFile nPos record →
      RecordKept rev undoSize s.nLastBlockFile nFile nPos record) : KeptUpTo data { s with rev } size undoSize := by
  intro hash e he
  have hk := h hash e he
  exact ⟨hk.block,fun hu => hrev (hk.undo hu),hk.undo_data⟩
end

theorem Kept.flushTo (h : Kept data s) (fFinalize : Bool) (last : Nat) :
    Kept data { s.flushBlockFile fFinalize .none .none with nLastBlockFile := last } := by
  intro hash e he
  have hk := h hash e he
  exact ⟨fun hd => (hk.block hd).flush fFinalize last,fun hu => (hk.undo hu).flush fFinalize last,hk.undo_data⟩

theorem Kept.enterFile (h : Kept data s) (nFile : Nat) (fFinalize : Bool) :
    Kept data (s.enterFile nFile fFinalize .none .none) := by
  unfold BlockStorage.enterFile
  split_ifs
  · exact h.flushTo fFinalize nFile
  · exact h

theorem enterFile_last (nFile : Nat) (fFinalize : Bool) (blkFault revFault : FlushFault) :
    (s.enterFile nFile fFinalize blkFault revFault).nLastBlockFile = nFile := by
  unfold BlockStorage.enterFile
  split_ifs with hn
  · rfl
  · exact (not_not.mp hn).symm

theorem enterFile_info (nFile n : Nat) (fFinalize : Bool) (blkFault revFault : FlushFault) :
    (s.enterFile nFile fFinalize blkFault revFault).info n = s.info n := by
  unfold BlockStorage.enterFile
  split_ifs <;> rfl

theorem enterFile_blk (nFile : Nat) (fFinalize : Bool) :
    (s.enterFile nFile fFinalize .none .none).blk.openFile nFile = s.blk.openFile nFile := by
  unfold BlockStorage.enterFile
  split_ifs with hn
  · simp only [BlockStorage.flushBlockFile,FlatFileSeq.flush,FlatFileSeq.openFile_set,if_neg hn]
  · rfl

section Steps

variable {hash : BlockHash} {e : BlockPosition} {pos : FlatFilePos} {nAddSize nHeight nTime : Nat}

theorem placeBlock_last (s : BlockStorage) (pos : FlatFilePos) (fKnown : Bool) (nAddSize nHeight nTime : Nat)
    (blkFault revFault : FlushFault) : (s.placeBlock pos fKnown nAddSize nHeight nTime blkFault revFault).nLastBlockFile = pos.nFile :=
  enterFile_last _ _ _ _

theorem placeBlock_info (s : BlockStorage) (pos : FlatFilePos) (fKnown : Bool) (nAddSize nHeight nTime : Nat)
    (blkFault revFault : FlushFault) (n : Nat) :
    (s.placeBlock pos fKnown nAddSize nHeight nTime blkFault revFault).info n = if n = pos.nFile then
        { (s.info pos.nFile).addBlock nHeight nTime with
          nSize := if fKnown then max (addUInt32 pos.nPos nAddSize) (s.info pos.nFile).nSize
            else addUInt32 (s.info pos.nFile).nSize nAddSize }
      else s.info n := by
  rw [placeBlock,info_addToFile]
  simp only [enterFile_info]

theorem Kept.placeBlock (h : Kept data s) (pos : FlatFilePos) (fKnown : Bool) (nAddSize nHeight nTime : Nat) :
    KeptUpTo data (s.placeBlock pos fKnown nAddSize nHeight nTime .none .none) s.sizes s.undoSizes := by
  apply KeptUpTo.addToFile
  have hk := h.enterFile pos.nFile (!fKnown)
  have hs : (s.enterFile pos.nFile (!fKnown) .none .none).sizes = s.sizes := by
    funext n
    rw [sizes,enterFile_info]
  have hu : (s.enterFile pos.nFile (!fKnown) .none .none).undoSizes = s.undoSizes := by
    funext n
    rw [undoSizes,enterFile_info]
  rw [Kept,hs,hu] at hk
  exact hk

theorem placeBlock_grows (s : BlockStorage) (pos : FlatFilePos) (fKnown : Bool) (nAddSize nHeight nTime : Nat)
    (hfits : fKnown = false → (s.info pos.nFile).nSize+nAddSize < 2^32) (n : Nat) :
    s.sizes n ≤ (s.placeBlock pos fKnown nAddSize nHeight nTime .none .none).sizes n ∧
      s.undoSizes n ≤ (s.placeBlock pos fKnown nAddSize nHeight nTime .none .none).undoSizes n := by
  simp only [sizes,undoSizes,placeBlock_info]
  split_ifs with hn hk
  · subst hn
    exact ⟨le_max_right _ _,le_refl _⟩
  · subst hn
    rw [addUInt32,Nat.mod_eq_of_lt (hfits (by simpa using hk))]
    exact ⟨Nat.le_add_right _ _,le_refl _⟩
  · exact ⟨le_refl _,le_refl _⟩

theorem Kept.acceptKnown (h : Kept data s) (hentry : s.mapBlockIndex hash = some e) (hdata : e.hasData = false)
    (hread : s.ReadsBlock data hash pos) (hfits : pos.nPos+((data.block hash).length+8) < 2^32)
    (nHeight nTime : Nat) (space opens : Bool) :
    Kept data (s.acceptBlock data hash e nHeight nTime (some pos) .none .none space opens) := by
  have hgrow := placeBlock_grows s pos true ((data.block hash).length+8) nHeight nTime nofun
  have hkept := (h.placeBlock pos true ((data.block hash).length+8) nHeight nTime).grow
    (fun n => (hgrow n).1) (fun n => (hgrow n).2)
  apply hkept.setEntry
  obtain ⟨hheader,hheld,hdur⟩ := hread
  rw [← enterFile_blk pos.nFile false] at hheld hdur
  refine ⟨fun _ => ⟨hheader,?_,hheld,fun _ => hdur⟩,fun hu => ?_,fun _ => rfl⟩
  · simp only [sizes,placeBlock_info,if_pos,addUInt32,Nat.mod_eq_of_lt hfits,data.blockRecord_length]
    omega
  · exact absurd ((h hash e hentry).undo_data hu) (by simp [hdata])

theorem Kept.acceptNew (h : Kept data s) (hentry : s.mapBlockIndex hash = some e) (hdata : e.hasData = false)
    (hfits : (s.newBlockPos ((data.block hash).length+8)).nPos+((data.block hash).length+8) < 2^32)
    (nHeight nTime : Nat) (space opens : Bool) :
    Kept data (s.acceptBlock data hash e nHeight nTime none .none .none space opens) := by
  rw [BlockStorage.acceptBlock,saveBlockToDisk,findBlockPos]
  have hsize : s.sizes (s.newBlockPos ((data.block hash).length+8)).nFile =
      (s.newBlockPos ((data.block hash).length+8)).nPos := rfl
  generalize s.newBlockPos ((data.block hash).length+8) = pos at hfits hsize ⊢
  have hgrow := placeBlock_grows s pos false ((data.block hash).length+8) nHeight nTime
    (fun _ => by rw [show (s.info pos.nFile).nSize = pos.nPos from hsize]; exact hfits)
  have hkept := h.placeBlock pos false ((data.block hash).length+8) nHeight nTime
  have hlast := placeBlock_last s pos false ((data.block hash).length+8) nHeight nTime .none .none
  have hroom : pos.nPos+(data.blockRecord hash).length ≤
      (s.placeBlock pos false ((data.block hash).length+8) nHeight nTime .none .none).sizes pos.nFile := by
    simp only [sizes,placeBlock_info,if_pos,addUInt32,data.blockRecord_length]
    rw [show (s.info pos.nFile).nSize = pos.nPos from hsize,if_neg (by simp),Nat.mod_eq_of_lt hfits]
  generalize s.placeBlock pos false ((data.block hash).length+8) nHeight nTime .none .none = t
    at hgrow hkept hlast hroom ⊢
  have halloc := hkept.withBlk (t.blk.allocate BLOCKFILE_CHUNK_SIZE pos ((data.block hash).length+8) space).1
    fun hk => hk.allocate _ _ _ _
  generalize t.blk.allocate BLOCKFILE_CHUNK_SIZE pos ((data.block hash).length+8) space = alloc at halloc ⊢
  obtain ⟨blk,outOfSpace⟩ := alloc
  have hleft : Kept data { t with blk } := halloc.grow (fun n => (hgrow n).1) (fun n => (hgrow n).2)
  cases outOfSpace with
  | true =>
    intro hash' e' he'
    have hk := hleft hash' e' he'
    exact ⟨hk.block,hk.undo,hk.undo_data⟩
  | false =>
    cases opens with
    | false => exact hleft
    | true =>
      have hwritten : Kept data { t with blk := blk.write pos (data.blockRecord hash) } :=
        (halloc.withBlk _ fun hk => hk.write (le_of_eq hsize) _).grow (fun n => (hgrow n).1) (fun n => (hgrow n).2)
      apply KeptUpTo.setEntry hwritten
      refine ⟨fun _ => ?_,fun hu => ?_,fun _ => rfl⟩
      · show RecordKept _ _ t.nLastBlockFile pos.nFile (pos.nPos+8) _
        rw [hlast]
        exact .ofWrite blk hroom
      · exact absurd ((h hash e hentry).undo_data hu) (by simp [hdata])

theorem Kept.writeUndo (h : Kept data s) (hdata : e.hasData = true)
    (hblock : s.mapBlockIndex hash = some e) (hlast : e.hasUndo = false → e.nFile = s.nLastBlockFile)
    (hfits : e.hasUndo = false → (s.info e.nFile).nUndoSize+((data.undo hash).length+40) < 2^32)
    (space opens : Bool) : Kept data (s.writeUndoDataForBlock data hash e space opens) := by
  cases hundo : e.hasUndo with
  | true => simpa [writeUndoDataForBlock,hundo] using h
  | false =>
    simp only [writeUndoDataForBlock,hundo,Bool.false_eq_true,if_false]
    set f : CBlockFileInfo → CBlockFileInfo := fun info =>
      { info with nUndoSize := addUInt32 info.nUndoSize ((data.undo hash).length+40) } with hf
    have hinfo (n : Nat) : s.sizes n ≤ (s.addToFile e.nFile f).sizes n ∧
        s.undoSizes n ≤ (s.addToFile e.nFile f).undoSizes n := by
      simp only [sizes,undoSizes,info_addToFile]
      split_ifs with hn
      · subst hn
        simp only [hf,addUInt32,Nat.mod_eq_of_lt (hfits hundo)]
        exact ⟨le_refl _,Nat.le_add_right _ _⟩
      · exact ⟨le_refl _,le_refl _⟩
    have hroom : (s.info e.nFile).nUndoSize+(data.undoRecord hash).length ≤
        (s.addToFile e.nFile f).undoSizes e.nFile := by
      simp only [undoSizes,info_addToFile,if_pos,hf,addUInt32,Nat.mod_eq_of_lt (hfits hundo),data.undoRecord_length]
      exact le_refl _
    have hblk := (h hash e hblock).block hdata
    have halloc := (KeptUpTo.addToFile h e.nFile f).withRev
      (s.rev.allocate UNDOFILE_CHUNK_SIZE ⟨e.nFile,(s.info e.nFile).nUndoSize⟩ ((data.undo hash).length+40) space).1
      fun hk => hk.allocate _ _ _ _
    have hrev : (s.addToFile e.nFile f).rev = s.rev := rfl
    rw [hrev]
    generalize s.rev.allocate UNDOFILE_CHUNK_SIZE ⟨e.nFile,(s.info e.nFile).nUndoSize⟩
      ((data.undo hash).length+40) space = alloc at halloc ⊢
    obtain ⟨rev,outOfSpace⟩ := alloc
    split_ifs with hfail
    · exact halloc.grow (fun n => (hinfo n).1) (fun n => (hinfo n).2)
    · have hwritten := (halloc.withRev (rev.write ⟨e.nFile,(s.info e.nFile).nUndoSize⟩ (data.undoRecord hash))
        fun hk => hk.write (le_refl _) _).grow (fun n => (hinfo n).1) (fun n => (hinfo n).2)
      apply KeptUpTo.setEntry hwritten
      refine ⟨fun _ => hblk.grow (hinfo _).1,fun _ => ?_,fun _ => hdata⟩
      show RecordKept _ _ s.nLastBlockFile e.nFile ((s.info e.nFile).nUndoSize+8) _
      rw [← hlast hundo]
      exact .ofWrite rev hroom

theorem pruneOneBlockFile_entry {fileNumber : Nat}
    (he : (s.pruneOneBlockFile fileNumber).mapBlockIndex hash = some e) (hdata : e.hasData = true) :
    s.mapBlockIndex hash = some e ∧ e.nFile ≠ fileNumber := by
  simp only [pruneOneBlockFile] at he
  split_ifs at he with hin
  · cases he
    cases hdata
  · refine ⟨he,fun hn => hin ?_⟩
    simp [he,hn]

theorem pruneFiles_entry {setFilesToPrune : List Nat}
    (he : (s.pruneFiles setFilesToPrune).mapBlockIndex hash = some e) (hdata : e.hasData = true) :
    s.mapBlockIndex hash = some e ∧ e.nFile ∉ setFilesToPrune := by
  induction setFilesToPrune generalizing s with
  | nil => exact ⟨he,not_mem_nil⟩
  | cons n rest ih =>
    obtain ⟨hmid,hrest⟩ := ih he
    obtain ⟨hs,hn⟩ := pruneOneBlockFile_entry hmid hdata
    exact ⟨hs,by simp [hn,hrest]⟩

theorem Kept.pruneOneBlockFile (h : Kept data s) (fileNumber : Nat) : Kept data (s.pruneOneBlockFile fileNumber) := by
  intro hash e he
  by_cases hin : ((s.mapBlockIndex hash).any fun e => e.nFile == fileNumber) = true
  · have he' : e = {} := by
      simp only [BlockStorage.pruneOneBlockFile,hin,if_true] at he
      exact (Option.some.inj he).symm
    subst he'
    exact ⟨fun hd => (nomatch hd),fun hu => (nomatch hu),fun hu => (nomatch hu)⟩
  · have hold : s.mapBlockIndex hash = some e := by
      simpa [BlockStorage.pruneOneBlockFile,hin] using he
    have hn : e.nFile ≠ fileNumber := by
      intro hn
      exact hin (by simp [hold,hn])
    have hinfo : (s.pruneOneBlockFile fileNumber).info e.nFile = s.info e.nFile := by
      exact (info_addToFile fileNumber e.nFile _).trans (if_neg hn)
    have hk := h hash e hold
    refine ⟨fun hd => (hk.block hd).grow ?_,fun hu => (hk.undo hu).grow ?_,hk.undo_data⟩
    · rw [sizes,sizes,hinfo]
    · rw [undoSizes,undoSizes,hinfo]

theorem Kept.pruneFiles (h : Kept data s) (setFilesToPrune : List Nat) : Kept data (s.pruneFiles setFilesToPrune) := by
  induction setFilesToPrune generalizing s with
  | nil => exact h
  | cons n rest ih => exact ih (h.pruneOneBlockFile n)

theorem Kept.atIndexWrite (h : Kept data s) (setFilesToPrune : List Nat) :
    Kept data (s.atIndexWrite setFilesToPrune .none .none) :=
  (h.pruneFiles setFilesToPrune).flushTo false _

theorem openFile_unlink (files : FlatFileSeq) {setFilesToPrune : List Nat} {n : Nat} (hn : n ∉ setFilesToPrune) :
    FlatFileSeq.openFile (fun n => if n ∈ setFilesToPrune then none else files n) n = files.openFile n := by
  rw [FlatFileSeq.openFile,if_neg hn]
  rfl

theorem Kept.flushState (h : Kept data s) (setFilesToPrune : List Nat) (fWrite space written : Bool) :
    Kept data (s.flushStateToDisk setFilesToPrune fWrite space .none .none written) := by
  have hwrite := h.atIndexWrite setFilesToPrune
  unfold flushStateToDisk
  split_ifs
  · exact h
  · exact h.pruneFiles setFilesToPrune
  · -- the files that are removed hold no record of the index any more
    intro hash e he
    have hk := hwrite hash e he
    have hn (hd : e.hasData = true) : e.nFile ∉ setFilesToPrune := (pruneFiles_entry he hd).2
    refine ⟨fun hd => ⟨(hk.block hd).header,(hk.block hd).within,?_,?_⟩,
      fun hu => ⟨(hk.undo hu).header,(hk.undo hu).within,?_,?_⟩,hk.undo_data⟩
    · rw [unlinkPrunedFiles,openFile_unlink _ (hn hd)]
      exact (hk.block hd).held
    · rw [unlinkPrunedFiles,openFile_unlink _ (hn hd)]
      exact (hk.block hd).durable
    · rw [unlinkPrunedFiles,openFile_unlink _ (hn (hk.undo_data hu))]
      exact (hk.undo hu).held
    · rw [unlinkPrunedFiles,openFile_unlink _ (hn (hk.undo_data hu))]
      exact (hk.undo hu).durable
  · intro hash e he
    have hk := hwrite hash e he
    exact ⟨hk.block,hk.undo,hk.undo_data⟩
end Steps

def IndexDurable (data : BlockRecords) (s : BlockStorage) : Prop :=
  ∀ hash e, s.setDirtyBlockIndex hash = true → s.mapBlockIndex hash = some e →
    (e.hasData = true → HoldsAt (s.blk.openFile e.nFile).durable (e.nDataPos-8) (data.blockRecord hash)) ∧
    (e.hasUndo = true → HoldsAt (s.rev.openFile e.nFile).durable (e.nUndoPos-8) (data.undoRecord hash))

theorem Kept.indexDurable (h : Kept data s) (setFilesToPrune : List Nat) :
    IndexDurable data (s.atIndexWrite setFilesToPrune .none .none) := by
  intro hash e _ he
  have hk := (h.pruneFiles setFilesToPrune).flushTo false (e.nFile+1) hash e he
  exact ⟨fun hd => (hk.block hd).durable (Nat.ne_of_lt (Nat.lt_succ_self _)),
    fun hu => (hk.undo hu).durable (Nat.ne_of_lt (Nat.lt_succ_self _))⟩
end BlockStorage

open BlockStorage

def RunsWithoutFault (data : BlockRecords) (s : BlockStorage) : StorageEvent → Prop
  | .addToBlockIndex _ => True
  | .acceptBlock hash _ _ dbp blkFault revFault _ _ =>
    blkFault = .none ∧ revFault = .none ∧
      (dbp.getD (s.newBlockPos ((data.block hash).length+8))).nPos+((data.block hash).length+8) < 2^32
  | .writeUndo hash _ _ => ∀ e, s.mapBlockIndex hash = some e → e.hasUndo = false →
    (s.info e.nFile).nUndoSize+((data.undo hash).length+40) < 2^32
  | .flushState _ _ _ blkFault revFault _ => blkFault = .none ∧ revFault = .none

/-- Undo data is written while the file of its block is the last one. -/
def UndoInLastFile (s : BlockStorage) : StorageEvent → Prop
  | .writeUndo hash _ _ => ∀ e, s.mapBlockIndex hash = some e → e.hasUndo = false → e.nFile = s.nLastBlockFile
  | _ => True

theorem StorageStep.kept {data : BlockRecords} {s s' : BlockStorage} {ev : StorageEvent} (h : Kept data s)
    (hfault : RunsWithoutFault data s ev) (hlast : UndoInLastFile s ev) (hstep : StorageStep data s ev s') :
    Kept data s' := by
  cases hstep with
  | addToBlockIndex hnew =>
    exact KeptUpTo.setEntry h ⟨fun hd => (nomatch hd),fun hu => (nomatch hu),fun hu => (nomatch hu)⟩
  | @acceptBlock hash e nHeight nTime dbp _ _ space opens hentry hdata hread =>
    obtain ⟨rfl,rfl,hfits⟩ := hfault
    cases dbp with
    | none => exact h.acceptNew hentry hdata hfits nHeight nTime space opens
    | some pos => exact h.acceptKnown hentry hdata (hread pos rfl) hfits nHeight nTime space opens
  | writeUndo hentry hdata =>
    exact h.writeUndo hdata hentry (hlast _ hentry) (hfault _ hentry) _ _
  | flushState hfiles =>
    obtain ⟨rfl,rfl⟩ := hfault
    exact h.flushState _ _ _ _

/-- Without faults and with undo data in the last file only, written entries refer to durable records. -/
theorem index_write_durable {data : BlockRecords} {start s : BlockStorage} (hstart : Kept data start)
    (run : Reaches (StorageStep data) (fun s ev => RunsWithoutFault data s ev ∧ UndoInLastFile s ev) start s)
    (setFilesToPrune : List Nat) : IndexDurable data (s.atIndexWrite setFilesToPrune .none .none) := by
  have hkept : Kept data s := run.invariant hstart fun h hguard hstep => hstep.kept h hguard.1 hguard.2
  exact hkept.indexDurable setFilesToPrune

namespace FlatFileSeq

theorem allocate_space (files : FlatFileSeq) (chunkSize : Nat) (pos : FlatFilePos) (addSize : Nat) :
    (files.allocate chunkSize pos addSize true).2 = false := by
  simp only [allocate,if_true]
  split_ifs <;> rfl

theorem allocate_durable (files : FlatFileSeq) (chunkSize : Nat) (pos : FlatFilePos) (addSize n : Nat)
    (space : Bool) :
    ((files.allocate chunkSize pos addSize space).1.openFile n).durable = (files.openFile n).durable := by
  simp only [allocate]
  split_ifs
  · rw [openFile_set]
    split_ifs with hn
    · rw [hn]
      rfl
    · rfl
  · rfl
  · rfl

theorem write_durable (files : FlatFileSeq) (pos : FlatFilePos) (bytes : List UInt8) (n : Nat) :
    ((files.write pos bytes).openFile n).durable = (files.openFile n).durable := by
  rw [write,openFile_set]
  split_ifs with hn
  · rw [hn]
    rfl
  · rfl
end FlatFileSeq

namespace BlockStorage

variable {s t : BlockStorage} {data : BlockRecords} {hash : BlockHash} {e : BlockPosition}

theorem acceptBlock_new (s : BlockStorage) (data : BlockRecords) (hash : BlockHash) (e : BlockPosition)
    (nHeight nTime : Nat) :
    ∃ blk, s.acceptBlock data hash e nHeight nTime none .none .none true true =
      { s.placeBlock (s.newBlockPos ((data.block hash).length+8)) false ((data.block hash).length+8)
          nHeight nTime .none .none with blk }.receivedBlockTransactions hash e
        ⟨(s.newBlockPos ((data.block hash).length+8)).nFile,(s.newBlockPos ((data.block hash).length+8)).nPos+8⟩ := by
  rw [BlockStorage.acceptBlock,saveBlockToDisk,findBlockPos]
  generalize s.newBlockPos ((data.block hash).length+8) = pos
  generalize s.placeBlock pos false ((data.block hash).length+8) nHeight nTime .none .none = t
  have hspace := FlatFileSeq.allocate_space t.blk BLOCKFILE_CHUNK_SIZE pos ((data.block hash).length+8)
  generalize t.blk.allocate BLOCKFILE_CHUNK_SIZE pos ((data.block hash).length+8) true = alloc at hspace ⊢
  obtain ⟨blk,outOfSpace⟩ := alloc
  obtain rfl : outOfSpace = false := hspace
  exact ⟨_,rfl⟩

theorem acceptBlock_spec {nHeight nTime : Nat} {pos : FlatFilePos}
    (ht : s.acceptBlock data hash e nHeight nTime none .none .none true true = t)
    (hpos : s.newBlockPos ((data.block hash).length+8) = pos) :
    t.vinfoBlockFile = modifyInfo s.vinfoBlockFile pos.nFile (fun info => { info.addBlock nHeight nTime with
        nSize := addUInt32 info.nSize ((data.block hash).length+8) }) ∧
      t.nLastBlockFile = pos.nFile ∧ t.blockTree = s.blockTree ∧ t.rev = (s.enterFile pos.nFile true .none .none).rev ∧
      t.mapBlockIndex = update s.mapBlockIndex hash
        (some { e with nFile := pos.nFile, nDataPos := pos.nPos+8, nUndoPos := 0, hasData := true }) := by
  obtain ⟨blk,hblk⟩ := acceptBlock_new s data hash e nHeight nTime
  rw [← ht,hblk,hpos]
  have henter : (s.enterFile pos.nFile true .none .none).vinfoBlockFile = s.vinfoBlockFile ∧
      (s.enterFile pos.nFile true .none .none).blockTree = s.blockTree ∧
      (s.enterFile pos.nFile true .none .none).mapBlockIndex = s.mapBlockIndex := by
    unfold BlockStorage.enterFile
    split_ifs <;> exact ⟨rfl,rfl,rfl⟩
  refine ⟨?_,placeBlock_last s pos false ((data.block hash).length+8) nHeight nTime .none .none,henter.2.1,rfl,?_⟩
  · show modifyInfo (s.enterFile pos.nFile true .none .none).vinfoBlockFile pos.nFile _ = _
    rw [henter.1]
    simp only [Bool.false_eq_true,if_false]
  · show update (s.enterFile pos.nFile true .none .none).mapBlockIndex hash _ = _
    rw [henter.2.2]

theorem writeUndo_spec (ht : s.writeUndoDataForBlock data hash e true true = t) (hundo : e.hasUndo = false) :
    t.nLastBlockFile = s.nLastBlockFile ∧ (∀ n, ∃ nUndoSize, t.info n = { s.info n with nUndoSize }) ∧
      t.blockTree = s.blockTree ∧ t.mapBlockIndex = update s.mapBlockIndex hash
        (some { e with nUndoPos := (s.info e.nFile).nUndoSize+8, hasUndo := true }) := by
  rw [← ht]
  simp only [writeUndoDataForBlock,hundo,Bool.false_eq_true,if_false,FlatFileSeq.allocate_space,Bool.not_true,
    Bool.or_self]
  refine ⟨rfl,fun n => ?_,rfl,rfl⟩
  by_cases hn : n = e.nFile
  · subst hn
    exact ⟨_,(info_addToFile e.nFile e.nFile _).trans (if_pos rfl)⟩
  · exact ⟨_,(info_addToFile e.nFile n _).trans (if_neg hn)⟩

theorem undo_of_left_file (hundo : e.hasUndo = false) (hleft : e.nFile ≠ s.nLastBlockFile)
    (hdur : (s.rev.openFile e.nFile).durable = []) :
    ¬ IndexDurable data ((s.writeUndoDataForBlock data hash e true true).atIndexWrite [] .none .none) := by
  intro h
  set t := s.writeUndoDataForBlock data hash e true true with ht
  obtain ⟨hlast,_,_,hmap⟩ := writeUndo_spec ht.symm hundo
  have hdirty : t.setDirtyBlockIndex hash = true := by
    simp [ht,writeUndoDataForBlock,hundo,FlatFileSeq.allocate_space,BlockStorage.setEntry]
  have hrev : (t.rev.openFile e.nFile).durable = [] := by
    simp only [ht,writeUndoDataForBlock,hundo,FlatFileSeq.allocate_space,BlockStorage.setEntry,Bool.false_eq_true,
      if_false,Bool.not_true,Bool.or_self]
    rw [FlatFileSeq.write_durable,FlatFileSeq.allocate_durable]
    exact hdur
  have hentry := congrFun hmap hash
  rw [update_self] at hentry
  have hheld := (h hash _ hdirty hentry).2 rfl 0 (by rw [data.undoRecord_length]; omega)
  have hopen : (t.atIndexWrite [] .none .none).rev.openFile e.nFile = t.rev.openFile e.nFile := by
    simp only [BlockStorage.atIndexWrite,BlockStorage.pruneFiles,foldl_nil,BlockStorage.flushBlockFile,
      FlatFileSeq.flush,FlatFileSeq.openFile_set,hlast,if_neg hleft]
  rw [hopen,hrev,getElem?_nil] at hheld
  have hlen := getElem?_eq_none_iff.mp hheld.symm
  rw [data.undoRecord_length] at hlen
  omega

theorem acceptBlock_leaves {nHeight nTime : Nat}
    (ht : s.acceptBlock data hash e nHeight nTime none .none .none true true = t) {info : CBlockFileInfo}
    (hinfo : s.vinfoBlockFile = [info]) (hlast : s.nLastBlockFile = 0) (hused : 0 < info.nSize)
    (hfull : MAX_BLOCKFILE_SIZE ≤ addUInt32 info.nSize ((data.block hash).length+8)) {other : BlockHash}
    (hother : other ≠ hash) (hundo : info.nUndoSize = 0) (hrev : s.rev 0 = none) :
    t.nLastBlockFile = 1 ∧ t.mapBlockIndex other = s.mapBlockIndex other ∧ (t.info 0).nUndoSize = 0 ∧
      (t.rev.openFile 0).durable = [] := by
  have hroom : s.fileWithRoom ((data.block hash).length+8) = 1 := by
    simp [fileWithRoom,hinfo,hlast,hused,hfull]
  have hpos : s.newBlockPos ((data.block hash).length+8) = ⟨1,0⟩ := by
    simp [newBlockPos,hroom,BlockStorage.info,hinfo]
  have henter : s.enterFile 1 true .none .none = { s.flushBlockFile true .none .none with nLastBlockFile := 1 } := by
    rw [BlockStorage.enterFile,if_pos (by rw [hlast]; exact Nat.one_ne_zero)]
  have hinfo0 : s.info 0 = info := by simp [BlockStorage.info,hinfo]
  obtain ⟨hvinfo,hlast',_,hrev',hmap⟩ := acceptBlock_spec ht hpos
  refine ⟨hlast',?_,?_,?_⟩
  · rw [hmap,update_of_ne hother]
  · rw [BlockStorage.info,hvinfo,hinfo]
    exact hundo
  · rw [hrev',henter]
    simp only [BlockStorage.flushBlockFile,hlast,hinfo0,hundo,FlatFileSeq.flush,if_pos,FlatFileSeq.openFile,hrev]
    rfl

theorem acceptBlock_first {nHeight nTime : Nat}
    (ht : s.acceptBlock data hash e nHeight nTime none .none .none true true = t) (hinfo : s.vinfoBlockFile = [])
    (hlast : s.nLastBlockFile = 0) (hfits : (data.block hash).length+8 < 2^32) :
    ∃ info, t.vinfoBlockFile = [info] ∧ info.nSize = (data.block hash).length+8 ∧ info.nUndoSize = 0 ∧
      t.nLastBlockFile = 0 ∧ t.rev = s.rev ∧ t.mapBlockIndex = update s.mapBlockIndex hash
        (some { e with nFile := 0, nDataPos := 8, nUndoPos := 0, hasData := true }) := by
  have hpos : s.newBlockPos ((data.block hash).length+8) = ⟨0,0⟩ := by
    simp [newBlockPos,fileWithRoom,BlockStorage.info,hinfo,hlast]
  have henter : s.enterFile 0 true .none .none = s := by
    rw [BlockStorage.enterFile,if_neg (by simp [hlast])]
  obtain ⟨hvinfo,hlast',_,hrev',hmap⟩ := acceptBlock_spec ht hpos
  refine ⟨{ ({} : CBlockFileInfo).addBlock nHeight nTime with nSize := addUInt32 0 ((data.block hash).length+8) },
    ?_,?_,rfl,hlast',?_,hmap⟩
  · rw [hvinfo,hinfo]
    rfl
  · show addUInt32 0 _ = _
    rw [addUInt32,Nat.zero_add,Nat.mod_eq_of_lt hfits]
  · rw [hrev',henter]
end BlockStorage

theorem newBlockPos_empty {s : BlockStorage} (hinfo : s.vinfoBlockFile = []) (nAddSize : Nat) :
    (s.newBlockPos nAddSize).nPos = 0 := by
  simp [newBlockPos,BlockStorage.info,hinfo]

theorem newBlockPos_next {s : BlockStorage} {info : CBlockFileInfo} {nAddSize : Nat}
    (hinfo : s.vinfoBlockFile = [info]) (hlast : s.nLastBlockFile = 0) (hused : 0 < info.nSize)
    (hfull : MAX_BLOCKFILE_SIZE ≤ addUInt32 info.nSize nAddSize) : s.newBlockPos nAddSize = ⟨1,0⟩ := by
  have hroom : s.fileWithRoom nAddSize = 1 := by simp [fileWithRoom,hinfo,hlast,hused,hfull]
  simp [newBlockPos,hroom,BlockStorage.info,hinfo]

def emptyStorage : BlockStorage where
  blk := fun _ => none
  rev := fun _ => none
  vinfoBlockFile := []
  nLastBlockFile := 0
  setDirtyFileInfo := fun _ => false
  mapBlockIndex := fun _ => none
  setDirtyBlockIndex := fun _ => false
  blockTree := ⟨fun _ => none,fun _ => none,0⟩

theorem emptyStorage_kept (data : BlockRecords) : Kept data emptyStorage := fun _ _ he => nomatch he

private theorem first_file_run (data : BlockRecords) (hlen1 : (data.block 1).length = 81) :
    ∃ s info, Reaches (StorageStep data) (fun s ev => RunsWithoutFault data s ev ∧ UndoInLastFile s ev)
        emptyStorage s ∧ s.vinfoBlockFile = [info] ∧ info.nSize = 89 ∧ info.nUndoSize = 0 ∧ s.nLastBlockFile = 0 ∧
      s.rev 0 = none ∧ s.mapBlockIndex 1 = some ⟨0,8,0,true,false⟩ ∧ s.mapBlockIndex 2 = some {} := by
  obtain ⟨info,hvinfo,hsize,hundo,hlast,hrev,hmap⟩ :=
    acceptBlock_first (s := (emptyStorage.setEntry 1 {}).setEntry 2 {}) (e := {}) rfl rfl rfl
      (show (data.block 1).length+8 < 2^32 by omega)
  have hrun : Reaches (StorageStep data) (fun s ev => RunsWithoutFault data s ev ∧ UndoInLastFile s ev)
      emptyStorage ((emptyStorage.setEntry 1 {}).setEntry 2 {}) :=
    (Reaches.refl.tail (e := .addToBlockIndex 1) ⟨trivial,trivial⟩ (.addToBlockIndex rfl)).tail
      (e := .addToBlockIndex 2) ⟨trivial,trivial⟩ (.addToBlockIndex rfl)
  refine ⟨_,info,hrun.tail (e := .acceptBlock 1 1 0 none .none .none true true) ⟨⟨rfl,rfl,?_⟩,trivial⟩
    (.acceptBlock rfl rfl (fun _ h => (nomatch h))),hvinfo,by omega,hundo,hlast,?_,?_,?_⟩
  · show (BlockStorage.newBlockPos _ _).nPos+_ < _
    rw [newBlockPos_empty rfl]
    omega
  · rw [hrev]
    rfl
  · rw [hmap,update_self]
  · rw [hmap,update_of_ne (by decide)]
    rfl

private theorem left_file_run (data : BlockRecords) (hlen1 : (data.block 1).length = 81)
    (hlen2 : (data.block 2).length = 0x8000000) (hundo1 : (data.undo 1).length = 1) :
    ∃ s, Reaches (StorageStep data) (RunsWithoutFault data) emptyStorage s ∧
      ¬ IndexDurable data (s.atIndexWrite [] .none .none) := by
  obtain ⟨s1,info,hrun1,hvinfo,hsize,hundo,hlast,hrev,hentry1,hentry2⟩ := first_file_run data hlen1
  have hfull : MAX_BLOCKFILE_SIZE ≤ addUInt32 info.nSize ((data.block 2).length+8) := by
    rw [hsize,hlen2]
    decide
  obtain ⟨hlast2,hmap2,hundo2,hdur2⟩ := acceptBlock_leaves (e := {}) rfl hvinfo hlast (by omega) hfull
    (show (1 : BlockHash) ≠ 2 by decide) hundo hrev
  have hguard2 : RunsWithoutFault data s1 (.acceptBlock 2 2 0 none .none .none true true) :=
    ⟨rfl,rfl,by
      show (s1.newBlockPos _).nPos+_ < _
      rw [newBlockPos_next hvinfo hlast (by omega) hfull]
      show 0+_ < _
      omega⟩
  have hrun2 := (hrun1.mono And.left).tail hguard2 (.acceptBlock hentry2 rfl (fun _ h => (nomatch h)))
  generalize s1.acceptBlock data 2 {} 2 0 none .none .none true true = s2 at *
  have hentry : s2.mapBlockIndex 1 = some ⟨0,8,0,true,false⟩ := by rw [hmap2,hentry1]
  refine ⟨_,hrun2.tail (e := .writeUndo 1 true true) ?_ (.writeUndo hentry rfl),
    undo_of_left_file rfl (by rw [hlast2]; decide) hdur2⟩
  intro e he _
  cases he.symm.trans hentry
  show (s2.info 0).nUndoSize+_ < _
  omega

def largeRecords : BlockRecords where
  diskMagic := [0xe3,0xe1,0xf3,0xe8]
  block := fun hash => replicate (if hash = 1 then 81 else 0x8000000) 0
  undo := fun _ => [0]
  checksum := fun _ => replicate 32 0
  diskMagic_length := rfl
  checksum_length := fun _ => length_replicate

theorem largeRecords_block (hash : BlockHash) :
    (largeRecords.block hash).length = if hash = 1 then 81 else 0x8000000 := length_replicate

theorem undo_in_left_file : ∃ s, Reaches (StorageStep largeRecords) (RunsWithoutFault largeRecords) emptyStorage s ∧
    ¬ IndexDurable largeRecords (s.atIndexWrite [] .none .none) :=
  left_file_run largeRecords ((largeRecords_block 1).trans (if_pos rfl))
    ((largeRecords_block 2).trans (if_neg (by decide))) rfl

private theorem last_file_run (data : BlockRecords) (hlen1 : (data.block 1).length = 81)
    (hundo1 : (data.undo 1).length = 1) :
    ∃ s e, Reaches (StorageStep data) (fun s ev => RunsWithoutFault data s ev ∧ UndoInLastFile s ev) emptyStorage s ∧
      s.mapBlockIndex 1 = some e ∧ e.hasUndo = true := by
  obtain ⟨s1,info,hrun1,hvinfo,_,hundo,hlast,_,hentry,_⟩ := first_file_run data hlen1
  have hinfo : s1.info 0 = info := by simp [BlockStorage.info,hvinfo]
  refine ⟨_,_,hrun1.tail (e := .writeUndo 1 true true) ⟨?_,?_⟩ (.writeUndo hentry rfl),
    by rw [(writeUndo_spec rfl rfl).2.2.2,update_self],rfl⟩
  · intro e he _
    cases he.symm.trans hentry
    show (s1.info 0).nUndoSize+_ < _
    rw [hinfo]
    omega
  · intro e he _
    cases he.symm.trans hentry
    exact hlast.symm

theorem index_write_durable_sample : ∃ (s : BlockStorage) (e : BlockPosition), s.mapBlockIndex 1 = some e ∧ e.hasUndo = true ∧
    IndexDurable largeRecords (s.atIndexWrite [] .none .none) := by
  obtain ⟨s,e,run,he,hu⟩ := last_file_run largeRecords ((largeRecords_block 1).trans (if_pos rfl)) rfl
  exact ⟨s,e,he,hu,index_write_durable (emptyStorage_kept largeRecords) run []⟩
end BitfiniteCore
