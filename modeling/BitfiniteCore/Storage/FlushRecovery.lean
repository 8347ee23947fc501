import BitfiniteCore.Storage.FlushSteps
import BitfiniteCore.Storage.DurableIndex

/-! # Stopping in the middle of a flush -/

namespace BitfiniteCore
open Function ParentTree GuardedRun BlockStorage List

namespace FlatFileSeq

def Grows (files files' : FlatFileSeq) : Prop := ∀ n, (files n).isSome → (files' n).isSome

theorem Grows.refl (files : FlatFileSeq) : Grows files files := fun _ h => h

theorem Grows.trans {files files' files'' : FlatFileSeq} (h : Grows files files') (h' : Grows files' files'') :
    Grows files files'' := fun n hn => h' n (h n hn)

theorem grows_set (files : FlatFileSeq) (n : Nat) (f : DurableFile UInt8) : Grows files (files.set n f) := by
  intro m hm
  by_cases h : m = n
  · simp [set,h]
  · simpa [set,h] using hm

theorem grows_allocate (files : FlatFileSeq) (chunkSize : Nat) (pos : FlatFilePos) (addSize : Nat) (space : Bool) :
    Grows files (files.allocate chunkSize pos addSize space).1 := by
  simp only [allocate]
  split_ifs
  · exact grows_set _ _ _
  · exact .refl _
  · exact .refl _

theorem grows_flush (files : FlatFileSeq) (pos : FlatFilePos) (finalize : Bool) (fault : FlushFault) :
    Grows files (files.flush pos finalize fault).1 := by
  cases fault with
  | none => exact grows_set _ _ _
  | openFile => exact .refl _
  | truncateFile =>
    simp only [flush]
    split_ifs
    · exact grows_set _ _ _
    · exact grows_set _ _ _
  | fileCommit => exact grows_set _ _ _

theorem write_isSome (files : FlatFileSeq) (pos : FlatFilePos) (bytes : List UInt8) :
    (files.write pos bytes pos.nFile).isSome := by
  simp [write,set]
end FlatFileSeq

namespace BlockStorage

variable {s s' : BlockStorage} {data : BlockRecords} {hash : BlockHash} {e : BlockPosition}

/-- Flags only refer to files that exist, and an entry that is not dirty is on disk as it is. -/
structure FilesSound (s : BlockStorage) : Prop where
  data_file : ∀ hash e, s.mapBlockIndex hash = some e → e.hasData = true → (s.blk e.nFile).isSome
  undo_file : ∀ hash e, s.mapBlockIndex hash = some e → e.hasUndo = true → (s.rev e.nFile).isSome
  undo_data : ∀ hash e, s.mapBlockIndex hash = some e → e.hasUndo = true → e.hasData = true
  clean : ∀ hash, s.setDirtyBlockIndex hash = false → s.blockTree.index hash = s.mapBlockIndex hash
  known : ∀ hash, (s.blockTree.index hash).isSome → (s.mapBlockIndex hash).isSome
  null : s.mapBlockIndex 0 = none

structure FilesGrow (s s' : BlockStorage) : Prop where
  blk : s.blk.Grows s'.blk
  rev : s.rev.Grows s'.rev
  index : s'.mapBlockIndex = s.mapBlockIndex
  dirty : s'.setDirtyBlockIndex = s.setDirtyBlockIndex
  tree : s'.blockTree = s.blockTree

theorem FilesGrow.trans {s'' : BlockStorage} (h : FilesGrow s s') (h' : FilesGrow s' s'') : FilesGrow s s'' :=
  ⟨h.blk.trans h'.blk,h.rev.trans h'.rev,h'.index.trans h.index,h'.dirty.trans h.dirty,h'.tree.trans h.tree⟩

theorem FilesSound.grow (h : FilesSound s) (hg : FilesGrow s s') : FilesSound s' := by
  refine ⟨fun x e he hd => ?_,fun x e he hu => ?_,fun x e he hu => ?_,fun x hx => ?_,fun x hx => ?_,?_⟩
  · rw [hg.index] at he
    exact hg.blk _ (h.data_file x e he hd)
  · rw [hg.index] at he
    exact hg.rev _ (h.undo_file x e he hu)
  · rw [hg.index] at he
    exact h.undo_data x e he hu
  · rw [hg.dirty] at hx
    rw [hg.tree,hg.index]
    exact h.clean x hx
  · rw [hg.tree] at hx
    rw [hg.index]
    exact h.known x hx
  · rw [hg.index]
    exact h.null

theorem FilesSound.ne_null (h : FilesSound s) (hentry : s.mapBlockIndex hash = some e) : hash ≠ 0 := by
  rintro rfl
  rw [h.null] at hentry
  cases hentry

theorem FilesSound.setEntry (h : FilesSound s) (hnull : hash ≠ 0)
    (hd : e.hasData = true → (s.blk e.nFile).isSome) (hu : e.hasUndo = true → (s.rev e.nFile).isSome)
    (hud : e.hasUndo = true → e.hasData = true) : FilesSound (s.setEntry hash e) := by
  have hentry {x : BlockHash} {e' : BlockPosition} (he : (s.setEntry hash e).mapBlockIndex x = some e') :
      e' = e ∨ s.mapBlockIndex x = some e' := by
    by_cases hx : x = hash
    · subst hx
      left
      simpa [BlockStorage.setEntry] using he.symm
    · right
      simpa [BlockStorage.setEntry,hx] using he
  refine ⟨fun x e' he hd' => ?_,fun x e' he hu' => ?_,fun x e' he hu' => ?_,fun x hx => ?_,fun x hx => ?_,?_⟩
  · rcases hentry he with rfl | he
    · exact hd hd'
    · exact h.data_file x e' he hd'
  · rcases hentry he with rfl | he
    · exact hu hu'
    · exact h.undo_file x e' he hu'
  · rcases hentry he with rfl | he
    · exact hud hu'
    · exact h.undo_data x e' he hu'
  · have hne : x ≠ hash := by
      rintro rfl
      simp [BlockStorage.setEntry] at hx
    simp only [BlockStorage.setEntry,update_of_ne hne] at hx ⊢
    exact h.clean x hx
  · by_cases hxh : x = hash
    · simp [BlockStorage.setEntry,hxh]
    · simpa [BlockStorage.setEntry,hxh] using h.known x hx
  · exact (update_of_ne hnull.symm _ _).trans h.null

theorem grow_flushBlockFile (fFinalize : Bool) (blkFault revFault : FlushFault) :
    FilesGrow s (s.flushBlockFile fFinalize blkFault revFault) :=
  ⟨FlatFileSeq.grows_flush _ _ _ _,FlatFileSeq.grows_flush _ _ _ _,rfl,rfl,rfl⟩

theorem grow_placeBlock (pos : FlatFilePos) (fKnown : Bool) (nAddSize nHeight nTime : Nat)
    (blkFault revFault : FlushFault) :
    FilesGrow s (s.placeBlock pos fKnown nAddSize nHeight nTime blkFault revFault) := by
  have henter : FilesGrow s (s.enterFile pos.nFile (!fKnown) blkFault revFault) := by
    unfold BlockStorage.enterFile
    split_ifs
    · have hg := grow_flushBlockFile (s := s) (!fKnown) blkFault revFault
      exact ⟨hg.blk,hg.rev,rfl,rfl,rfl⟩
    · exact ⟨.refl _,.refl _,rfl,rfl,rfl⟩
  exact ⟨henter.blk,henter.rev,henter.index,henter.dirty,henter.tree⟩

theorem saveBlockToDisk_grows (nHeight nTime : Nat) (dbp : Option FlatFilePos)
    (blkFault revFault : FlushFault) (space opens : Bool)
    (hread : ∀ pos, dbp = some pos → s.ReadsBlock data hash pos) :
    FilesGrow s (s.saveBlockToDisk data hash nHeight nTime dbp blkFault revFault space opens).1 ∧
      ∀ pos, (s.saveBlockToDisk data hash nHeight nTime dbp blkFault revFault space opens).2 = some pos →
        ((s.saveBlockToDisk data hash nHeight nTime dbp blkFault revFault space opens).1.blk pos.nFile).isSome := by
  cases dbp with
  | some pos =>
    have hg := grow_placeBlock (s := s) pos true ((data.block hash).length+8) nHeight nTime blkFault revFault
    refine ⟨hg,?_⟩
    intro pos' hpos'
    obtain rfl : pos = pos' := Option.some.inj hpos'
    apply hg.blk
    obtain ⟨_,hheld,_⟩ := hread pos rfl
    have hlt := hheld.lt_length (i := 0) (by rw [data.blockRecord_length]; omega)
    cases hfile : s.blk pos.nFile with
    | none => simp [FlatFileSeq.openFile,hfile] at hlt
    | some f => rfl
  | none =>
    rw [saveBlockToDisk,findBlockPos]
    generalize s.newBlockPos ((data.block hash).length+8) = pos
    have hg := grow_placeBlock (s := s) pos false ((data.block hash).length+8) nHeight nTime blkFault revFault
    generalize s.placeBlock pos false ((data.block hash).length+8) nHeight nTime blkFault revFault = t at hg ⊢
    have ha := FlatFileSeq.grows_allocate t.blk BLOCKFILE_CHUNK_SIZE pos ((data.block hash).length+8) space
    generalize t.blk.allocate BLOCKFILE_CHUNK_SIZE pos ((data.block hash).length+8) space = alloc at ha ⊢
    obtain ⟨blk,outOfSpace⟩ := alloc
    have hgrow : FilesGrow s { t with blk } := hg.trans ⟨ha,.refl _,rfl,rfl,rfl⟩
    cases outOfSpace with
    | true => exact ⟨hgrow.trans ⟨.refl _,.refl _,rfl,rfl,rfl⟩,fun _ h => by cases h⟩
    | false =>
      cases opens with
      | false => exact ⟨hgrow,fun _ h => by cases h⟩
      | true =>
        refine ⟨hgrow.trans ⟨FlatFileSeq.grows_set _ _ _,.refl _,rfl,rfl,rfl⟩,?_⟩
        intro pos' hpos'
        obtain rfl : (⟨pos.nFile,pos.nPos+8⟩ : FlatFilePos) = pos' := Option.some.inj hpos'
        exact FlatFileSeq.write_isSome blk pos _

structure FlagsKept (s s' : BlockStorage) : Prop where
  known : ∀ hash, (s.mapBlockIndex hash).isSome → (s'.mapBlockIndex hash).isSome
  data : ∀ hash e, s.mapBlockIndex hash = some e → e.hasData = true →
    ∃ e', s'.mapBlockIndex hash = some e' ∧ e'.hasData = true ∧ (e.hasUndo = true → e'.hasUndo = true)
  disk : ∀ hash, (s.blockTree.index hash).isSome → (s'.blockTree.index hash).isSome

theorem FilesGrow.flagsKept (h : FilesGrow s s') : FlagsKept s s' := by
  refine ⟨fun x hx => ?_,fun x e he hd => ?_,fun x hx => ?_⟩
  · rw [h.index]
    exact hx
  · rw [h.index]
    exact ⟨e,he,hd,fun hu => hu⟩
  · rw [h.tree]
    exact hx

theorem FlagsKept.trans {s'' : BlockStorage} (h : FlagsKept s s') (h' : FlagsKept s' s'') : FlagsKept s s'' := by
  refine ⟨fun x hx => h'.known x (h.known x hx),fun x e he hd => ?_,fun x hx => h'.disk x (h.disk x hx)⟩
  obtain ⟨e1,he1,hd1,hu1⟩ := h.data x e he hd
  obtain ⟨e2,he2,hd2,hu2⟩ := h'.data x e1 he1 hd1
  exact ⟨e2,he2,hd2,fun hu => hu2 (hu1 hu)⟩

theorem flagsKept_setEntry (h : ∀ e0, s.mapBlockIndex hash = some e0 → e0.hasData = true →
    e.hasData = true ∧ (e0.hasUndo = true → e.hasUndo = true)) : FlagsKept s (s.setEntry hash e) := by
  refine ⟨fun x hx => ?_,fun x e0 he hd => ?_,fun x hx => hx⟩
  · by_cases hxh : x = hash
    · simp [BlockStorage.setEntry,hxh]
    · simpa [BlockStorage.setEntry,hxh] using hx
  · by_cases hxh : x = hash
    · subst hxh
      obtain ⟨h1,h2⟩ := h e0 he hd
      exact ⟨e,by simp [BlockStorage.setEntry],h1,h2⟩
    · exact ⟨e0,by simpa [BlockStorage.setEntry,hxh] using he,hd,fun hu => hu⟩

theorem acceptBlock_sound (h : FilesSound s) (hentry : s.mapBlockIndex hash = some e) (hdata : e.hasData = false)
    (nHeight nTime : Nat) (dbp : Option FlatFilePos) (blkFault revFault : FlushFault) (space opens : Bool)
    (hread : ∀ pos, dbp = some pos → s.ReadsBlock data hash pos) :
    FilesSound (s.acceptBlock data hash e nHeight nTime dbp blkFault revFault space opens) ∧
      FlagsKept s (s.acceptBlock data hash e nHeight nTime dbp blkFault revFault space opens) := by
  obtain ⟨hg,hpos⟩ := saveBlockToDisk_grows nHeight nTime dbp blkFault revFault space opens hread
  rw [BlockStorage.acceptBlock]
  generalize s.saveBlockToDisk data hash nHeight nTime dbp blkFault revFault space opens = saved at hg hpos ⊢
  obtain ⟨t,pos⟩ := saved
  have hnull : hash ≠ 0 := h.ne_null hentry
  have hnoundo : e.hasUndo = false := by
    by_contra hu
    have hd := h.undo_data hash e hentry (by simpa using hu)
    simp [hdata] at hd
  cases pos with
  | none => exact ⟨h.grow hg,hg.flagsKept⟩
  | some pos =>
    refine ⟨(h.grow hg).setEntry hnull (fun _ => hpos pos rfl) ?_ ?_,hg.flagsKept.trans (flagsKept_setEntry ?_)⟩
    · intro hu
      simp [hnoundo] at hu
    · intro _
      rfl
    · intro e0 he0 hd0
      rw [hg.index,hentry] at he0
      cases he0
      simp [hdata] at hd0

theorem writeUndo_sound (h : FilesSound s) (data : BlockRecords) (hentry : s.mapBlockIndex hash = some e) (hdata : e.hasData = true)
    (space opens : Bool) :
    FilesSound (s.writeUndoDataForBlock data hash e space opens) ∧
      FlagsKept s (s.writeUndoDataForBlock data hash e space opens) := by
  have hnull : hash ≠ 0 := h.ne_null hentry
  cases hundo : e.hasUndo with
  | true =>
    simp only [writeUndoDataForBlock,hundo,if_true]
    exact ⟨h,⟨fun _ hx => hx,fun x e0 he hd => ⟨e0,he,hd,fun hu => hu⟩,fun _ hx => hx⟩⟩
  | false =>
    simp only [writeUndoDataForBlock,hundo,Bool.false_eq_true,if_false]
    generalize (fun info : CBlockFileInfo =>
      { info with nUndoSize := addUInt32 info.nUndoSize ((data.undo hash).length+40) }) = f
    have ha := FlatFileSeq.grows_allocate s.rev UNDOFILE_CHUNK_SIZE ⟨e.nFile,(s.info e.nFile).nUndoSize⟩
      ((data.undo hash).length+40) space
    rw [show (s.addToFile e.nFile f).rev = s.rev from rfl]
    generalize s.rev.allocate UNDOFILE_CHUNK_SIZE ⟨e.nFile,(s.info e.nFile).nUndoSize⟩
      ((data.undo hash).length+40) space = alloc at ha ⊢
    obtain ⟨rev,outOfSpace⟩ := alloc
    have hg : FilesGrow s { s.addToFile e.nFile f with rev } := ⟨.refl _,ha,rfl,rfl,rfl⟩
    split_ifs
    · exact ⟨h.grow hg,hg.flagsKept⟩
    · have hw : FilesGrow s { s.addToFile e.nFile f with
          rev := rev.write ⟨e.nFile,(s.info e.nFile).nUndoSize⟩ (data.undoRecord hash) } :=
        hg.trans ⟨.refl _,FlatFileSeq.grows_set _ _ _,rfl,rfl,rfl⟩
      refine ⟨(h.grow hw).setEntry hnull (fun _ => hw.blk _ (h.data_file hash e hentry hdata))
        (fun _ => FlatFileSeq.write_isSome rev ⟨e.nFile,_⟩ _) (fun _ => hdata),
        hw.flagsKept.trans (flagsKept_setEntry fun e0 he0 hd0 => ⟨hdata,fun _ => rfl⟩)⟩

theorem pruneOneBlockFile_keeps {n : Nat} (hentry : s.mapBlockIndex hash = some e) (hn : e.nFile ≠ n) :
    (s.pruneOneBlockFile n).mapBlockIndex hash = some e := by
  simp [BlockStorage.pruneOneBlockFile,hentry,hn]

theorem pruneFiles_keeps {setFilesToPrune : List Nat} (hentry : s.mapBlockIndex hash = some e)
    (hn : e.nFile ∉ setFilesToPrune) : (s.pruneFiles setFilesToPrune).mapBlockIndex hash = some e := by
  induction setFilesToPrune generalizing s with
  | nil => exact hentry
  | cons n rest ih =>
    rw [mem_cons,not_or] at hn
    exact ih (pruneOneBlockFile_keeps hentry hn.1) hn.2

theorem pruneOneBlockFile_known (n : Nat) (hx : (s.mapBlockIndex hash).isSome) :
    ((s.pruneOneBlockFile n).mapBlockIndex hash).isSome := by
  simp only [BlockStorage.pruneOneBlockFile]
  split_ifs
  · rfl
  · exact hx

theorem FilesSound.pruneOneBlockFile (h : FilesSound s) (n : Nat) : FilesSound (s.pruneOneBlockFile n) := by
  have hundo {x : BlockHash} {e : BlockPosition} (he : (s.pruneOneBlockFile n).mapBlockIndex x = some e)
      (hu : e.hasUndo = true) : s.mapBlockIndex x = some e := by
    simp only [BlockStorage.pruneOneBlockFile] at he
    split_ifs at he with hin
    · cases he
      cases hu
    · exact he
  refine ⟨fun x e he hd => ?_,fun x e he hu => ?_,fun x e he hu => ?_,fun x hx => ?_,fun x hx => ?_,?_⟩
  · exact h.data_file x e (pruneOneBlockFile_entry he hd).1 hd
  · exact h.undo_file x e (hundo he hu) hu
  · exact h.undo_data x e (hundo he hu) hu
  · simp only [BlockStorage.pruneOneBlockFile,Bool.or_eq_false_iff] at hx ⊢
    rw [if_neg (by simp [hx.2])]
    exact h.clean x hx.1
  · exact pruneOneBlockFile_known n (h.known x hx)
  · simp only [BlockStorage.pruneOneBlockFile,h.null,Option.any_none,Bool.false_eq_true,if_false]

theorem FilesSound.pruneFiles (h : FilesSound s) (setFilesToPrune : List Nat) :
    FilesSound (s.pruneFiles setFilesToPrune) := by
  induction setFilesToPrune generalizing s with
  | nil => exact h
  | cons n rest ih => exact ih (h.pruneOneBlockFile n)

theorem pruneFiles_known (setFilesToPrune : List Nat) (hx : (s.mapBlockIndex hash).isSome) :
    ((s.pruneFiles setFilesToPrune).mapBlockIndex hash).isSome := by
  induction setFilesToPrune generalizing s with
  | nil => exact hx
  | cons n rest ih => exact ih (pruneOneBlockFile_known n hx)

theorem pruneFiles_tree (setFilesToPrune : List Nat) : (s.pruneFiles setFilesToPrune).blockTree = s.blockTree := by
  induction setFilesToPrune generalizing s with
  | nil => rfl
  | cons n rest ih => exact ih

theorem writeBatchSync_index (h : FilesSound s) (x : BlockHash) :
    s.writeBatchSync.blockTree.index x = s.mapBlockIndex x := by
  show (if s.setDirtyBlockIndex x then s.mapBlockIndex x else s.blockTree.index x) = _
  split_ifs with hd
  · rfl
  · exact h.clean x (by simpa using hd)

theorem FilesSound.writeBatchSync (h : FilesSound s) : FilesSound s.writeBatchSync := by
  refine ⟨h.data_file,h.undo_file,h.undo_data,fun x _ => writeBatchSync_index h x,fun x hx => ?_,h.null⟩
  rw [writeBatchSync_index h] at hx
  exact hx

theorem FilesSound.unlinkFile (h : FilesSound s) {n : Nat}
    (hn : ∀ hash e, s.mapBlockIndex hash = some e → e.hasData = true → e.nFile ≠ n) :
    FilesSound (s.unlinkPrunedFiles [n]) := by
  refine ⟨fun x e he hd => ?_,fun x e he hu => ?_,h.undo_data,h.clean,h.known,h.null⟩
  · have hne := hn x e he hd
    simpa [unlinkPrunedFiles,hne] using h.data_file x e he hd
  · have hne := hn x e he (h.undo_data x e he hu)
    simpa [unlinkPrunedFiles,hne] using h.undo_file x e he hu
end BlockStorage

section Invariant

variable {T : ParentTree BlockHash} {data : BlockRecords} {params : PruneParams} {s s' : FlushState}
  {old : Option BlockHash}

/-- The blocks between the two tips have their data, and undo data where the database would go back. -/
structure BranchesKept (T : ParentTree BlockHash) (s : BlockStorage) (old tip : Option BlockHash) : Prop where
  forward : ∀ b, 0 < T.height b → BelowTip T b tip → ¬ BelowTip T b old →
    ∃ e, s.mapBlockIndex b = some e ∧ e.hasData = true
  rollback : ∀ b, 0 < T.height b → BelowTip T b old → ¬ BelowTip T b tip →
    ∃ e, s.mapBlockIndex b = some e ∧ e.hasData = true ∧ e.hasUndo = true

theorem BranchesKept.map {st st' : BlockStorage} {tip : Option BlockHash} (h : BranchesKept T st old tip)
    (hk : FlagsKept st st') : BranchesKept T st' old tip := by
  refine ⟨fun b hb ht ho => ?_,fun b hb ho ht => ?_⟩
  · obtain ⟨e,he,hd⟩ := h.forward b hb ht ho
    obtain ⟨e',he',hd',_⟩ := hk.data b e he hd
    exact ⟨e',he',hd'⟩
  · obtain ⟨e,he,hd,hu⟩ := h.rollback b hb ho ht
    obtain ⟨e',he',hd',hu'⟩ := hk.data b e he hd
    exact ⟨e',he',hd',hu' hu⟩

theorem BranchesKept.prune {st : BlockStorage} {tip : Option BlockHash} {setFilesToPrune : List Nat}
    (h : BranchesKept T st old tip)
    (hfree : ∀ b, OnBranches T old tip b → ∀ e, st.mapBlockIndex b = some e → e.nFile ∉ setFilesToPrune) :
    BranchesKept T (st.pruneFiles setFilesToPrune) old tip := by
  refine ⟨fun b hb ht ho => ?_,fun b hb ho ht => ?_⟩
  · obtain ⟨e,he,hd⟩ := h.forward b hb ht ho
    exact ⟨e,pruneFiles_keeps he (hfree b ⟨hb,fun hiff => ho (hiff.mpr ht)⟩ e he),hd⟩
  · obtain ⟨e,he,hd,hu⟩ := h.rollback b hb ho ht
    exact ⟨e,pruneFiles_keeps he (hfree b ⟨hb,fun hiff => ht (hiff.mp ho)⟩ e he),hd,hu⟩

theorem belowTip_child {b hash tip : BlockHash} (hp : T.parent hash = some tip) :
    BelowTip T b (some hash) ↔ b = hash ∨ BelowTip T b (some tip) := by
  simp only [BelowTip,Option.some.injEq,exists_eq_left']
  rw [anc_iff,hp]
  simp

theorem BranchesKept.connect {st : BlockStorage} {hash tip : BlockHash} {e : BlockPosition}
    (h : BranchesKept T st old (some tip)) (hp : T.parent hash = some tip)
    (hentry : st.mapBlockIndex hash = some e) (hdata : e.hasData = true) :
    BranchesKept T st old (some hash) := by
  refine ⟨fun b hb ht ho => ?_,fun b hb ho ht => ?_⟩
  · rcases (belowTip_child hp).mp ht with rfl | ht
    · exact ⟨e,hentry,hdata⟩
    · exact h.forward b hb ht ho
  · exact h.rollback b hb ho fun ht' => ht ((belowTip_child hp).mpr (.inr ht'))

theorem BranchesKept.disconnect {st : BlockStorage} {tip prev : BlockHash} {e : BlockPosition}
    (h : BranchesKept T st old (some tip)) (hp : T.parent tip = some prev)
    (hentry : st.mapBlockIndex tip = some e) (hdata : e.hasData = true) (hundo : e.hasUndo = true) :
    BranchesKept T st old (some prev) := by
  refine ⟨fun b hb ht ho => ?_,fun b hb ho ht => ?_⟩
  · exact h.forward b hb ((belowTip_child hp).mpr (.inr ht)) ho
  · by_cases hbt : b = tip
    · subst hbt
      exact ⟨e,hentry,hdata,hundo⟩
    · refine h.rollback b hb ho fun ht' => ?_
      exact ((belowTip_child hp).mp ht').elim hbt ht

def CoinsAt (s : FlushState) (old : Option BlockHash) : Prop :=
  match s.phase with
  | .writing rest => ∃ (db : CCoinsViewDB) (plan : FlushPlan) (mapCoins : CCoinsMap) (tip : BlockHash)
      (batches : List CDBBatch) (k : Nat), db.bestBlock = old ∧ db.headBlocks = [] ∧ s.tip = some tip ∧
      db.batchWrite plan mapCoins tip = .ok batches ∧ rest = batches.drop k ∧
      s.coinsDB = db.writeBatches (batches.take k)
  | _ => s.coinsDB.bestBlock = old ∧ s.coinsDB.headBlocks = []

def FlushPhase.filesLeft : FlushPhase → List Nat
  | .synced setFilesToPrune _ => setFilesToPrune
  | .unlinking setFilesToPrune _ => setFilesToPrune
  | _ => []

def FlushPhase.Indexed : FlushPhase → Prop
  | .unlinking _ _ => True
  | .writing _ => True
  | _ => False

structure FlushInv (T : ParentTree BlockHash) (old : Option BlockHash) (s : FlushState) : Prop where
  sound : FilesSound s.storage
  pruned : ∀ n ∈ s.phase.filesLeft, ∀ hash e, s.storage.mapBlockIndex hash = some e → e.hasData = true → e.nFile ≠ n
  indexed : s.phase.Indexed → ∀ hash, s.storage.setDirtyBlockIndex hash = false
  tip_known : ∀ b, BelowTip T b s.tip → (s.storage.mapBlockIndex b).isSome
  old_known : ∀ b, old = some b → (s.storage.blockTree.index b).isSome
  coins : CoinsAt s old
  branches : BranchesKept T s.storage old s.tip

theorem coinsAt_idle (hidle : s.phase = .idle) :
    CoinsAt s old ↔ s.coinsDB.bestBlock = old ∧ s.coinsDB.headBlocks = [] := by
  rw [CoinsAt,hidle]

theorem FlushInv.update (h : FlushInv T old s) (hidle : s.phase = .idle) {st : BlockStorage}
    {tip : Option BlockHash} (hsound : FilesSound st) (hknown : ∀ b, BelowTip T b tip → (st.mapBlockIndex b).isSome)
    (hdisk : ∀ hash, (s.storage.blockTree.index hash).isSome → (st.blockTree.index hash).isSome)
    (hbranches : BranchesKept T st old tip) : FlushInv T old { s with storage := st, tip := tip } where
  sound := hsound
  pruned := by
    intro n hn
    rw [hidle] at hn
    exact absurd hn not_mem_nil
  indexed := by
    intro hi
    rw [hidle] at hi
    exact hi.elim
  tip_known := hknown
  old_known := fun b hb => hdisk b (h.old_known b hb)
  coins := (coinsAt_idle (s := { s with storage := st, tip := tip }) hidle).mpr ((coinsAt_idle hidle).mp h.coins)
  branches := hbranches

theorem FlushInv.keep (h : FlushInv T old s) (hidle : s.phase = .idle) {st : BlockStorage}
    (hsound : FilesSound st) (hk : FlagsKept s.storage st) : FlushInv T old { s with storage := st } :=
  h.update hidle hsound (fun b hb => hk.known b (h.tip_known b hb)) hk.disk (h.branches.map hk)

/-- No block that a replay would read is in a file to be pruned. -/
def KeepsBranches (T : ParentTree BlockHash) (s : FlushState) : FlushEvent → Prop
  | .beginFlush _ setFilesToPrune => ∀ b, OnBranches T s.coinsDB.bestBlock s.tip b →
    ∀ e, s.storage.mapBlockIndex b = some e → e.nFile ∉ setFilesToPrune
  | _ => True

theorem FlushInv.chainStep (h : FlushInv T old s) {ev : FlushEvent} (hguard : KeepsBranches T s ev)
    (hidle : s.phase = .idle) (hstep : FlushStep T data params s ev s') : FlushInv T old s' := by
  have hbest : s.coinsDB.bestBlock = old := ((coinsAt_idle hidle).mp h.coins).1
  cases hstep with
  | @addToBlockIndex hash _ hnull hnew =>
    apply h.keep hidle (h.sound.setEntry (e := {}) hnull (absurd · Bool.false_ne_true) (absurd · Bool.false_ne_true)
      (absurd · Bool.false_ne_true))
    apply flagsKept_setEntry
    intro e0 he0
    rw [hnew] at he0
    cases he0
  | @acceptBlock hash e nHeight nTime dbp blkFault revFault space opens _ hentry hdata hread =>
    have hacc := acceptBlock_sound h.sound hentry hdata nHeight nTime dbp blkFault revFault space opens hread
    exact h.keep hidle hacc.1 hacc.2
  | @connectGenesis hash e _ htip hparent hentry =>
    apply h.update hidle h.sound
    · intro b hb
      obtain ⟨t,ht,hanc⟩ := hb
      cases ht
      rw [hanc.root hparent,hentry]
      rfl
    · exact fun _ hx => hx
    · have hbr := h.branches
      rw [htip] at hbr
      refine ⟨fun b hb ht _ => ?_,fun b hb ho _ => hbr.rollback b hb ho ?_⟩
      · obtain ⟨t,ht,hanc⟩ := ht
        cases ht
        rw [hanc.root hparent,T.height_root hparent] at hb
        exact absurd hb (lt_irrefl 0)
      · rintro ⟨_,hn,_⟩
        cases hn
  | @connectTip hash tip e e' space opens _ htip hparent hentry hdata hwritten hundo =>
    obtain ⟨hsound,hk⟩ := writeUndo_sound h.sound data hentry hdata space opens
    have hbr := h.branches
    rw [htip] at hbr
    obtain ⟨e1,he1,hd1,_⟩ := hk.data hash e hentry hdata
    apply h.update hidle hsound
    · intro b hb
      rcases (belowTip_child hparent).mp hb with rfl | hb
      · rw [he1]
        rfl
      · exact hk.known b (h.tip_known b (htip ▸ hb))
    · exact hk.disk
    · exact (hbr.map hk).connect hparent he1 hd1
  | @disconnectTip tip prev e _ htip hparent hentry hdata hundo =>
    have hbr := h.branches
    rw [htip] at hbr
    apply h.update hidle h.sound
    · intro b hb
      apply h.tip_known b
      rw [htip]
      exact (belowTip_child hparent).mpr (.inr hb)
    · exact fun _ hx => hx
    · exact hbr.disconnect hparent hentry hdata hundo
  | @lowSpace request setFilesToPrune _ hfiles =>
    apply h.update hidle (h.sound.pruneFiles setFilesToPrune)
    · exact fun b hb => pruneFiles_known setFilesToPrune (h.tip_known b hb)
    · intro x hx
      rw [pruneFiles_tree]
      exact hx
    · exact h.branches.prune (hbest ▸ hguard)
  | @beginFlush request setFilesToPrune fDoFullFlush blkFault revFault _ hfiles hfull =>
    have hg := grow_flushBlockFile (s := s.storage.pruneFiles setFilesToPrune) false blkFault revFault
    exact {
      sound := (h.sound.pruneFiles setFilesToPrune).grow hg
      pruned := by
        intro n hn x e he hd hne
        exact (pruneFiles_entry he hd).2 (hne ▸ hn)
      indexed := fun hi => hi.elim
      tip_known := fun b hb => pruneFiles_known setFilesToPrune (h.tip_known b hb)
      old_known := by
        intro b hb
        show ((s.storage.pruneFiles setFilesToPrune).blockTree.index b).isSome
        rw [pruneFiles_tree]
        exact h.old_known b hb
      coins := (coinsAt_idle hidle).mp h.coins
      branches := (h.branches.prune (hbest ▸ hguard)).map hg.flagsKept }
  | writeIndex hphase => simp [hidle] at hphase
  | unlinkFile hphase => simp [hidle] at hphase
  | endIndexWrite hphase => simp [hidle] at hphase
  | beginCoins hphase => simp [hidle] at hphase
  | writeBatch hphase => simp [hidle] at hphase
  | endFlush hphase => simp [hidle] at hphase

theorem writeBatches_snoc (db : CCoinsViewDB) (batches : List CDBBatch) (batch : CDBBatch) :
    db.writeBatches (batches++[batch]) = (db.writeBatches batches).writeBatch batch :=
  foldl_append

theorem batchWrite_ne_nil {db : CCoinsViewDB} {plan : FlushPlan} {mapCoins : CCoinsMap} {hashBlock : BlockHash}
    {batches : List CDBBatch} (h : db.batchWrite plan mapCoins hashBlock = .ok batches) : batches ≠ [] := by
  unfold CCoinsViewDB.batchWrite at h
  split at h
  · cases h
  obtain ⟨_,_,h⟩ := except_bind_ok.mp h
  cases h
  simp

theorem headBlock_oldTip {db : CCoinsViewDB} {tip o : BlockHash} (hbest : db.bestBlock = old)
    (hheads : db.headBlocks = []) (hnull : old ≠ some 0) (ho : db.oldTip tip = .ok o) : headBlock o = old := by
  subst hbest
  cases hb : db.bestBlock with
  | none =>
    have hz : o = 0 := by simpa [CCoinsViewDB.oldTip,CCoinsViewDB.getBestBlock,hb,hheads] using ho.symm
    rw [hz]
    rfl
  | some b =>
    have hb0 : b ≠ 0 := fun h0 => hnull (by rw [hb,h0])
    have hz : b = o := by
      rw [CCoinsViewDB.oldTip,CCoinsViewDB.getBestBlock,hb,Option.getD_some,if_neg hb0] at ho
      exact Except.ok.inj ho
    rw [← hz,headBlock,if_neg hb0]

theorem FlushInv.old_ne_null (h : FlushInv T old s) : old ≠ some 0 := by
  intro h0
  have hk := h.sound.known 0 (h.old_known 0 h0)
  rw [h.sound.null] at hk
  cases hk

theorem FlushInv.endFlush (h : FlushInv T old s) (hphase : s.phase = .writing []) :
    FlushInv T s.tip { s with phase := .idle } := by
  have hc := h.coins
  rw [CoinsAt,hphase] at hc
  obtain ⟨db,plan,mapCoins,tip,batches,k,_,_,htip,hbatches,hrest,hdb⟩ := hc
  have hlen : batches.length ≤ k := drop_eq_nil_iff.mp hrest.symm
  have hindex := h.indexed (by rw [hphase]; trivial)
  have hk : 0 < k := by
    apply Nat.lt_of_lt_of_le _ hlen
    apply length_pos_iff.mpr
    rintro rfl
    exact batchWrite_ne_nil hbatches rfl
  obtain ⟨_,_,hdisk⟩ := CCoinsViewDB.batchWrite_take hbatches hk
  have hdone := hdisk.resolve_right fun hlt => absurd hlt.1 (Nat.not_lt.mpr hlen)
  rw [← hdb] at hdone
  exact {
    sound := h.sound
    pruned := fun n hn => absurd hn not_mem_nil
    indexed := fun hi => hi.elim
    tip_known := h.tip_known
    old_known := by
      intro b hb
      rw [h.sound.clean b (hindex b)]
      exact h.tip_known b ⟨b,hb,.refl b⟩
    coins := by
      rw [coinsAt_idle rfl,hdone,htip]
      exact ⟨rfl,rfl⟩
    branches := ⟨fun b _ ht ho => absurd ht ho,fun b _ ho ht => absurd ho ht⟩ }

theorem FlushInv.step (h : FlushInv T old s) {ev : FlushEvent} (hguard : KeepsBranches T s ev)
    (hstep : FlushStep T data params s ev s') : ∃ old', FlushInv T old' s' := by
  by_cases hidle : s.phase = .idle
  · exact ⟨old,h.chainStep hguard hidle hstep⟩
  cases hstep with
  | addToBlockIndex hi => exact absurd hi hidle
  | acceptBlock hi => exact absurd hi hidle
  | connectGenesis hi => exact absurd hi hidle
  | connectTip hi => exact absurd hi hidle
  | disconnectTip hi => exact absurd hi hidle
  | lowSpace hi => exact absurd hi hidle
  | beginFlush hi => exact absurd hi hidle
  | @writeIndex setFilesToPrune fDoFullFlush hphase =>
    have hc := h.coins
    rw [CoinsAt,hphase] at hc
    refine ⟨old,h.sound.writeBatchSync,?_,fun _ _ => rfl,h.tip_known,?_,hc,h.branches.map ?_⟩
    · intro n hn
      exact h.pruned n (by rw [hphase]; exact hn)
    · intro b hb
      rw [writeBatchSync_index h.sound]
      exact h.sound.known b (h.old_known b hb)
    · refine ⟨fun _ hx => hx,fun x e he hd => ⟨e,he,hd,fun hu => hu⟩,fun x hx => ?_⟩
      rw [writeBatchSync_index h.sound]
      exact h.sound.known x hx
  | @unlinkFile n rest fDoFullFlush hphase =>
    have hc := h.coins
    rw [CoinsAt,hphase] at hc
    have hpruned : ∀ m ∈ n::rest, ∀ hash e, s.storage.mapBlockIndex hash = some e → e.hasData = true → e.nFile ≠ m := by
      intro m hm
      exact h.pruned m (by rw [hphase]; exact hm)
    refine ⟨old,h.sound.unlinkFile (hpruned n mem_cons_self),?_,?_,h.tip_known,h.old_known,hc,h.branches.map
      ⟨fun _ hx => hx,fun x e he hd => ⟨e,he,hd,fun hu => hu⟩,fun _ hx => hx⟩⟩
    · exact fun m hm => hpruned m (mem_cons_of_mem n hm)
    · exact fun _ => h.indexed (by rw [hphase]; trivial)
  | endIndexWrite hphase =>
    have hc := h.coins
    rw [CoinsAt,hphase] at hc
    exact ⟨old,h.sound,fun n hn => absurd hn not_mem_nil,fun hi => hi.elim,h.tip_known,h.old_known,hc,h.branches⟩
  | @beginCoins tip plan mapCoins batches hphase htip hbatches =>
    have hc := h.coins
    rw [CoinsAt,hphase] at hc
    refine ⟨old,h.sound,fun n hn => absurd hn not_mem_nil,?_,h.tip_known,h.old_known,?_,h.branches⟩
    · exact fun _ => h.indexed (by rw [hphase]; trivial)
    · exact ⟨s.coinsDB,plan,mapCoins,tip,batches,0,hc.1,hc.2,htip,hbatches,rfl,rfl⟩
  | @writeBatch batch rest hphase =>
    have hc := h.coins
    rw [CoinsAt,hphase] at hc
    obtain ⟨db,plan,mapCoins,tip,batches,k,hbest,hheads,htip,hbatches,hrest,hdb⟩ := hc
    refine ⟨old,h.sound,fun n hn => absurd hn not_mem_nil,?_,h.tip_known,h.old_known,?_,h.branches⟩
    · exact fun _ => h.indexed (by rw [hphase]; trivial)
    · have hk : k < batches.length := by
        by_contra hk
        rw [drop_eq_nil_of_le (Nat.le_of_not_lt hk)] at hrest
        cases hrest
      rw [drop_eq_getElem_cons hk] at hrest
      obtain ⟨hbatch,hrest⟩ := List.cons.inj hrest
      refine ⟨db,plan,mapCoins,tip,batches,k+1,hbest,hheads,htip,hbatches,hrest,?_⟩
      rw [take_succ_eq_append_getElem hk,writeBatches_snoc,← hdb,← hbatch]
  | endFlush hphase => exact ⟨s.tip,h.endFlush hphase⟩

theorem FlushInv.recoverable (h : FlushInv T old s) : Recoverable T s := by
  have hindex (hi : s.phase.Indexed) (b : BlockHash) : s.storage.blockTree.index b = s.storage.mapBlockIndex b :=
    h.sound.clean b (h.indexed hi b)
  have hconsistent (hbest : s.coinsDB.bestBlock = old) (hheads : s.coinsDB.headBlocks = []) : Recoverable T s := by
    refine ⟨fun b hb => h.old_known b (hbest.symm.trans hb),.inl hheads,?_,?_,?_⟩
    all_goals
      intro new old hh
      rw [hheads] at hh
      cases hh
  have hc := h.coins
  unfold CoinsAt at hc
  split at hc
  · rename_i rest hphase
    obtain ⟨db,plan,mapCoins,tip,batches,k,hbest,hheads,htip,hbatches,_,hdb⟩ := hc
    have hread := hindex (by rw [hphase]; trivial)
    rcases Nat.eq_zero_or_pos k with rfl | hk
    · have hdb' : s.coinsDB = db := hdb
      exact hconsistent (hdb' ▸ hbest) (hdb' ▸ hheads)
    obtain ⟨o,ho,hdisk⟩ := CCoinsViewDB.batchWrite_take hbatches hk
    have htipknown : (s.storage.blockTree.index tip).isSome := by
      rw [hread]
      exact h.tip_known tip ⟨tip,htip,.refl tip⟩
    rcases hdisk with hdisk | ⟨_,es1,es2,_,hdisk⟩
    · rw [← hdb] at hdisk
      refine ⟨fun b hb => ?_,.inl (by rw [hdisk]),?_,?_,?_⟩
      · rw [hdisk] at hb
        cases hb
        exact htipknown
      all_goals
        intro new old hh
        rw [hdisk] at hh
        cases hh
    · rw [← hdb] at hdisk
      have hold : headBlock o = old := headBlock_oldTip hbest hheads (h.old_ne_null) ho
      refine ⟨fun b hb => ?_,.inr (by rw [hdisk]; rfl),?_,?_,?_⟩
      · rw [hdisk] at hb
        cases hb
      all_goals
        intro new old' hh
        rw [hdisk] at hh
        obtain ⟨rfl,rfl⟩ : tip = new ∧ o = old' := by simpa using hh
      · rw [hold]
        exact ⟨htipknown,h.old_known⟩
      · intro b hb hanc
        rw [hold] at hb
        have ht : BelowTip T b s.tip := ⟨tip,htip,hanc⟩
        obtain ⟨e,he,hd⟩ := h.branches.forward b hb.1 ht fun hbo => hb.2 ⟨fun _ => htip ▸ ht,fun _ => hbo⟩
        exact ⟨e,(hread b).trans he,hd,h.sound.data_file b e he hd⟩
      · intro b hb hanc
        rw [hold] at hb
        have ht : ¬ BelowTip T b (some tip) := by
          rintro ⟨t,ht,ha⟩
          cases ht
          exact hanc ha
        have hbo : BelowTip T b old := by
          by_contra hbo
          exact hb.2 ⟨fun h' => absurd h' hbo,fun h' => absurd h' ht⟩
        obtain ⟨e,he,hd,hu⟩ := h.branches.rollback b hb.1 hbo (htip ▸ ht)
        exact ⟨⟨e,(hread b).trans he,hd,h.sound.data_file b e he hd⟩,
          ⟨e,(hread b).trans he,hu,h.sound.undo_file b e he hu⟩⟩
  · exact hconsistent hc.1 hc.2

/-- Outside a flush, with the coin database at the tip. -/
structure Consistent (T : ParentTree BlockHash) (s : FlushState) : Prop where
  idle : s.phase = .idle
  heads : s.coinsDB.headBlocks = []
  best : s.coinsDB.bestBlock = s.tip
  sound : FilesSound s.storage
  tip_known : ∀ b, BelowTip T b s.tip → (s.storage.mapBlockIndex b).isSome
  tip_disk : ∀ b, s.tip = some b → (s.storage.blockTree.index b).isSome

theorem Consistent.inv (h : Consistent T s) : FlushInv T s.tip s where
  sound := h.sound
  pruned := by
    intro n hn
    rw [h.idle] at hn
    exact absurd hn not_mem_nil
  indexed := by
    intro hi
    rw [h.idle] at hi
    exact hi.elim
  tip_known := h.tip_known
  old_known := h.tip_disk
  coins := (coinsAt_idle h.idle).mpr ⟨h.best,h.heads⟩
  branches := ⟨fun b _ ht ho => absurd ht ho,fun b _ ho ht => absurd ho ht⟩

/-- The disk is always enough for a recovery, if no flush prunes a block between the two tips. -/
theorem flush_recoverable {start : FlushState} (hstart : Consistent T start)
    (run : Reaches (FlushStep T data params) (KeepsBranches T) start s) : Recoverable T s := by
  have hinv : ∃ old, FlushInv T old s := by
    apply run.invariant ⟨start.tip,hstart.inv⟩
    rintro s1 ev s2 ⟨old,h⟩ hguard hstep
    exact h.step hguard hstep
  obtain ⟨old,h⟩ := hinv
  exact h.recoverable
end Invariant

section Lag

def lineTree : ParentTree BlockHash where
  parent h := if h.toNat ≤ 1 then none else some (h-1)
  height h := h.toNat-1
  height_parent := by
    intro a p h
    split_ifs at h with ha
    cases h
    have hsub : (a-1).toNat = a.toNat-1 := by bv_omega
    omega
  height_root := by
    intro a h
    split_ifs at h with ha
    omega

theorem lineTree_parent {n : Nat} (h1 : 1 ≤ n) (hn : n+1 < 2^256) :
    lineTree.parent (BitVec.ofNat 256 (n+1)) = some (BitVec.ofNat 256 n) := by
  have ha : (BitVec.ofNat 256 (n+1)).toNat = n+1 := by
    rw [BitVec.toNat_ofNat,Nat.mod_eq_of_lt hn]
  show (if _ then _ else _) = _
  rw [ha,if_neg (by omega)]
  congr 1
  apply BitVec.eq_of_toNat_eq
  bv_omega

theorem lineTree_height {n : Nat} (hn : n < 2^256) : lineTree.height (BitVec.ofNat 256 n) = n-1 := by
  show (BitVec.ofNat 256 n).toNat-1 = n-1
  rw [BitVec.toNat_ofNat,Nat.mod_eq_of_lt hn]

def lineRecords : BlockRecords where
  diskMagic := [0xe3,0xe1,0xf3,0xe8]
  block := fun hash => replicate (if hash = 3 then 0x8000000 else 81) 0
  undo := fun _ => [0]
  checksum := fun _ => replicate 32 0
  diskMagic_length := largeRecords.diskMagic_length
  checksum_length := largeRecords.checksum_length

theorem lineRecords_block (hash : BlockHash) :
    (lineRecords.block hash).length = if hash = 3 then 0x8000000 else 81 := length_replicate

/-- Nothing has been flushed yet. -/
def freshDB : CCoinsViewDB := ⟨fun _ => none,none,[]⟩

def freshState : FlushState := ⟨emptyStorage,none,freshDB,.idle⟩

theorem freshState_consistent : Consistent lineTree freshState where
  idle := rfl
  heads := rfl
  best := rfl
  sound := ⟨fun _ _ he => (nomatch he),fun _ _ he => (nomatch he),fun _ _ he => (nomatch he),fun _ _ => rfl,
    fun _ hx => hx,rfl⟩
  tip_known := fun _ ⟨_,ht,_⟩ => nomatch ht
  tip_disk := fun _ hb => nomatch hb

structure Unflushed (n : Nat) (s : FlushState) : Prop where
  idle : s.phase = .idle
  tip : s.tip = some (BitVec.ofNat 256 n)
  coins : s.coinsDB = freshDB
  last : 1 ≤ s.storage.nLastBlockFile
  size : (s.storage.info 0).nSize ≠ 0
  height : (s.storage.info 0).nHeightLast ≤ 1
  entry : ∃ e, s.storage.mapBlockIndex (BitVec.ofNat 256 2) = some e ∧ e.nFile = 0
  disk : ∀ hash, s.storage.blockTree.index hash = none
  fresh : ∀ m, n < m → m < 2^256 → s.storage.mapBlockIndex (BitVec.ofNat 256 m) = none

private theorem ofNat_ne {m n : Nat} (hm : m < 2^256) (hn : n < 2^256) (h : m ≠ n) :
    (BitVec.ofNat 256 m : BlockHash) ≠ BitVec.ofNat 256 n := by
  intro he
  have ht := congrArg BitVec.toNat he
  rw [BitVec.toNat_ofNat,BitVec.toNat_ofNat,Nat.mod_eq_of_lt hm,Nat.mod_eq_of_lt hn] at ht
  exact h ht

section Receive

variable {s : FlushState} {data : BlockRecords} {params : PruneParams} {b : BlockHash}

theorem receive_block (data : BlockRecords) (params : PruneParams) (hidle : s.phase = .idle) (hb0 : b ≠ 0) (hnew : s.storage.mapBlockIndex b = none)
    (nHeight : Nat) {pos : FlatFilePos} (hpos : s.storage.newBlockPos ((data.block b).length+8) = pos) :
    ∃ st, Reaches (FlushStep lineTree data params) (KeepsBranches lineTree) s { s with storage := st } ∧
      st.vinfoBlockFile = modifyInfo s.storage.vinfoBlockFile pos.nFile (fun info =>
        { info.addBlock nHeight 0 with nSize := addUInt32 info.nSize ((data.block b).length+8) }) ∧
      st.nLastBlockFile = pos.nFile ∧ st.blockTree = s.storage.blockTree ∧
      st.mapBlockIndex = update s.storage.mapBlockIndex b (some ⟨pos.nFile,pos.nPos+8,0,true,false⟩) := by
  obtain ⟨st1,hst1⟩ : ∃ st1, st1 = s.storage.setEntry b {} := ⟨_,rfl⟩
  have hpos1 : st1.newBlockPos ((data.block b).length+8) = pos := by
    rw [hst1,← hpos]
    rfl
  have hmap1 : st1.mapBlockIndex = update s.storage.mapBlockIndex b (some {}) := by rw [hst1]; rfl
  have hstep1 : FlushStep lineTree data params s (.storage (.addToBlockIndex b)) { s with storage := st1 } := by
    rw [hst1]
    exact .addToBlockIndex hidle hb0 hnew
  have hstep2 : FlushStep lineTree data params { s with storage := st1 }
      (.storage (.acceptBlock b nHeight 0 none .none .none true true))
      { s with storage := st1.acceptBlock data b {} nHeight 0 none .none .none true true } :=
    .acceptBlock hidle (by rw [hmap1,update_self]) rfl (fun _ hd => (nomatch hd))
  obtain ⟨hv,hl,ht,_,hm⟩ := acceptBlock_spec (e := {}) rfl hpos1
  refine ⟨_,(Reaches.refl.tail (by exact trivial) hstep1).tail (by exact trivial) hstep2,?_,hl,?_,?_⟩
  · rw [hv,hst1]
    rfl
  · rw [ht,hst1]
    rfl
  · rw [hm,hmap1,update_idem]

theorem connect_block (data : BlockRecords) (params : PruneParams) {tip : BlockHash} {e : BlockPosition}
    (hidle : s.phase = .idle) (htip : s.tip = some tip)
    (hparent : lineTree.parent b = some tip) (hentry : s.storage.mapBlockIndex b = some e)
    (hdata : e.hasData = true) (hundo : e.hasUndo = false) :
    ∃ st e', Reaches (FlushStep lineTree data params) (KeepsBranches lineTree) s { s with storage := st, tip := some b } ∧
      st.nLastBlockFile = s.storage.nLastBlockFile ∧
      (∀ n, ∃ nUndoSize, st.info n = { s.storage.info n with nUndoSize }) ∧
      st.blockTree = s.storage.blockTree ∧ st.mapBlockIndex = update s.storage.mapBlockIndex b (some e') ∧
      e'.nFile = e.nFile := by
  obtain ⟨hl,hi,ht,hm⟩ := writeUndo_spec rfl hundo
  have hstep : FlushStep lineTree data params s (.connectTip b)
      { s with storage := s.storage.writeUndoDataForBlock data b e true true, tip := some b } :=
    .connectTip hidle htip hparent hentry hdata (by rw [hm,update_self]) rfl
  exact ⟨_,_,Reaches.refl.tail (by exact trivial) hstep,hl,hi,ht,hm,rfl⟩

theorem Unflushed.next {n : Nat} (h : Unflushed n s) (data : BlockRecords) (params : PruneParams) (h2 : 2 ≤ n) (hn : n+1 < 2^256) :
    ∃ s', Reaches (FlushStep lineTree data params) (KeepsBranches lineTree) s s' ∧ Unflushed (n+1) s' := by
  have hb0 : (BitVec.ofNat 256 (n+1) : BlockHash) ≠ BitVec.ofNat 256 0 := ofNat_ne hn (by decide) (by omega)
  have hb2 : (BitVec.ofNat 256 2 : BlockHash) ≠ BitVec.ofNat 256 (n+1) := ofNat_ne (by decide) hn (by omega)
  have hother (m : Nat) (hm : n+1 < m) (hm256 : m < 2^256) :
      (BitVec.ofNat 256 m : BlockHash) ≠ BitVec.ofNat 256 (n+1) := ofNat_ne hm256 hn (by omega)
  have hnew := h.fresh (n+1) (by omega) hn
  have hparent := lineTree_parent (n := n) (by omega) hn
  generalize hb : (BitVec.ofNat 256 (n+1) : BlockHash) = b at hb0 hb2 hother hnew hparent
  obtain ⟨e2,he2,hf2⟩ := h.entry
  obtain ⟨pos,hpos⟩ : ∃ pos, s.storage.newBlockPos ((data.block b).length+8) = pos := ⟨_,rfl⟩
  have hposlast : 1 ≤ pos.nFile := by
    rw [← hpos]
    exact h.last.trans (Nat.le_add_right _ _)
  obtain ⟨s1,hrun1,hv1,hl1,ht1,hm1⟩ := receive_block data params h.idle hb0 hnew n hpos
  have hentry1 : s1.mapBlockIndex b = some ⟨pos.nFile,pos.nPos+8,0,true,false⟩ := by rw [hm1,update_self]
  obtain ⟨s2,e',hrun2,hl2,hi2,ht2,hm2,_⟩ := connect_block (s := { s with storage := s1 }) data params
    h.idle h.tip hparent hentry1 rfl rfl
  have hinfo1 : s1.info 0 = s.storage.info 0 := by
    rw [BlockStorage.info,hv1,getD_modifyInfo,if_neg (by omega)]
    rfl
  obtain ⟨nUndoSize,hinfo2⟩ := hi2 0
  refine ⟨_,hrun1.trans hrun2,h.idle,congrArg some hb.symm,h.coins,?_,?_,?_,⟨e2,?_,hf2⟩,?_,?_⟩
  · rw [hl2,hl1]
    exact hposlast
  · rw [hinfo2,hinfo1]
    exact h.size
  · rw [hinfo2,hinfo1]
    exact h.height
  · rw [hm2,update_of_ne hb2,hm1,update_of_ne hb2]
    exact he2
  · intro x
    rw [ht2,ht1]
    exact h.disk x
  · intro m hnm hm256
    have hne := hother m hnm hm256
    rw [hm2,update_of_ne hne,hm1,update_of_ne hne]
    exact h.fresh m (by omega) hm256

theorem Unflushed.run {n : Nat} (h : Unflushed n s) (data : BlockRecords) (params : PruneParams) (h2 : 2 ≤ n) (k : Nat) (hk : n+k < 2^256) :
    ∃ s', Reaches (FlushStep lineTree data params) (KeepsBranches lineTree) s s' ∧ Unflushed (n+k) s' := by
  induction k with
  | zero => exact ⟨s,.refl,h⟩
  | succ k ih =>
    obtain ⟨s1,hrun1,h1⟩ := ih (by omega)
    obtain ⟨s2,hrun2,h2⟩ := h1.next data params (by omega) (by omega)
    exact ⟨s2,hrun1.trans hrun2,h2⟩

theorem unflushed_three (hlen2 : (data.block (BitVec.ofNat 256 2)).length = 81)
    (hlen3 : (data.block (BitVec.ofNat 256 3)).length = 0x8000000) :
    ∃ s, Reaches (FlushStep lineTree data params) (KeepsBranches lineTree) freshState s ∧ Unflushed 3 s := by
  have hne23 : (BitVec.ofNat 256 2 : BlockHash) ≠ BitVec.ofNat 256 3 := by decide
  -- genesis is connected without data, so block 2 is the first one in file 0
  have hrun1 : Reaches (FlushStep lineTree data params) (KeepsBranches lineTree) freshState
      ⟨emptyStorage.setEntry (BitVec.ofNat 256 1) {},some (BitVec.ofNat 256 1),freshDB,.idle⟩ :=
    (Reaches.refl.tail (by exact trivial) (.addToBlockIndex rfl (by decide) rfl)).tail (by exact trivial)
      (.connectGenesis (e := {}) rfl rfl (by decide) rfl)
  have hfresh (m : Nat) (h : 1 < m) (hm : m < 2^256) :
      (emptyStorage.setEntry (BitVec.ofNat 256 1) {}).mapBlockIndex (BitVec.ofNat 256 m) = none :=
    update_of_ne (ofNat_ne hm (by decide) (by omega)) _ _
  obtain ⟨s2,hrun2,hv2,hl2,ht2,hm2⟩ := receive_block data params
    (s := ⟨emptyStorage.setEntry (BitVec.ofNat 256 1) {},_,_,_⟩) rfl (by decide) (hfresh 2 (by decide) (by decide)) 0
    (show _ = (⟨0,0⟩ : FlatFilePos) from rfl)
  obtain ⟨info,hinfo⟩ : ∃ info : CBlockFileInfo, info = { ({} : CBlockFileInfo).addBlock 0 0 with
    nSize := addUInt32 0 ((data.block (BitVec.ofNat 256 2)).length+8) } := ⟨_,rfl⟩
  have hv2 : s2.vinfoBlockFile = [info] := by rw [hv2,hinfo]; rfl
  have hsize : info.nSize = 89 := by rw [hinfo,hlen2]; rfl
  have hpos3 : s2.newBlockPos ((data.block (BitVec.ofNat 256 3)).length+8) = ⟨1,0⟩ := by
    apply newBlockPos_next hv2 hl2 (by omega)
    rw [hsize,hlen3]
    decide
  obtain ⟨s3,hrun3,hv3,hl3,ht3,hm3⟩ := receive_block data params (s := ⟨s2,_,_,_⟩) rfl (by decide)
    (by rw [hm2,update_of_ne hne23.symm]; exact hfresh 3 (by decide) (by decide)) 0 hpos3
  have hinfo3 : s3.info 0 = info := by
    rw [BlockStorage.info,hv3,hv2]
    rfl
  have hentry2 : s3.mapBlockIndex (BitVec.ofNat 256 2) = some ⟨0,8,0,true,false⟩ := by
    rw [hm3,update_of_ne hne23,hm2,update_self]
  obtain ⟨s5,e5,hrun5,hl5,hi5,ht5,hm5,hf5⟩ := connect_block data params (s := ⟨s3,_,_,_⟩) rfl rfl
    (lineTree_parent (n := 1) (by decide) (by decide)) hentry2 rfl rfl
  have hentry3 : s5.mapBlockIndex (BitVec.ofNat 256 3) = some ⟨1,8,0,true,false⟩ := by
    rw [hm5,update_of_ne hne23.symm,hm3,update_self]
  obtain ⟨s6,e6,hrun6,hl6,hi6,ht6,hm6,hf6⟩ := connect_block data params (s := ⟨s5,_,_,_⟩) rfl rfl
    (lineTree_parent (n := 2) (by decide) (by decide)) hentry3 rfl rfl
  obtain ⟨u5,hinfo5⟩ := hi5 0
  obtain ⟨u6,hinfo6⟩ := hi6 0
  have hinfo0 : s6.info 0 = { info with nUndoSize := u6 } := by rw [hinfo6,hinfo5,hinfo3]
  refine ⟨_,(((hrun1.trans hrun2).trans hrun3).trans hrun5).trans hrun6,rfl,rfl,rfl,?_,?_,?_,⟨e5,?_,hf5⟩,?_,?_⟩
  · rw [hl6,hl5]
    exact hl3.ge
  · rw [hinfo0]
    show info.nSize ≠ 0
    omega
  · rw [hinfo0,hinfo]
    exact Nat.zero_le 1
  · rw [hm6,update_of_ne hne23,hm5,update_self]
  · intro x
    rw [ht6,ht5,ht3,ht2]
    rfl
  · intro m hm hm256
    have h2 : (BitVec.ofNat 256 m : BlockHash) ≠ BitVec.ofNat 256 2 := ofNat_ne hm256 (by decide) (by omega)
    have h3 : (BitVec.ofNat 256 m : BlockHash) ≠ BitVec.ofNat 256 3 := ofNat_ne hm256 (by decide) (by omega)
    rw [hm6,update_of_ne h3,hm5,update_of_ne h2,hm3,update_of_ne h3,hm2,update_of_ne h2]
    exact hfresh m (by omega) hm256

theorem unlink_all (data : BlockRecords) (params : PruneParams) (fDoFullFlush : Bool) (setFilesToPrune : List Nat)
    (hphase : s.phase = .unlinking setFilesToPrune fDoFullFlush) :
    ∃ st, Reaches (FlushStep lineTree data params) (KeepsBranches lineTree) s
      { s with storage := st, phase := .unlinking [] fDoFullFlush } ∧ st.blockTree = s.storage.blockTree := by
  induction setFilesToPrune generalizing s with
  | nil =>
    refine ⟨s.storage,?_,rfl⟩
    rw [← hphase]
    exact .refl
  | cons n rest ih =>
    obtain ⟨st,hrun,ht⟩ := ih (s := { s with
      storage := s.storage.unlinkPrunedFiles [n], phase := .unlinking rest fDoFullFlush }) rfl
    exact ⟨st,(Reaches.refl.tail (by exact trivial) (.unlinkFile hphase)).trans hrun,ht⟩
end Receive

def lagCoins : CCoinsMap := AList.insert ⟨20,0⟩ ⟨Coin.null,true,false⟩ ∅

def lagPlan : FlushPlan := ⟨AList.entries,fun _ => .refl _,fun _ _ => true⟩

def lagFirst (tip : BlockHash) : CDBBatch := [.eraseBestBlock,.writeHeadBlocks [tip,0],.eraseCoin ⟨20,0⟩]

def lagSecond (tip : BlockHash) : CDBBatch := [.eraseHeadBlocks,.writeBestBlock tip]

theorem lag_batches {tip : BlockHash} (htip : tip ≠ 0) :
    freshDB.batchWrite lagPlan lagCoins tip = .ok [lagFirst tip,lagSecond tip] := by
  rw [CCoinsViewDB.batchWrite,if_neg htip]
  rfl

theorem anc_line {n : Nat} (k : Nat) (hn : 1 ≤ n) (hk : n+k < 2^256) :
    lineTree.Anc (BitVec.ofNat 256 n) (BitVec.ofNat 256 (n+k)) := by
  induction k with
  | zero => exact .refl _
  | succ k ih => exact (ih (by omega)).trans (.of_parent (lineTree_parent (n := n+k) (by omega) (by omega)))

theorem flush_first_batch (data : BlockRecords) (params : PruneParams) {s : FlushState} {files : List Nat}
    {tip : BlockHash} (hphase : s.phase = .synced files true) (htip : s.tip = some tip) (htip0 : tip ≠ 0)
    (hcoins : s.coinsDB = freshDB) :
    ∃ st, Reaches (FlushStep lineTree data params) (KeepsBranches lineTree) s
      { s with storage := st, coinsDB := freshDB.writeBatch (lagFirst tip), phase := .writing [lagSecond tip] } ∧
      st.blockTree = s.storage.writeBatchSync.blockTree := by
  have hstep1 : FlushStep lineTree data params s .writeIndex
      { s with storage := s.storage.writeBatchSync, phase := .unlinking files true } := .writeIndex hphase
  obtain ⟨st,hrun,ht⟩ := unlink_all (s := { s with
    storage := s.storage.writeBatchSync, phase := .unlinking files true }) data params true files rfl
  have hbatches : s.coinsDB.batchWrite lagPlan lagCoins tip = .ok [lagFirst tip,lagSecond tip] := by
    rw [hcoins]
    exact lag_batches htip0
  have hstep2 : FlushStep lineTree data params { s with storage := st, phase := .unlinking [] true } .beginCoins
      { s with storage := st, phase := .writing [lagFirst tip,lagSecond tip] } := .beginCoins rfl htip hbatches
  have hstep3 : FlushStep lineTree data params
      { s with storage := st, phase := .writing [lagFirst tip,lagSecond tip] } .writeBatch
      { s with
        storage := st
        coinsDB := freshDB.writeBatch (lagFirst tip)
        phase := .writing [lagSecond tip] } := by
    rw [← hcoins]
    exact .writeBatch rfl
  exact ⟨st,(((Reaches.refl.tail (by exact trivial) hstep1).trans hrun).tail (by exact trivial) hstep2).tail (by exact trivial) hstep3,ht⟩

def prunedParams : PruneParams := ⟨2^64-1,1000⟩

private theorem prune_run (data : BlockRecords) {s : FlushState} (h : Unflushed 1001 s) :
    ∃ s', Reaches (FlushStep lineTree data prunedParams) (fun _ _ => True) s s' ∧ ¬ Recoverable lineTree s' := by
  have hheight : lineTree.height (BitVec.ofNat 256 1001) = 1000 := lineTree_height (by decide)
  have htip0 : (BitVec.ofNat 256 1001 : BlockHash) ≠ 0 := by decide
  have hanc : lineTree.Anc (BitVec.ofNat 256 2) (BitVec.ofNat 256 1001) := anc_line 999 (by decide) (by decide)
  have htip := h.tip
  generalize (BitVec.ofNat 256 1001 : BlockHash) = tip at hheight htip0 hanc htip
  obtain ⟨e2,he2,hf2⟩ := h.entry
  obtain ⟨files,hdef⟩ : ∃ files, s.storage.findFilesToPruneManual (lineTree.height tip) 1 = files := ⟨_,rfl⟩
  have hfiles : PruneFiles lineTree prunedParams s (.manual 1) files := by
    rw [← hdef]
    exact .manual htip (by decide) (by rw [hheight]; decide) (by rw [hheight]; decide)
  have hmem : 0 ∈ files := by
    have hheight0 := h.height
    rw [← hdef,findFilesToPruneManual,mem_filter,mem_range,hheight]
    refine ⟨h.last,?_⟩
    have hmin : min 1 (lastBlockWeCanPrune 1000) = 1 := by decide
    simp only [hmin,Bool.and_eq_true,bne_iff_ne,decide_eq_true_eq]
    exact ⟨h.size,hheight0⟩
  obtain ⟨st4,hst4⟩ : ∃ st4, st4 = s.storage.atIndexWrite files .none .none := ⟨_,rfl⟩
  have hstep4 : FlushStep lineTree data prunedParams s (.beginFlush (.manual 1) files)
      { s with storage := st4, phase := .synced files true } := by
    rw [hst4]
    exact .beginFlush h.idle hfiles (fun _ => rfl)
  obtain ⟨st6,hrun6,ht6⟩ := flush_first_batch data prunedParams (s := { s with storage := st4, phase := .synced files true }) rfl htip
    htip0 h.coins
  refine ⟨_,(Reaches.refl.tail trivial hstep4).trans (hrun6.mono fun _ => trivial),fun hrec => ?_⟩
  have hbranch : OnBranches lineTree (headBlock 0) (some tip) (BitVec.ofNat 256 2) := by
    refine ⟨by decide,fun hiff => ?_⟩
    obtain ⟨t,ht,_⟩ := hiff.mpr ⟨tip,rfl,hanc⟩
    cases ht
  obtain ⟨e,he,hd,_⟩ := hrec.forward tip 0 rfl (BitVec.ofNat 256 2) hbranch hanc
  replace he : st6.blockTree.index (BitVec.ofNat 256 2) = some e := he
  -- the entry was written after its file had been pruned
  rw [ht6] at he
  replace he : (if st4.setDirtyBlockIndex (BitVec.ofNat 256 2) then st4.mapBlockIndex (BitVec.ofNat 256 2)
    else st4.blockTree.index (BitVec.ofNat 256 2)) = some e := he
  split_ifs at he
  · rw [hst4] at he
    obtain ⟨hs,hn⟩ := pruneFiles_entry (s := s.storage) he hd
    rw [he2] at hs
    cases hs
    exact hn (hf2 ▸ hmem)
  · rw [hst4] at he
    replace he : (s.storage.pruneFiles files).blockTree.index (BitVec.ofNat 256 2) = some e := he
    rw [pruneFiles_tree,h.disk] at he
    cases he

private theorem lineRecords_three : ∃ s, Reaches (FlushStep lineTree lineRecords prunedParams) (KeepsBranches lineTree)
    freshState s ∧ Unflushed 3 s :=
  unflushed_three ((lineRecords_block (BitVec.ofNat 256 2)).trans (if_neg (by decide)))
    ((lineRecords_block (BitVec.ofNat 256 3)).trans (if_pos rfl))

theorem prune_before_coins : ∃ s, Reaches (FlushStep lineTree lineRecords prunedParams) (fun _ _ => True) freshState s ∧
    ¬ Recoverable lineTree s := by
  obtain ⟨s1,hrun1,h1⟩ := lineRecords_three
  obtain ⟨s2,hrun2,h2⟩ := h1.run lineRecords prunedParams (by decide) 998 (by decide)
  obtain ⟨s3,hrun3,h3⟩ := prune_run lineRecords h2
  exact ⟨s3,((hrun1.trans hrun2).mono fun _ => trivial).trans hrun3,h3⟩

/-- A first flush of three blocks that stops after its first batch. -/
theorem flush_recoverable_sample : ∃ s : FlushState, s.coinsDB.headBlocks = [3,0] ∧ Recoverable lineTree s := by
  obtain ⟨s1,hrun1,h1⟩ := lineRecords_three
  have hstep : FlushStep lineTree lineRecords prunedParams s1 (.beginFlush .none [])
      { s1 with storage := s1.storage.atIndexWrite [] .none .none, phase := .synced [] true } :=
    .beginFlush h1.idle .none (fun _ => rfl)
  obtain ⟨st,hrun2,_⟩ := flush_first_batch lineRecords prunedParams
    (s := { s1 with storage := s1.storage.atIndexWrite [] .none .none, phase := .synced [] true }) rfl h1.tip
    (by decide) h1.coins
  have hguard : KeepsBranches lineTree s1 (.beginFlush .none []) := fun _ _ _ _ => not_mem_nil
  exact ⟨_,rfl,flush_recoverable freshState_consistent ((hrun1.tail hguard hstep).trans hrun2)⟩
end Lag
end BitfiniteCore
