import Mathlib.Data.UInt
import Mathlib.Logic.Function.Basic
import BitfiniteCore.Lib.DurableFile
import BitfiniteCore.Lib.GuardedRun
import BitfiniteCore.Primitives.Transaction

/-! # Block files and the block index on disk -/

namespace BitfiniteCore
open Function DurableFile

structure FlatFilePos where
  nFile : Nat
  nPos : Nat

/-- Addition of `unsigned int`. -/
def addUInt32 (a b : Nat) : Nat := (a+b)%2^32

structure CBlockFileInfo where
  nBlocks : Nat := 0
  nSize : Nat := 0
  nUndoSize : Nat := 0
  nHeightFirst : Nat := 0
  nHeightLast : Nat := 0
  nTimeFirst : Nat := 0
  nTimeLast : Nat := 0

def CBlockFileInfo.addBlock (info : CBlockFileInfo) (nHeightIn nTimeIn : Nat) : CBlockFileInfo :=
  { info with
    nHeightFirst := if info.nBlocks = 0 ∨ nHeightIn < info.nHeightFirst then nHeightIn else info.nHeightFirst
    nTimeFirst := if info.nBlocks = 0 ∨ nTimeIn < info.nTimeFirst then nTimeIn else info.nTimeFirst
    nBlocks := addUInt32 info.nBlocks 1
    nHeightLast := max nHeightIn info.nHeightLast
    nTimeLast := max nTimeIn info.nTimeLast }

def BLOCKFILE_CHUNK_SIZE : Nat := 0x1000000

def UNDOFILE_CHUNK_SIZE : Nat := 0x100000

def MAX_BLOCKFILE_SIZE : Nat := 0x8000000

abbrev FlatFileSeq := Nat → Option (DurableFile UInt8)

/-- Which of its calls fails in a flush. -/
inductive FlushFault where
  | none
  | openFile
  | truncateFile
  | fileCommit

namespace FlatFileSeq

/-- A file that is not there is created on opening. -/
def openFile (files : FlatFileSeq) (nFile : Nat) : DurableFile UInt8 := (files nFile).getD {}

def set (files : FlatFileSeq) (nFile : Nat) (f : DurableFile UInt8) : FlatFileSeq := update files nFile (some f)

/-- The new files and `out_of_space`. -/
def allocate (files : FlatFileSeq) (chunkSize : Nat) (pos : FlatFilePos) (addSize : Nat) (space : Bool) :
    FlatFileSeq × Bool :=
  let nOldChunks := (pos.nPos+chunkSize-1)/chunkSize
  let nNewChunks := (pos.nPos+addSize+chunkSize-1)/chunkSize
  if nOldChunks < nNewChunks then
    if space then (files.set pos.nFile ((files.openFile pos.nFile).extend (nNewChunks*chunkSize)),false)
    else (files,true)
  else (files,false)

def flush (files : FlatFileSeq) (pos : FlatFilePos) (finalize : Bool) (fault : FlushFault) : FlatFileSeq × Bool :=
  let file := files.openFile pos.nFile
  let cut := if finalize then file.truncate pos.nPos else file
  match fault with
  | .none => (files.set pos.nFile cut.sync,true)
  | .openFile => (files,false)
  | .truncateFile => if finalize then (files.set pos.nFile file,false) else (files.set pos.nFile file.sync,true)
  | .fileCommit => (files.set pos.nFile cut,false)

def write (files : FlatFileSeq) (pos : FlatFilePos) (bytes : List UInt8) : FlatFileSeq :=
  files.set pos.nFile ((files.openFile pos.nFile).writeAt pos.nPos bytes)

theorem openFile_set (files : FlatFileSeq) (n m : Nat) (f : DurableFile UInt8) :
    (files.set n f).openFile m = if m = n then f else files.openFile m := by
  by_cases h : m = n
  · subst h
    simp [openFile,set]
  · simp [openFile,set,h]
end FlatFileSeq

/-- The part of an index entry that says where the block is. -/
structure BlockPosition where
  nFile : Nat := 0
  nDataPos : Nat := 0
  nUndoPos : Nat := 0
  hasData : Bool := false
  hasUndo : Bool := false

structure CBlockTreeDB where
  index : BlockHash → Option BlockPosition
  fileInfo : Nat → Option CBlockFileInfo
  lastFile : Nat

structure BlockStorage where
  blk : FlatFileSeq
  rev : FlatFileSeq
  vinfoBlockFile : List CBlockFileInfo
  nLastBlockFile : Nat
  setDirtyFileInfo : Nat → Bool
  mapBlockIndex : BlockHash → Option BlockPosition
  setDirtyBlockIndex : BlockHash → Bool
  blockTree : CBlockTreeDB

/-- The undo data and its checksum depend on the block alone, which fixes the chain below it. -/
structure BlockRecords where
  diskMagic : List UInt8
  block : BlockHash → List UInt8
  undo : BlockHash → List UInt8
  checksum : BlockHash → List UInt8
  diskMagic_length : diskMagic.length = 4
  checksum_length : ∀ hash, (checksum hash).length = 32

namespace BlockRecords

variable (data : BlockRecords)

def blockRecord (hash : BlockHash) : List UInt8 := data.diskMagic++leBytes 4 (data.block hash).length++data.block hash

def undoRecord (hash : BlockHash) : List UInt8 :=
  data.diskMagic++leBytes 4 (data.undo hash).length++data.undo hash++data.checksum hash

theorem blockRecord_length (hash : BlockHash) : (data.blockRecord hash).length = (data.block hash).length+8 := by
  simp only [blockRecord,List.length_append,leBytes_length,data.diskMagic_length]
  omega

theorem undoRecord_length (hash : BlockHash) : (data.undoRecord hash).length = (data.undo hash).length+40 := by
  simp only [undoRecord,List.length_append,leBytes_length,data.diskMagic_length,data.checksum_length]
  omega
end BlockRecords

/-- The vector is resized to hold the entry. -/
def modifyInfo (infos : List CBlockFileInfo) (nFile : Nat) (f : CBlockFileInfo → CBlockFileInfo) :
    List CBlockFileInfo := (infos++List.replicate (nFile+1-infos.length) ({} : CBlockFileInfo)).modify nFile f

namespace BlockStorage

variable (s : BlockStorage)

def info (nFile : Nat) : CBlockFileInfo := s.vinfoBlockFile.getD nFile {}

/-- A failure only asks for a shutdown; the callers go on. -/
def flushBlockFile (fFinalize : Bool) (blkFault revFault : FlushFault) : BlockStorage :=
  { s with
    blk := (s.blk.flush ⟨s.nLastBlockFile,(s.info s.nLastBlockFile).nSize⟩ fFinalize blkFault).1
    rev := (s.rev.flush ⟨s.nLastBlockFile,(s.info s.nLastBlockFile).nUndoSize⟩ fFinalize revFault).1 }

/-- The first file from the last one on that is empty or has room. -/
def fileWithRoom (nAddSize : Nat) : Nat :=
  s.nLastBlockFile+((s.vinfoBlockFile.drop s.nLastBlockFile).takeWhile fun info =>
    0 < info.nSize && MAX_BLOCKFILE_SIZE ≤ addUInt32 info.nSize nAddSize).length

def newBlockPos (nAddSize : Nat) : FlatFilePos := ⟨s.fileWithRoom nAddSize,(s.info (s.fileWithRoom nAddSize)).nSize⟩

def enterFile (nFile : Nat) (fFinalize : Bool) (blkFault revFault : FlushFault) : BlockStorage :=
  if nFile ≠ s.nLastBlockFile then
    { s.flushBlockFile fFinalize blkFault revFault with nLastBlockFile := nFile }
  else s

def addToFile (nFile : Nat) (f : CBlockFileInfo → CBlockFileInfo) : BlockStorage :=
  { s with
    vinfoBlockFile := modifyInfo s.vinfoBlockFile nFile f
    setDirtyFileInfo := update s.setDirtyFileInfo nFile true }

def placeBlock (pos : FlatFilePos) (fKnown : Bool) (nAddSize nHeight nTime : Nat) (blkFault revFault : FlushFault) :
    BlockStorage :=
  (s.enterFile pos.nFile (!fKnown) blkFault revFault).addToFile pos.nFile fun info =>
    { info.addBlock nHeight nTime with
      nSize := if fKnown then max (addUInt32 pos.nPos nAddSize) info.nSize else addUInt32 info.nSize nAddSize }

/-- The position, or nothing where the disk is full. -/
def findBlockPos (dbp : Option FlatFilePos) (nAddSize nHeight nTime : Nat) (blkFault revFault : FlushFault)
    (space : Bool) : BlockStorage × Option FlatFilePos :=
  match dbp with
  | some pos => (s.placeBlock pos true nAddSize nHeight nTime blkFault revFault,some pos)
  | none =>
    let pos := s.newBlockPos nAddSize
    let placed := s.placeBlock pos false nAddSize nHeight nTime blkFault revFault
    let blk := placed.blk.allocate BLOCKFILE_CHUNK_SIZE pos nAddSize space
    -- the full disk is reported before the file is marked
    if blk.2 then ({ placed with blk := blk.1, setDirtyFileInfo := s.setDirtyFileInfo },none)
    else ({ placed with blk := blk.1 },some pos)

def saveBlockToDisk (data : BlockRecords) (hash : BlockHash) (nHeight nTime : Nat) (dbp : Option FlatFilePos)
    (blkFault revFault : FlushFault) (space opens : Bool) : BlockStorage × Option FlatFilePos :=
  match s.findBlockPos dbp ((data.block hash).length+8) nHeight nTime blkFault revFault space with
  | (s,none) => (s,none)
  | (s,some pos) =>
    if dbp.isSome then (s,some pos)
    else if opens then
      ({ s with blk := s.blk.write pos (data.blockRecord hash) },some ⟨pos.nFile,pos.nPos+8⟩)
    else (s,none)

def setEntry (hash : BlockHash) (e : BlockPosition) : BlockStorage :=
  { s with
    mapBlockIndex := update s.mapBlockIndex hash (some e)
    setDirtyBlockIndex := update s.setDirtyBlockIndex hash true }

def receivedBlockTransactions (hash : BlockHash) (e : BlockPosition) (pos : FlatFilePos) : BlockStorage :=
  s.setEntry hash { e with nFile := pos.nFile, nDataPos := pos.nPos, nUndoPos := 0, hasData := true }

/-- The end of `AcceptBlock`, for a block whose header has the entry. -/
def acceptBlock (data : BlockRecords) (hash : BlockHash) (e : BlockPosition) (nHeight nTime : Nat)
    (dbp : Option FlatFilePos) (blkFault revFault : FlushFault) (space opens : Bool) : BlockStorage :=
  match s.saveBlockToDisk data hash nHeight nTime dbp blkFault revFault space opens with
  | (s,none) => s
  | (s,some pos) => s.receivedBlockTransactions hash e pos

def writeUndoDataForBlock (data : BlockRecords) (hash : BlockHash) (e : BlockPosition) (space opens : Bool) :
    BlockStorage :=
  if e.hasUndo then s
  else
    let nAddSize := (data.undo hash).length+40
    let pos : FlatFilePos := ⟨e.nFile,(s.info e.nFile).nUndoSize⟩
    let s := s.addToFile e.nFile fun info => { info with nUndoSize := addUInt32 info.nUndoSize nAddSize }
    let rev := s.rev.allocate UNDOFILE_CHUNK_SIZE pos nAddSize space
    if rev.2 || !opens then { s with rev := rev.1 }
    else
      let s := { s with rev := rev.1.write pos (data.undoRecord hash) }
      s.setEntry hash { e with nUndoPos := pos.nPos+8, hasUndo := true }

def pruneOneBlockFile (fileNumber : Nat) : BlockStorage :=
  let inFile hash := (s.mapBlockIndex hash).any fun e => e.nFile == fileNumber
  { s.addToFile fileNumber fun _ => {} with
    mapBlockIndex := fun hash => if inFile hash then some {} else s.mapBlockIndex hash
    setDirtyBlockIndex := fun hash => s.setDirtyBlockIndex hash || inFile hash }

def unlinkPrunedFiles (setFilesToPrune : List Nat) : BlockStorage :=
  { s with
    blk := fun n => if n ∈ setFilesToPrune then none else s.blk n
    rev := fun n => if n ∈ setFilesToPrune then none else s.rev n }

def writeBatchSync : BlockStorage :=
  { s with
    setDirtyFileInfo := fun _ => false
    setDirtyBlockIndex := fun _ => false
    blockTree :=
      { index := fun hash => if s.setDirtyBlockIndex hash then s.mapBlockIndex hash else s.blockTree.index hash
        fileInfo := fun n => if s.setDirtyFileInfo n then some (s.info n) else s.blockTree.fileInfo n
        lastFile := s.nLastBlockFile } }

def pruneFiles (setFilesToPrune : List Nat) : BlockStorage := setFilesToPrune.foldl pruneOneBlockFile s

def atIndexWrite (setFilesToPrune : List Nat) (blkFault revFault : FlushFault) : BlockStorage :=
  (s.pruneFiles setFilesToPrune).flushBlockFile false blkFault revFault

/-- `fWrite` stands for a full or periodic write.  The dirty sets are emptied before the write succeeds. -/
def flushStateToDisk (setFilesToPrune : List Nat) (fWrite space : Bool) (blkFault revFault : FlushFault)
    (written : Bool) : BlockStorage :=
  if !fWrite && setFilesToPrune.isEmpty then s
  else if !space then s.pruneFiles setFilesToPrune
  else
    let s := s.atIndexWrite setFilesToPrune blkFault revFault
    if written then s.writeBatchSync.unlinkPrunedFiles setFilesToPrune
    else { s with setDirtyFileInfo := fun _ => false, setDirtyBlockIndex := fun _ => false }
end BlockStorage

inductive StorageEvent where
  | addToBlockIndex (hash : BlockHash)
  | acceptBlock (hash : BlockHash) (nHeight nTime : Nat) (dbp : Option FlatFilePos)
      (blkFault revFault : FlushFault) (space opens : Bool)
  | writeUndo (hash : BlockHash) (space opens : Bool)
  | flushState (setFilesToPrune : List Nat) (fWrite space : Bool) (blkFault revFault : FlushFault) (written : Bool)

def BlockStorage.ReadsBlock (s : BlockStorage) (data : BlockRecords) (hash : BlockHash) (pos : FlatFilePos) : Prop :=
  8 ≤ pos.nPos ∧ HoldsAt (s.blk.openFile pos.nFile).contents (pos.nPos-8) (data.blockRecord hash) ∧
    HoldsAt (s.blk.openFile pos.nFile).durable (pos.nPos-8) (data.blockRecord hash)

/-- Blocks arrive in any order, and a block with data may be connected at any later time. -/
inductive StorageStep (data : BlockRecords) : BlockStorage → StorageEvent → BlockStorage → Prop
  | addToBlockIndex {s : BlockStorage} {hash : BlockHash} (hnew : s.mapBlockIndex hash = none) :
      StorageStep data s (.addToBlockIndex hash) (s.setEntry hash {})
  | acceptBlock {s : BlockStorage} {hash : BlockHash} {e : BlockPosition} {nHeight nTime : Nat}
      {dbp : Option FlatFilePos} {blkFault revFault : FlushFault} {space opens : Bool}
      (hentry : s.mapBlockIndex hash = some e) (hdata : e.hasData = false)
      (hread : ∀ pos, dbp = some pos → s.ReadsBlock data hash pos) :
      StorageStep data s (.acceptBlock hash nHeight nTime dbp blkFault revFault space opens)
        (s.acceptBlock data hash e nHeight nTime dbp blkFault revFault space opens)
  | writeUndo {s : BlockStorage} {hash : BlockHash} {e : BlockPosition} {space opens : Bool}
      (hentry : s.mapBlockIndex hash = some e) (hdata : e.hasData = true) :
      StorageStep data s (.writeUndo hash space opens) (s.writeUndoDataForBlock data hash e space opens)
  | flushState {s : BlockStorage} {setFilesToPrune : List Nat} {fWrite space : Bool}
      {blkFault revFault : FlushFault} {written : Bool} (hfiles : ∀ n ∈ setFilesToPrune, n < s.nLastBlockFile) :
      StorageStep data s (.flushState setFilesToPrune fWrite space blkFault revFault written)
        (s.flushStateToDisk setFilesToPrune fWrite space blkFault revFault written)
end BitfiniteCore
