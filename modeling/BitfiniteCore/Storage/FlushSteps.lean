import BitfiniteCore.Coins.Database
import BitfiniteCore.Lib.ParentTree
import BitfiniteCore.Storage.BlockFiles

/-!
# The durable steps of a flush

The process may stop between any two of these steps.
-/

namespace BitfiniteCore
open Function ParentTree

def MIN_BLOCKS_TO_KEEP : Nat := 288

structure PruneParams where
  nPruneTarget : Nat
  nPruneAfterHeight : Nat

namespace BlockStorage

variable (s : BlockStorage)

def lastBlockWeCanPrune (tipHeight : Nat) : Nat := addUInt32 tipHeight (2^32-MIN_BLOCKS_TO_KEEP)

def findFilesToPruneManual (tipHeight nManualPruneHeight : Nat) : List Nat :=
  (List.range s.nLastBlockFile).filter fun n =>
    (s.info n).nSize != 0 && (s.info n).nHeightLast ≤ min nManualPruneHeight (lastBlockWeCanPrune tipHeight)

def calculateCurrentUsage : Nat := (s.vinfoBlockFile.map fun info => addUInt32 info.nSize info.nUndoSize).sum

def pruneLoop (nPruneTarget nBuffer nLastBlockWeCanPrune : Nat) : Nat → List Nat → List Nat
  | _, [] => []
  | nCurrentUsage, n::rest =>
    if (s.info n).nSize = 0 then pruneLoop nPruneTarget nBuffer nLastBlockWeCanPrune nCurrentUsage rest
    else if nCurrentUsage+nBuffer < nPruneTarget then []
    else if nLastBlockWeCanPrune < (s.info n).nHeightLast then
      pruneLoop nPruneTarget nBuffer nLastBlockWeCanPrune nCurrentUsage rest
    else
      n::pruneLoop nPruneTarget nBuffer nLastBlockWeCanPrune
        (nCurrentUsage-addUInt32 (s.info n).nSize (s.info n).nUndoSize) rest

def findFilesToPrune (params : PruneParams) (tipHeight : Nat) (initialDownload : Bool) : List Nat :=
  let nBuffer := BLOCKFILE_CHUNK_SIZE+UNDOFILE_CHUNK_SIZE
  if params.nPruneTarget = 0 ∨ tipHeight ≤ params.nPruneAfterHeight then []
  else if params.nPruneTarget ≤ s.calculateCurrentUsage+nBuffer then
    s.pruneLoop params.nPruneTarget (if initialDownload then nBuffer+params.nPruneTarget/10 else nBuffer)
      (lastBlockWeCanPrune tipHeight) s.calculateCurrentUsage (List.range s.nLastBlockFile)
  else []
end BlockStorage

inductive PruneRequest where
  | none
  | automatic (initialDownload : Bool)
  | manual (nManualPruneHeight : Nat)

/-- Where a flush is. The files still to be removed are kept, and whether the coins follow. -/
inductive FlushPhase where
  | idle
  | synced (setFilesToPrune : List Nat) (fDoFullFlush : Bool)
  | unlinking (setFilesToPrune : List Nat) (fDoFullFlush : Bool)
  | writing (batches : List CDBBatch)

/-- The node with its disk: the files and the index database are part of the storage. -/
structure FlushState where
  storage : BlockStorage
  tip : Option BlockHash
  coinsDB : CCoinsViewDB
  phase : FlushPhase

/-- The files a flush is to prune. Pruning by hand is refused on a chain that is too short. -/
inductive PruneFiles (T : ParentTree BlockHash) (params : PruneParams) (s : FlushState) :
    PruneRequest → List Nat → Prop
  | none : PruneFiles T params s .none []
  | noTip {request : PruneRequest} (htip : s.tip = Option.none) : PruneFiles T params s request []
  | automatic {tip : BlockHash} {initialDownload : Bool} (htip : s.tip = some tip) :
      PruneFiles T params s (.automatic initialDownload)
        (s.storage.findFilesToPrune params (T.height tip) initialDownload)
  | manual {tip : BlockHash} {nManualPruneHeight : Nat} (htip : s.tip = some tip) (hpos : 0 < nManualPruneHeight)
      (hlong : params.nPruneAfterHeight ≤ T.height tip) (hle : nManualPruneHeight ≤ T.height tip) :
      PruneFiles T params s (.manual nManualPruneHeight)
        (s.storage.findFilesToPruneManual (T.height tip) nManualPruneHeight)

inductive FlushEvent where
  | storage (event : StorageEvent)
  | connectTip (hash : BlockHash)
  | disconnectTip
  | beginFlush (request : PruneRequest) (setFilesToPrune : List Nat)
  | writeIndex
  | unlinkFile
  | endIndexWrite
  | beginCoins
  | writeBatch
  | endFlush

/-- A flush goes through its steps under the lock of the chain. -/
inductive FlushStep (T : ParentTree BlockHash) (data : BlockRecords) (params : PruneParams) :
    FlushState → FlushEvent → FlushState → Prop
  | addToBlockIndex {s : FlushState} {hash : BlockHash} (hidle : s.phase = .idle) (hnull : hash ≠ 0)
      (hnew : s.storage.mapBlockIndex hash = none) :
      FlushStep T data params s (.storage (.addToBlockIndex hash)) { s with storage := s.storage.setEntry hash {} }
  | acceptBlock {s : FlushState} {hash : BlockHash} {e : BlockPosition} {nHeight nTime : Nat}
      {dbp : Option FlatFilePos} {blkFault revFault : FlushFault} {space opens : Bool} (hidle : s.phase = .idle)
      (hentry : s.storage.mapBlockIndex hash = some e) (hdata : e.hasData = false)
      (hread : ∀ pos, dbp = some pos → s.storage.ReadsBlock data hash pos) :
      FlushStep T data params s (.storage (.acceptBlock hash nHeight nTime dbp blkFault revFault space opens))
        { s with storage := s.storage.acceptBlock data hash e nHeight nTime dbp blkFault revFault space opens }
  | connectGenesis {s : FlushState} {hash : BlockHash} {e : BlockPosition} (hidle : s.phase = .idle)
      (htip : s.tip = none) (hparent : T.parent hash = none) (hentry : s.storage.mapBlockIndex hash = some e) :
      FlushStep T data params s (.connectTip hash) { s with tip := some hash }
  | connectTip {s : FlushState} {hash tip : BlockHash} {e e' : BlockPosition} {space opens : Bool}
      (hidle : s.phase = .idle) (htip : s.tip = some tip) (hparent : T.parent hash = some tip)
      (hentry : s.storage.mapBlockIndex hash = some e) (hdata : e.hasData = true)
      (hwritten : (s.storage.writeUndoDataForBlock data hash e space opens).mapBlockIndex hash = some e')
      (hundo : e'.hasUndo = true) :
      FlushStep T data params s (.connectTip hash)
        { s with storage := s.storage.writeUndoDataForBlock data hash e space opens, tip := some hash }
  | disconnectTip {s : FlushState} {tip prev : BlockHash} {e : BlockPosition} (hidle : s.phase = .idle)
      (htip : s.tip = some tip) (hparent : T.parent tip = some prev)
      (hentry : s.storage.mapBlockIndex tip = some e) (hdata : e.hasData = true) (hundo : e.hasUndo = true) :
      FlushStep T data params s .disconnectTip { s with tip := some prev }
  | lowSpace {s : FlushState} {request : PruneRequest} {setFilesToPrune : List Nat} (hidle : s.phase = .idle)
      (hfiles : PruneFiles T params s request setFilesToPrune) :
      FlushStep T data params s (.beginFlush request setFilesToPrune)
        { s with storage := s.storage.pruneFiles setFilesToPrune }
  | beginFlush {s : FlushState} {request : PruneRequest} {setFilesToPrune : List Nat} {fDoFullFlush : Bool}
      {blkFault revFault : FlushFault} (hidle : s.phase = .idle)
      (hfiles : PruneFiles T params s request setFilesToPrune)
      (hfull : setFilesToPrune ≠ [] → fDoFullFlush = true) :
      FlushStep T data params s (.beginFlush request setFilesToPrune)
        { s with
          storage := s.storage.atIndexWrite setFilesToPrune blkFault revFault
          phase := .synced setFilesToPrune fDoFullFlush }
  | writeIndex {s : FlushState} {setFilesToPrune : List Nat} {fDoFullFlush : Bool}
      (hphase : s.phase = .synced setFilesToPrune fDoFullFlush) :
      FlushStep T data params s .writeIndex
        { s with storage := s.storage.writeBatchSync, phase := .unlinking setFilesToPrune fDoFullFlush }
  | unlinkFile {s : FlushState} {n : Nat} {rest : List Nat} {fDoFullFlush : Bool}
      (hphase : s.phase = .unlinking (n::rest) fDoFullFlush) :
      FlushStep T data params s .unlinkFile
        { s with storage := s.storage.unlinkPrunedFiles [n], phase := .unlinking rest fDoFullFlush }
  | endIndexWrite {s : FlushState} {fDoFullFlush : Bool} (hphase : s.phase = .unlinking [] fDoFullFlush) :
      FlushStep T data params s .endIndexWrite { s with phase := .idle }
  | beginCoins {s : FlushState} {tip : BlockHash} {plan : FlushPlan} {mapCoins : CCoinsMap}
      {batches : List CDBBatch} (hphase : s.phase = .unlinking [] true) (htip : s.tip = some tip)
      (hbatches : s.coinsDB.batchWrite plan mapCoins tip = .ok batches) :
      FlushStep T data params s .beginCoins { s with phase := .writing batches }
  | writeBatch {s : FlushState} {batch : CDBBatch} {rest : List CDBBatch} (hphase : s.phase = .writing (batch::rest)) :
      FlushStep T data params s .writeBatch
        { s with coinsDB := s.coinsDB.writeBatch batch, phase := .writing rest }
  | endFlush {s : FlushState} (hphase : s.phase = .writing []) :
      FlushStep T data params s .endFlush { s with phase := .idle }

def BlockStorage.ReadsData (s : BlockStorage) (hash : BlockHash) : Prop :=
  ∃ e, s.blockTree.index hash = some e ∧ e.hasData = true ∧ (s.blk e.nFile).isSome

def BlockStorage.ReadsUndo (s : BlockStorage) (hash : BlockHash) : Prop :=
  ∃ e, s.blockTree.index hash = some e ∧ e.hasUndo = true ∧ (s.rev e.nFile).isSome

def BelowTip (T : ParentTree BlockHash) (hash : BlockHash) (tip : Option BlockHash) : Prop :=
  ∃ t, tip = some t ∧ T.Anc hash t

def OnBranches (T : ParentTree BlockHash) (old new : Option BlockHash) (hash : BlockHash) : Prop :=
  0 < T.height hash ∧ ¬ (BelowTip T hash old ↔ BelowTip T hash new)

/-- The head block null stands for no block. -/
def headBlock (hash : BlockHash) : Option BlockHash := if hash = 0 then none else some hash

/-- The disk of a state: what a restart finds is enough. -/
structure Recoverable (T : ParentTree BlockHash) (s : FlushState) : Prop where
  best : ∀ b, s.coinsDB.bestBlock = some b → (s.storage.blockTree.index b).isSome
  heads : s.coinsDB.headBlocks = [] ∨ s.coinsDB.headBlocks.length = 2
  known : ∀ new old, s.coinsDB.headBlocks = [new,old] → (s.storage.blockTree.index new).isSome ∧
    ∀ b, headBlock old = some b → (s.storage.blockTree.index b).isSome
  forward : ∀ new old, s.coinsDB.headBlocks = [new,old] → ∀ b, OnBranches T (headBlock old) (some new) b →
    T.Anc b new → s.storage.ReadsData b
  rollback : ∀ new old, s.coinsDB.headBlocks = [new,old] → ∀ b, OnBranches T (headBlock old) (some new) b →
    ¬ T.Anc b new → s.storage.ReadsData b ∧ s.storage.ReadsUndo b
end BitfiniteCore
