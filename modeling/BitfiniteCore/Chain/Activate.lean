import BitfiniteCore.Chain.State
import BitfiniteCore.Lib.Maximal

/-!
# Activating the best chain

One step at a time.  What other threads see are the states in which `cs_main` is free.
-/

namespace BitfiniteCore
open Function ParentTree

namespace ChainState

variable (s : ChainState)

/-- `UpdateFlagsForBlock` and whether it changed the block. -/
def updateFlagsForBlock (pindexBase : Option BlockHash) (f : BlockStatus → BlockStatus) (b : BlockHash) :
    ChainState × Bool :=
  let newStatus := f (s.nStatus b)
  if s.nStatus b ≠ newStatus ∧ (pindexBase.all fun base => s.tree.getAncestor b (s.tree.height base) == some base)
  then
    let s := s.setStatus b newStatus
    let s := if newStatus.isValid .transactions then
        { s with failedBlocks := s.failedBlocks.filter fun x => x ≠ b }
      else s
    (if newStatus.isValid .transactions && s.haveTxsDownloaded b && s.worse s.tip b then s.insertCandidate b
      else s,true)
  else (s,false)

def updateAncestors (f : BlockStatus → BlockStatus) : List BlockHash → ChainState → BlockHash → ChainState × BlockHash
  | [], s, pindexDeepestChanged => (s,pindexDeepestChanged)
  | b::bs, s, pindexDeepestChanged =>
    let r := s.updateFlagsForBlock none f b
    updateAncestors f bs r.1 (if r.2 then b else pindexDeepestChanged)

/-- The loop over `mapBlockIndex`. -/
def updateDescendants (pindex pindexDeepestChanged : BlockHash) (fChild fAncestorWasChanged : BlockStatus → BlockStatus) :
    List BlockHash → ChainState → ChainState
  | [], s => s
  | b::bs, s =>
    updateDescendants pindex pindexDeepestChanged fChild fAncestorWasChanged bs
      (((s.updateFlagsForBlock (some pindex) fChild b).1.updateFlagsForBlock (some pindexDeepestChanged)
        fAncestorWasChanged b).1)

def updateFlags (pindex : BlockHash) (f fChild fAncestorWasChanged : BlockStatus → BlockStatus) : ChainState :=
  let r := updateAncestors f (s.tree.lineage pindex) s pindex
  updateDescendants pindex r.2 fChild fAncestorWasChanged s.tree.known r.1

/-- `UnparkBlock`, which leaves parked children parked. -/
def unparkBlock (pindex : BlockHash) : ChainState :=
  s.updateFlags pindex BlockStatus.withClearedParkedFlags (fun st => st.withParkedParent false)
    fun st => st.withParkedParent false

/-- Twice the work since the fork, or half a block more for forks of one to three blocks. -/
def requiredWork (fork : BlockHash) : Nat :=
  let tipWork := s.tree.nChainWork s.tip
  let forkWork := s.tree.nChainWork fork
  let depth := s.tree.height s.tip-s.tree.height fork
  let extraWork := if depth = 2 ∨ depth = 3 then ((s.tree.parent s.tip).map s.tree.nChainWork).getD 0
    else tipWork
  if depth = 1 ∨ depth = 2 ∨ depth = 3 then tipWork+(extraWork-forkWork)/2 else tipWork+(tipWork-forkWork)

def dropFromChain (fInvalidChain fParkedChain fMissingData : Bool) (b : BlockHash) : ChainState :=
  let s := if fInvalidChain || fParkedChain then
      s.setStatus b (((s.nStatus b).withFailedParent fInvalidChain).withParkedParent fParkedChain)
    else if fMissingData then
      { s with mapBlocksUnlinked := s.mapBlocksUnlinked++((s.tree.parent b).map fun p => (p,b)).toList }
    else s
  s.eraseCandidate b

def dropChain (fInvalidChain fParkedChain fMissingData : Bool) : List BlockHash → ChainState → ChainState
  | [], s => s
  | b::bs, s =>
    dropChain fInvalidChain fParkedChain fMissingData bs (s.dropFromChain fInvalidChain fParkedChain fMissingData b)

/-- A parked block on the way to a candidate with enough work is unparked. -/
def unparkIfEnough (cfg : ChainConfig) (pindexNew fork test : BlockHash) : ChainState :=
  if (s.nStatus test).isOnParkedChain && cfg.automaticunparking &&
      decide (s.requiredWork fork < s.tree.nChainWork pindexNew) then s.unparkBlock test
  else s

/-- The walk of `FindMostWorkChain` from a candidate to the fork; the blocks already passed are given
from the last one back. -/
def testChain (cfg : ChainConfig) (pindexNew fork : BlockHash) : List BlockHash → List BlockHash → ChainState →
    Except Stop (ChainState × Bool)
  | [], _, s => .ok (s,true)
  | pindexTest::rest, passed, s =>
    if !(s.haveTxsDownloaded pindexTest) && s.tree.height pindexTest != 0 then
      .error (.assertion "pindexTest->HaveTxsDownloaded() || pindexTest->nHeight == 0")
    else
      let parked := (s.nStatus pindexTest).isOnParkedChain
      let enough := cfg.automaticunparking && decide (s.requiredWork fork < s.tree.nChainWork pindexNew)
      let s := s.unparkIfEnough cfg pindexNew fork pindexTest
      let fParkedChain := parked && !enough
      let fInvalidChain := (s.nStatus pindexTest).isInvalid
      let fMissingData := !(s.nStatus pindexTest).hasData
      if !(fInvalidChain || fParkedChain || fMissingData) then
        testChain cfg pindexNew fork rest (pindexTest::passed) s
      else .ok (dropChain fInvalidChain fParkedChain fMissingData passed.reverse (s.eraseCandidate pindexTest),false)
end ChainState

inductive Choice where
  | none
  | found (pindexNew : BlockHash) (s : ChainState)
  | again (s : ChainState)

namespace ChainState

variable (s : ChainState)

def bestCandidate : Option BlockHash := Maximal.best s.worse s.setBlockIndexCandidates

/-- A candidate that would undo a finalized block is marked as failed. -/
def failIfConflicting (pindexNew : BlockHash) : ChainState :=
  if s.conflictsWithFinalized pindexNew then
    (s.setStatus pindexNew ((s.nStatus pindexNew).withFailed true)).invalidChainFound pindexNew
  else s

/-- One round of the loop of `FindMostWorkChain`. -/
def findMostWorkChain (cfg : ChainConfig) : Except Stop Choice :=
  match s.bestCandidate with
  | none => .ok .none
  | some pindexNew =>
    let s := s.failIfConflicting pindexNew
    match s.findFork pindexNew with
    | none => .error (.assertion "pindexFork")
    | some fork =>
      (testChain cfg pindexNew fork (s.tree.path fork pindexNew) [] s).map fun r =>
        if r.2 then .found pindexNew r.1 else .again r.1

def pruneBlockIndexCandidates : Except Stop ChainState :=
  let s := { s with setBlockIndexCandidates := s.setBlockIndexCandidates.filter fun x => !s.worse x s.tip }
  if s.setBlockIndexCandidates = [] then .error (.assertion "!setBlockIndexCandidates.empty()") else .ok s

def nextChunk (pindexMostWork : BlockHash) (nHeight : Nat) : List BlockHash :=
  ((s.tree.getAncestor pindexMostWork (min (nHeight+32) (s.tree.height pindexMostWork))).map fun b =>
    ((s.tree.lineage b).takeWhile fun x => s.tree.height x ≠ nHeight).reverse).getD []
end ChainState

/-- Where `ActivateBestChain` is.  It holds `cs_main` in the last three of these. -/
inductive ActivatePc where
  | idle
  | released (pindexMostWork : Option BlockHash)
  | choosing (startingTip : BlockHash) (blocksConnected : Bool) (pindexMostWork : Option BlockHash)
  | disconnecting (startingTip oldTip fork pindexMostWork : BlockHash)
  | connecting (startingTip oldTip pindexMostWork : BlockHash) (nHeight : Nat) (back : BlockHash)
      (toConnect : List BlockHash)
deriving DecidableEq, Repr

def ActivatePc.holdsMain : ActivatePc → Bool
  | .idle => false
  | .released _ => false
  | _ => true

namespace ChainState

variable (s : ChainState)

def leaveMain (pindexMostWork : Option BlockHash) : ActivatePc :=
  if some s.tip = pindexMostWork then .idle else .released pindexMostWork

def finishStep (startingTip pindexMostWork : BlockHash) (fInvalidFound : Bool) : ActivatePc :=
  let mostWork := if fInvalidFound then none else some pindexMostWork
  if s.worse s.tip startingTip then .choosing startingTip true mostWork else s.leaveMain mostWork

/-- Connecting one block in `ActivateBestChainStep`. -/
def connectNext (cfg : ChainConfig) (disk : DiskResult) (now : Int) (startingTip oldTip pindexMostWork : BlockHash) (nHeight : Nat)
    (back b : BlockHash) (rest : List BlockHash) : Except Stop (ChainState × ActivatePc) :=
  (s.connectTip cfg disk b now).bind fun r =>
    match r with
    | .failed s => .ok (s,.idle)
    | .invalid s corruptionPossible =>
      let s := if corruptionPossible then s else s.invalidChainFound back
      .ok (s,s.finishStep startingTip pindexMostWork true)
    | .connected s =>
      s.pruneBlockIndexCandidates.map fun s =>
        (s,if s.tree.nChainWork s.tip > s.tree.nChainWork oldTip then s.finishStep startingTip pindexMostWork false
          else .connecting startingTip oldTip pindexMostWork nHeight back rest)

/-- One step of a thread in `ActivateBestChain`; `now` is what `GetTime` returns.  A failure of the disk makes it
return. -/
def activateStep (cfg : ChainConfig) (disk : DiskResult) (now : Int) : ActivatePc →
    Except Stop (ChainState × ActivatePc)
  | .idle => .ok (s,.idle)
  | .released pindexMostWork => .ok (s,.choosing s.tip false pindexMostWork)
  | .choosing startingTip blocksConnected none =>
    (s.findMostWorkChain cfg).map fun r =>
      match r with
      | .none => (s,if blocksConnected then s.leaveMain none else .idle)
      | .found pindexNew s => (s,.choosing startingTip blocksConnected (some pindexNew))
      | .again s => (s,.choosing startingTip blocksConnected none)
  | .choosing startingTip blocksConnected (some pindexMostWork) =>
    if pindexMostWork = s.tip then .ok (s,if blocksConnected then s.leaveMain (some pindexMostWork) else .idle)
    else
      match s.findFork pindexMostWork with
      | none => .error (.assertion "pindexFork")
      | some fork => .ok (s,.disconnecting startingTip s.tip fork pindexMostWork)
  | .disconnecting startingTip oldTip fork pindexMostWork =>
    if s.tip = fork then
      .ok (s,.connecting startingTip oldTip pindexMostWork (s.tree.height fork) pindexMostWork [])
    else if disk ≠ .good then .ok (s,.idle)
    else
      match s.disconnectTip with
      | none => .error (.assertion "DisconnectTip")
      | some s => .ok (s,.disconnecting startingTip oldTip fork pindexMostWork)
  | .connecting startingTip oldTip pindexMostWork nHeight back toConnect =>
    match toConnect with
    | [] =>
      if nHeight = s.tree.height pindexMostWork then .ok (s,s.finishStep startingTip pindexMostWork false)
      else
        let chunk := s.nextChunk pindexMostWork nHeight
        .ok (s,.connecting startingTip oldTip pindexMostWork
          (min (nHeight+32) (s.tree.height pindexMostWork)) (chunk.headD pindexMostWork) chunk)
    | b::rest => s.connectNext cfg disk now startingTip oldTip pindexMostWork nHeight back b rest
end ChainState
end BitfiniteCore
