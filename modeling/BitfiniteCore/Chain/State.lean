import BitfiniteCore.Chain.BlockIndex

/-!
# The chain state

The active chain is named by its tip.  The best known header, invalid and parked blocks, which only
serve warnings and header download, are left out.
-/

namespace BitfiniteCore
open Function ParentTree

inductive BlockValidity where
  | unknown
  | header
  | tree
  | transactions
  | chain
  | scripts
deriving DecidableEq, Repr

def BlockValidity.level : BlockValidity → Nat
  | .unknown => 0
  | .header => 1
  | .tree => 2
  | .transactions => 3
  | .chain => 4
  | .scripts => 5

structure BlockStatus where
  getValidity : BlockValidity
  hasData : Bool
  hasFailed : Bool
  hasFailedParent : Bool
  isParked : Bool
  hasParkedParent : Bool
deriving DecidableEq, Repr

namespace BlockStatus

def empty : BlockStatus := ⟨.unknown,false,false,false,false,false⟩

def isInvalid (st : BlockStatus) : Bool := st.hasFailed || st.hasFailedParent

def isOnParkedChain (st : BlockStatus) : Bool := st.isParked || st.hasParkedParent

def isValid (st : BlockStatus) (nUpTo : BlockValidity) : Bool :=
  if st.isInvalid then false else decide (nUpTo.level ≤ st.getValidity.level)

def withData (st : BlockStatus) : BlockStatus := { st with hasData := true }

def withFailed (st : BlockStatus) (b : Bool) : BlockStatus := { st with hasFailed := b }

def withFailedParent (st : BlockStatus) (b : Bool) : BlockStatus := { st with hasFailedParent := b }

def withParked (st : BlockStatus) (b : Bool) : BlockStatus := { st with isParked := b }

def withParkedParent (st : BlockStatus) (b : Bool) : BlockStatus := { st with hasParkedParent := b }

def withClearedFailureFlags (st : BlockStatus) : BlockStatus :=
  { st with hasFailed := false, hasFailedParent := false }

def withClearedParkedFlags (st : BlockStatus) : BlockStatus := { st with isParked := false, hasParkedParent := false }

/-- `CBlockIndex::RaiseValidity`. -/
def raiseValidity (st : BlockStatus) (nUpTo : BlockValidity) : BlockStatus :=
  if st.isInvalid then st
  else if nUpTo.level ≤ st.getValidity.level then st
  else { st with getValidity := nUpTo }
end BlockStatus

/-- Command line, consensus parameters and the verdict of `ConnectBlock` on each block. -/
structure ChainConfig where
  maxreorgdepth : Int
  finalizationdelay : Int
  parkdeepreorg : Bool
  automaticunparking : Bool
  startupTime : Int
  nMinimumChainWork : Nat
  powLimit : Nat
  connectBlock : BlockHash → Bool

/-- `nSequenceId` is not bounded by 32 bits. -/
structure ChainState where
  tree : BlockTree
  nStatus : BlockHash → BlockStatus
  nTx : BlockHash → Nat
  nChainTx : BlockHash → Nat
  nSequenceId : BlockHash → Nat
  nBlockSequenceId : Nat
  setBlockIndexCandidates : List BlockHash
  failedBlocks : List BlockHash
  mapBlocksUnlinked : List (BlockHash × BlockHash)
  tip : BlockHash
  pindexFinalized : Option BlockHash

namespace ChainState

variable (s : ChainState)

def setStatus (b : BlockHash) (st : BlockStatus) : ChainState := { s with nStatus := update s.nStatus b st }

/-- Insertion into the set of candidates, which keeps one copy. -/
def insertCandidate (b : BlockHash) : ChainState :=
  { s with setBlockIndexCandidates := s.setBlockIndexCandidates.insert b }

def eraseCandidate (b : BlockHash) : ChainState :=
  { s with setBlockIndexCandidates := s.setBlockIndexCandidates.filter fun x => x ≠ b }

def haveTxsDownloaded (b : BlockHash) : Bool := s.nChainTx b != 0

/-- `CBlockIndexWorkComparator`; the hash stands for the address that breaks ties. -/
def worse (pa pb : BlockHash) : Bool :=
  if s.tree.nChainWork pa > s.tree.nChainWork pb then false
  else if s.tree.nChainWork pa < s.tree.nChainWork pb then true
  else if s.nSequenceId pa < s.nSequenceId pb then false
  else if s.nSequenceId pa > s.nSequenceId pb then true
  else if pa < pb then false
  else if pa > pb then true
  else false

/-- `CChain::Contains`. -/
def contains (b : BlockHash) : Bool := s.tree.getAncestor s.tip (s.tree.height b) == some b

/-- `CChain::FindFork`. -/
def findFork (b : BlockHash) : Option BlockHash :=
  let start := if s.tree.height b > s.tree.height s.tip then s.tree.getAncestor b (s.tree.height s.tip) else some b
  start.bind fun b => (s.tree.lineage b).find? s.contains

def areOnTheSameFork (pa pb : BlockHash) : Bool :=
  if s.tree.height pa > s.tree.height pb then s.tree.getAncestor pa (s.tree.height pb) == some pb
  else if s.tree.height pb > s.tree.height pa then s.tree.getAncestor pb (s.tree.height pa) == some pa
  else pa == pb

def isBlockFinalized (b : BlockHash) : Bool :=
  s.pindexFinalized.any fun f => s.tree.getAncestor f (s.tree.height b) == some b

def conflictsWithFinalized (b : BlockHash) : Bool := s.pindexFinalized.any fun f => !s.areOnTheSameFork b f

def invalidChainFound (b : BlockHash) : ChainState :=
  if s.isBlockFinalized b then { s with pindexFinalized := s.tree.parent b } else s

/-- `InvalidBlockFound` for a block that is not corrupted. -/
def invalidBlockFound (b : BlockHash) : ChainState :=
  invalidChainFound { s.setStatus b ((s.nStatus b).withFailed true) with
    failedBlocks := s.failedBlocks.insert b } b

/-- `FinalizeBlockInternal`; `none` is an error. -/
def finalizeBlockInternal (b : BlockHash) : Option ChainState :=
  if (s.nStatus b).isInvalid then none
  else if s.conflictsWithFinalized b then none
  else if s.isBlockFinalized b then some s
  else some { s with pindexFinalized := some b }

def findBlockToFinalize (cfg : ChainConfig) (pindexNew : BlockHash) (now : Int) : Option BlockHash :=
  let height : Int := s.tree.height pindexNew-cfg.maxreorgdepth
  let pindex := if height < 0 then none else s.tree.getAncestor pindexNew height.toNat
  if now < cfg.startupTime+cfg.finalizationdelay then none
  else pindex.bind fun b =>
    ((s.tree.lineage b).takeWhile fun x => s.pindexFinalized ≠ some x).find? fun x =>
      s.tree.nTimeReceived x+cfg.finalizationdelay ≤ now

/-- `DisconnectTip`; the genesis block has no undo data and cannot be disconnected. -/
def disconnectTip : Option ChainState :=
  (s.tree.parent s.tip).map fun pprev =>
    { s with
      tip := pprev
      pindexFinalized := if s.pindexFinalized = some s.tip then some pprev else s.pindexFinalized }
end ChainState

/-- What happens to the files: a block is not read or its undo data not written, or `FlushStateToDisk` fails. -/
inductive DiskResult where
  | good
  | readFailed
  | flushFailed
deriving DecidableEq, Repr

/-- `failed` is the return value false for a reason that is not the block. -/
inductive ConnectTipResult where
  | connected (s : ChainState)
  | invalid (s : ChainState) (corruptionPossible : Bool)
  | failed (s : ChainState)

namespace ChainState

variable (s : ChainState)

/-- The chain state is flushed before the tip is set. -/
def finishConnect (disk : DiskResult) (pindexNew : BlockHash) : ConnectTipResult :=
  if disk = .flushFailed then .failed s else .connected { s with tip := pindexNew }

def connectTip (cfg : ChainConfig) (disk : DiskResult) (pindexNew : BlockHash) (now : Int) :
    Except Stop ConnectTipResult :=
  if s.tree.parent pindexNew ≠ some s.tip then .error (.assertion "pindexNew->pprev == m_chain.Tip()")
  else if disk = .readFailed then .ok (.failed s)
  else if !cfg.connectBlock pindexNew then .ok (.invalid (s.invalidBlockFound pindexNew) false)
  else
    let s := s.setStatus pindexNew ((s.nStatus pindexNew).raiseValidity .scripts)
    match s.findBlockToFinalize cfg pindexNew now with
    | none => .ok (s.finishConnect disk pindexNew)
    | some pindexToFinalize =>
      match s.finalizeBlockInternal pindexToFinalize with
      | none => .ok (.invalid s true)
      | some s => .ok (s.finishConnect disk pindexNew)

def markFailedParents : List BlockHash → ChainState → ChainState
  | [], s => s
  | b::bs, s => markFailedParents bs (s.setStatus b ((s.nStatus b).withFailedParent true))

def addToBlockIndex (header : CBlockHeader) (now : Int) (hnew : header.hash ∉ s.tree.known)
    (hprev : header.hashPrevBlock ∈ s.tree.known) (hproof : 0 < getBlockProof header.nBits) :
    ChainState :=
  { s with
    tree := s.tree.add header.hash header.hashPrevBlock (getBlockProof header.nBits) now hnew hprev hproof
    nStatus := update s.nStatus header.hash (BlockStatus.empty.raiseValidity .tree)
    nTx := update s.nTx header.hash 0
    nChainTx := update s.nChainTx header.hash 0
    nSequenceId := update s.nSequenceId header.hash 0 }

/-- `contextual` is the verdict of `ContextualCheckBlockHeader`; `none` is the return value false. -/
def acceptBlockHeader (cfg : ChainConfig) (header : CBlockHeader) (contextual : Bool) (now : Int) :
    Except Stop (ChainState × Option BlockHash) :=
  if header.hash = s.tree.genesis then .ok (s,some header.hash)
  else if hknown : header.hash ∈ s.tree.known then
    .ok (s,if (s.nStatus header.hash).isInvalid then none else some header.hash)
  else if hpow : checkProofOfWork header.hash header.nBits cfg.powLimit = true then
    if hprev : header.hashPrevBlock ∈ s.tree.known then
      if (s.nStatus header.hashPrevBlock).isInvalid then .ok (s,none)
      else if !contextual then .ok (s,none)
      else
        let failedit := if (s.nStatus header.hashPrevBlock).isValid .scripts then none
          else s.failedBlocks.find? fun f =>
            s.tree.getAncestor header.hashPrevBlock (s.tree.height f) == some f
        match failedit with
        | some f =>
          if !(s.nStatus f).hasFailed then .error (.assertion "failedit->nStatus.hasFailed()")
          else .ok (markFailedParents (s.tree.path f header.hashPrevBlock) s,none)
        | none => .ok (s.addToBlockIndex header now hknown hprev (getBlockProof_pos hpow),some header.hash)
    else .ok (s,none)
  else .ok (s,none)

def linkBlock (b : BlockHash) : ChainState :=
  let s := { s with
    nChainTx := update s.nChainTx b ((((s.tree.parent b).map s.nChainTx).getD 0+s.nTx b)%2^32) }
  let s := if s.nSequenceId b = 0 then
      { s with
        nSequenceId := update s.nSequenceId b s.nBlockSequenceId
        nBlockSequenceId := s.nBlockSequenceId+1 }
    else s
  if s.worse b s.tip then s else s.insertCandidate b

/-- The loop of `ReceivedBlockTransactions`; `mapBlocksUnlinked` bounds the number of rounds. -/
def linkBlocks : Nat → List BlockHash → ChainState → ChainState
  | 0, _, s => s
  | _+1, [], s => s
  | n+1, b::queue, s =>
    let s := s.linkBlock b
    let range := (s.mapBlocksUnlinked.filter fun e => e.1 = b).map Prod.snd
    linkBlocks n (queue++range)
      { s with mapBlocksUnlinked := s.mapBlocksUnlinked.filter fun e => e.1 ≠ b }

def receivedBlockTransactions (b : BlockHash) (nTx : Nat) : ChainState :=
  let s := { s with
    nTx := update s.nTx b nTx
    nChainTx := update s.nChainTx b 0
    nStatus := update s.nStatus b ((s.nStatus b).withData.raiseValidity .transactions) }
  match s.tree.parent b with
  | none => linkBlocks (s.mapBlocksUnlinked.length+1) [b] s
  | some pprev =>
    if s.haveTxsDownloaded pprev then linkBlocks (s.mapBlocksUnlinked.length+1) [b] s
    else if (s.nStatus pprev).isValid .tree then
      { s with mapBlocksUnlinked := s.mapBlocksUnlinked++[(pprev,b)] }
    else s
end ChainState

/-- The verdict on a block; one that is not saved passes the checks and cannot be written. -/
inductive BlockCheck where
  | valid
  | invalid
  | corrupted
  | notSaved
deriving DecidableEq, Repr

def minBlocksToKeep : Nat := 288

structure ReceivedBlock where
  header : CBlockHeader
  nTx : Nat
  fRequested : Bool
  check : BlockCheck
  nTx_pos : check = .valid → 0 < nTx
  nTx_lt : nTx < 2^32

namespace ChainState

variable (s : ChainState)

def ignoresUnrequested (cfg : ChainConfig) (b : BlockHash) : Bool :=
  s.nTx b != 0 || decide (s.tree.nChainWork b < s.tree.nChainWork s.tip) ||
    decide (s.tree.height b > s.tree.height s.tip+minBlocksToKeep) ||
    decide (s.tree.nChainWork b < cfg.nMinimumChainWork)

def wouldReorgDeep (b : BlockHash) : Bool :=
  (s.findFork b).any fun fork => decide (s.tree.height fork+1 < s.tree.height s.tip)

def acceptBlock (cfg : ChainConfig) (block : ReceivedBlock) (contextual : Bool) (now : Int) :
    Except Stop ChainState :=
  (s.acceptBlockHeader cfg block.header contextual now).bind fun r =>
    let s := r.1
    match r.2 with
    | none => .ok s
    | some pindex =>
      if (s.nStatus pindex).hasData then .ok s
      else if !block.fRequested && s.ignoresUnrequested cfg pindex then .ok s
      else
        match block.check with
        | .corrupted => .ok s
        | .invalid => .ok (s.setStatus pindex ((s.nStatus pindex).withFailed true))
        | _ =>
          let s := if cfg.parkdeepreorg && s.wouldReorgDeep pindex then
              s.setStatus pindex ((s.nStatus pindex).withParked true)
            else s
          .ok (if block.check = .notSaved then s else s.receivedBlockTransactions pindex block.nTx)
end ChainState
end BitfiniteCore
