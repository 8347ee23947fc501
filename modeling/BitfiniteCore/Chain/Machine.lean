import BitfiniteCore.Chain.Activate
import BitfiniteCore.Lib.GuardedRun

/-!
# Threads over the chain state

`InvalidateBlock` takes and releases `cs_main` once for every block that it disconnects.
-/

namespace BitfiniteCore
open Function ParentTree GuardedRun

/-- A thread in `UnwindBlock` with `invalidate` set: in its loop, or before its last section. -/
structure Unwind where
  pindex : BlockHash
  toMarkFailed : BlockHash
  marking : Bool
deriving DecidableEq, Repr

inductive UnwindResult where
  | running (u : Unwind)
  | returned (value : Bool)
deriving DecidableEq, Repr

namespace ChainState

variable (s : ChainState)

/-- One round of the loop of `UnwindBlock`. -/
def unwindTip (u : Unwind) (disk : DiskResult) : ChainState × UnwindResult :=
  if !s.contains u.pindex then (s,.running { u with marking := true })
  else if disk ≠ .good then (s,.returned false)
  else
    let invalidWalkTip := s.tip
    match s.disconnectTip with
    | none => (s,.returned false)
    | some s =>
      let s := s.setStatus invalidWalkTip ((s.nStatus invalidWalkTip).withFailed true)
      let s := s.insertCandidate s.tip
      let s := if s.tree.parent u.toMarkFailed = some invalidWalkTip ∧ (s.nStatus u.toMarkFailed).hasFailed = true then
          -- only the last disconnected block stays failed
          s.setStatus u.toMarkFailed (((s.nStatus u.toMarkFailed).withFailed false).withFailedParent true)
        else s
      (s,.running { u with toMarkFailed := invalidWalkTip })

/-- The blocks that may have to be candidates again after the tip went back. -/
def restoreCandidates : List BlockHash → ChainState → ChainState
  | [], s => s
  | b::bs, s =>
    restoreCandidates bs
      (if (s.nStatus b).isValid .transactions && s.haveTxsDownloaded b && !s.worse b s.tip then s.insertCandidate b
        else s)

/-- The last section of `UnwindBlock`. -/
def markUnwound (b : BlockHash) : ChainState × Bool :=
  if s.contains b then (s,false)
  else
    let s := { s.setStatus b ((s.nStatus b).withFailed true) with failedBlocks := s.failedBlocks.insert b }
    ((restoreCandidates s.tree.known s).invalidChainFound b,true)

def unwindBlock (u : Unwind) (disk : DiskResult) : ChainState × UnwindResult :=
  if u.marking then
    let r := s.markUnwound u.toMarkFailed
    (r.1,.returned r.2)
  else s.unwindTip u disk

def resetBlockFailureFlags (pindex : BlockHash) : ChainState :=
  updateFlags { s with pindexFinalized := s.pindexFinalized.bind fun f => s.tree.lastCommonAncestor pindex f } pindex
    BlockStatus.withClearedFailureFlags BlockStatus.withClearedFailureFlags fun st => st.withFailedParent false

def ofGenesis (genesis : BlockHash) (nBits : Nat) (nTimeReceived : Int) : ChainState where
  tree := BlockTree.ofGenesis genesis nBits nTimeReceived
  nStatus := update (fun _ => BlockStatus.empty) genesis ⟨.scripts,true,false,false,false,false⟩
  nTx := update (fun _ => 0) genesis 1
  nChainTx := update (fun _ => 0) genesis 1
  nSequenceId := update (fun _ => 0) genesis 1
  nBlockSequenceId := 2
  setBlockIndexCandidates := [genesis]
  failedBlocks := []
  mapBlocksUnlinked := []
  tip := genesis
  pindexFinalized := none
end ChainState

structure Node where
  chain : ChainState
  activate : ActivatePc
  unwinds : List Unwind

inductive Event where
  | header (header : CBlockHeader) (contextual : Bool) (now : Int)
  | block (block : ReceivedBlock) (contextual : Bool) (now : Int)
  | activate
  | proceed (disk : DiskResult) (now : Int)
  | invalidate (b : BlockHash)
  | unwind (i : Nat) (disk : DiskResult)
  | reset (b : BlockHash)

namespace Node

def ofGenesis (genesis : BlockHash) (nBits : Nat) (nTimeReceived : Int) : Node :=
  ⟨ChainState.ofGenesis genesis nBits nTimeReceived,.idle,[]⟩

/-- A thread can take the step.  `m_cs_chainstate` keeps a second thread out of
`ActivateBestChain`. -/
def enabled (n : Node) : Event → Bool
  | .header _ _ _ => !n.activate.holdsMain
  | .block _ _ _ => !n.activate.holdsMain
  | .activate => n.activate = .idle
  | .proceed _ _ => n.activate ≠ .idle
  | .invalidate b => b ∈ n.chain.tree.known
  | .unwind i _ => !n.activate.holdsMain && decide (i < n.unwinds.length)
  | .reset b => !n.activate.holdsMain && decide (b ∈ n.chain.tree.known)

def unwindAt (n : Node) (i : Nat) (u : Unwind) (disk : DiskResult) : Node :=
  match n.chain.unwindBlock u disk with
  | (s,.running u) => { n with chain := s, unwinds := n.unwinds.set i u }
  | (s,.returned _) => { n with chain := s, unwinds := n.unwinds.eraseIdx i }

def next (cfg : ChainConfig) (n : Node) : Event → Except Stop Node
  | .header header contextual now =>
    (n.chain.acceptBlockHeader cfg header contextual now).map fun r => { n with chain := r.1 }
  | .block block contextual now =>
    (n.chain.acceptBlock cfg block contextual now).map fun s => { n with chain := s }
  | .activate => .ok { n with activate := .released none }
  | .proceed disk now =>
    (n.chain.activateStep cfg disk now n.activate).map fun r => { n with chain := r.1, activate := r.2 }
  | .invalidate b => .ok { n with unwinds := n.unwinds++[⟨b,b,false⟩] }
  | .unwind i disk =>
    match n.unwinds[i]? with
    | none => .ok n
    | some u => .ok (n.unwindAt i u disk)
  | .reset b => .ok { n with chain := n.chain.resetBlockFailureFlags b }

def Step (cfg : ChainConfig) (n : Node) (e : Event) (n' : Node) : Prop := n.enabled e = true ∧ n.next cfg e = .ok n'
end Node
end BitfiniteCore
