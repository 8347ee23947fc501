import BitfiniteCore.Lib.GuardedRun
import BitfiniteCore.Lib.ParentTree

/-!
# The transaction index and the chain

The blocks and the locator that the index database holds survive a stop.
-/

namespace BitfiniteCore
open ParentTree

variable {B : Type*} [DecidableEq B] (T : ParentTree B)

def locatorLoop (tip : Option B) : Nat → Nat → Nat → B → List B
  | 0, _, _, pindex => [pindex]
  | fuel+1, nStep, size, pindex =>
    if T.height pindex = 0 then [pindex]
    else
      let nHeight := T.height pindex-nStep
      let next := match tip with
        | some t => if T.Anc pindex t then T.getAncestor t nHeight else T.getAncestor pindex nHeight
        | none => T.getAncestor pindex nHeight
      match next with
      | none => [pindex]
      | some p => pindex::locatorLoop tip fuel (if 10 < size+1 then 2*nStep else nStep) (size+1) p

/-- Without a block the locator of the tip. -/
def getLocator (tip pindex : Option B) : List B :=
  match pindex.or tip with
  | none => []
  | some p => locatorLoop T tip (T.height p) 1 0 p

def findForkInGlobalIndex (known : B → Bool) (tip : Option B) (locator : List B) : Option B :=
  match tip with
  | none => none
  | some t =>
    ((locator.filter known).findSome? fun pindex =>
      if T.Anc pindex t then some pindex
      else if T.getAncestor pindex (T.height t) = some t then some t
      else none).or (T.getAncestor t 0)

def chainNext (tip : Option B) (pindex : B) : Option B :=
  match tip with
  | none => none
  | some t => if T.Anc pindex t then T.getAncestor t (T.height pindex+1) else none

def nextSyncBlock (tip pindexPrev : Option B) : Option B :=
  match pindexPrev,tip with
  | none, none => none
  | none, some t => T.getAncestor t 0
  | some _, none => none
  | some p, some t =>
    (chainNext T tip p).or ((T.lastCommonAncestor p t).bind (chainNext T tip))

def connectsTo (best : Option B) (pindex : B) : Bool :=
  match best with
  | none => T.height pindex == 0
  | some x => T.height pindex == 0 || T.getAncestor x (T.height pindex-1) == T.parent pindex

/-- Only the first block of the locator of a flush is looked at. -/
inductive Notification (B : Type*) where
  | blockConnected (pindex : B)
  | chainStateFlushed (front : B)

/-- Where the sync thread is. -/
inductive SyncThread (B : Type*) where
  | top (pindex : Option B)
  | chosen (pindex : B)
  | committing (pindex : B) (locator : List B)
  | writing (pindex : B)
  | stopping
  | finishing
  | ending (locator : List B)
  | done

inductive Handler (B : Type*) where
  | idle
  | connecting (pindex : B)
  | wrote (pindex : B)
  | flushing
  | committing (locator : List B)

structure IndexState (B : Type*) where
  tip : Option B
  known : B → Bool
  queue : List (Notification B)
  written : B → Bool
  locator : List B
  bestBlock : Option B
  synced : Bool
  thread : SyncThread B
  handler : Handler B

/-- Genesis is not written. -/
def IndexState.writeBlock (s : IndexState B) (pindex : B) : B → Bool :=
  fun b => s.written b || (b == pindex && T.height b != 0)

def IndexState.init (s : IndexState B) (tip : Option B) (known : B → Bool) : IndexState B :=
  let best := if s.locator = [] then none else findForkInGlobalIndex T known tip s.locator
  { s with
    tip
    known
    queue := []
    bestBlock := best
    synced := best == tip
    thread := if best == tip then .done else .top best
    handler := .idle }

inductive IndexEvent (B : Type*) where
  | connectTip (pindex : B)
  | disconnectTip
  | flushChain (front : B)
  | chooseBlock
  | interrupt
  | stopCommit
  | periodicCommit
  | skipCommit
  | writeLocator
  | syncWriteBlock
  | finishCommit
  | endSync
  | deliver
  | handlerWrite
  | handlerAdvance
  | handlerCommit
  | handlerWriteLocator
  | restart (tip : Option B) (known : B → Bool)

/-- The lock of the chain is held by the sync thread only at the end of its loop. -/
inductive IndexStep : IndexState B → IndexEvent B → IndexState B → Prop
  | connectTip {s : IndexState B} {pindex : B} (hlock : s.thread ≠ .finishing) (hparent : T.parent pindex = s.tip) :
      IndexStep s (.connectTip pindex)
        { s with
          tip := some pindex
          known := fun b => s.known b || b == pindex
          queue := s.queue++[.blockConnected pindex] }
  | disconnectTip {s : IndexState B} {t p : B} (hlock : s.thread ≠ .finishing) (htip : s.tip = some t)
      (hparent : T.parent t = some p) : IndexStep s .disconnectTip { s with tip := some p }
  -- a flush between the blocks of one chain update is queued before their connections, so its block is not fixed here
  | flushChain {s : IndexState B} (front : B) :
      IndexStep s (.flushChain front) { s with queue := s.queue++[.chainStateFlushed front] }
  | chooseBlock {s : IndexState B} {pindex : Option B} {next : B} (hthread : s.thread = .top pindex)
      (hnext : nextSyncBlock T s.tip pindex = some next) :
      IndexStep s .chooseBlock { s with thread := .chosen next }
  | finish {s : IndexState B} {pindex : Option B} (hthread : s.thread = .top pindex)
      (hnext : nextSyncBlock T s.tip pindex = none) :
      IndexStep s .chooseBlock { s with bestBlock := pindex, synced := true, thread := .finishing }
  | interrupt {s : IndexState B} {pindex : Option B} (hthread : s.thread = .top pindex) :
      IndexStep s .interrupt { s with bestBlock := pindex, thread := .stopping }
  | stopCommit {s : IndexState B} (hthread : s.thread = .stopping) :
      IndexStep s .stopCommit { s with thread := .ending (getLocator T s.tip s.bestBlock) }
  | periodicCommit {s : IndexState B} {pindex : B} (hthread : s.thread = .chosen pindex) : IndexStep s .periodicCommit
        { s with bestBlock := some pindex, thread := .committing pindex (getLocator T s.tip (some pindex)) }
  | skipCommit {s : IndexState B} {pindex : B} (hthread : s.thread = .chosen pindex) :
      IndexStep s .skipCommit { s with thread := .writing pindex }
  | writeLocator {s : IndexState B} {pindex : B} {locator : List B} (hthread : s.thread = .committing pindex locator) :
      IndexStep s .writeLocator { s with locator, thread := .writing pindex }
  | syncWriteBlock {s : IndexState B} {pindex : B} (hthread : s.thread = .writing pindex) :
      IndexStep s .syncWriteBlock { s with written := s.writeBlock T pindex, thread := .top (some pindex) }
  | finishCommit {s : IndexState B} (hthread : s.thread = .finishing) :
      IndexStep s .finishCommit { s with thread := .ending (getLocator T s.tip s.bestBlock) }
  | endSync {s : IndexState B} {locator : List B} (hthread : s.thread = .ending locator) :
      IndexStep s .endSync { s with locator, thread := .done }
  | deliverDrop {s : IndexState B} {n : Notification B} {rest : List (Notification B)} (hidle : s.handler = .idle)
      (hqueue : s.queue = n::rest) (hsynced : s.synced = false) : IndexStep s .deliver { s with queue := rest }
  | deliverConnected {s : IndexState B} {pindex : B} {rest : List (Notification B)} (hidle : s.handler = .idle)
      (hqueue : s.queue = .blockConnected pindex::rest) (hsynced : s.synced = true) :
      IndexStep s .deliver
        { s with
          queue := rest
          handler := if connectsTo T s.bestBlock pindex then .connecting pindex else .idle }
  | deliverFlushed {s : IndexState B} {front : B} {rest : List (Notification B)} (hidle : s.handler = .idle)
      (hqueue : s.queue = .chainStateFlushed front::rest) (hsynced : s.synced = true) :
      IndexStep s .deliver
        { s with
          queue := rest
          handler := if s.known front && (s.bestBlock.bind fun x => T.getAncestor x (T.height front)) == some front
            then .flushing else .idle }
  | handlerWrite {s : IndexState B} {pindex : B} (hhandler : s.handler = .connecting pindex) :
      IndexStep s .handlerWrite { s with written := s.writeBlock T pindex, handler := .wrote pindex }
  | handlerAdvance {s : IndexState B} {pindex : B} (hhandler : s.handler = .wrote pindex) :
      IndexStep s .handlerAdvance { s with bestBlock := some pindex, handler := .idle }
  | handlerCommit {s : IndexState B} (hhandler : s.handler = .flushing) :
      IndexStep s .handlerCommit { s with handler := .committing (getLocator T s.tip s.bestBlock) }
  | handlerWriteLocator {s : IndexState B} {locator : List B} (hhandler : s.handler = .committing locator) :
      IndexStep s .handlerWriteLocator { s with locator, handler := .idle }
  | restart {s : IndexState B} (tip : Option B) (known : B → Bool) :
      IndexStep s (.restart tip known) (s.init T tip known)

def IndexState.Indexed (s : IndexState B) (b : B) : Prop := 1 ≤ T.height b → s.written b = true

def PositionSound (s : IndexState B) : Prop :=
  ∀ fork, findForkInGlobalIndex T s.known s.tip s.locator = some fork → ∀ b, T.Anc b fork → s.Indexed T b

def SyncedComplete (s : IndexState B) : Prop :=
  s.synced = true → s.queue = [] → s.handler = .idle → ∀ t, s.tip = some t → ∀ b, T.Anc b t → s.Indexed T b

def IndexState.fresh (tip : Option B) (known : B → Bool) : IndexState B :=
  IndexState.init T ⟨none,fun _ => false,[],fun _ => false,[],none,false,.done,.idle⟩ tip known

def CommitsWritten (s : IndexState B) : IndexEvent B → Prop
  | .periodicCommit => ∀ pindex, s.thread = .chosen pindex → s.Indexed T pindex
  | .stopCommit => s.bestBlock = none → s.tip = none
  | _ => True
end BitfiniteCore
