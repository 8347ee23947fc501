import BitfiniteCore.Validation.ConnectBlock

/-!
# Compact blocks

A read or write outside a vector stops with an assertion.
-/

namespace BitfiniteCore

def CBlockHeader.isNull (header : CBlockHeader) : Bool := header.nBits == 0

/-- The header after `SetNull`. -/
def nullHeader : CBlockHeader := ⟨0,0,0,0,0,0,0⟩

def CTransaction.isNull (tx : CTransaction) : Bool := tx.vin.isEmpty && tx.vout.isEmpty

inductive ReadStatus where
  | ok
  | invalid
  | failed
  | checkBlockFailed
deriving DecidableEq, Repr

structure PrefilledTransaction where
  index : UInt32
  tx : CTransaction

structure CBlockHeaderAndShortTxIDs where
  header : CBlockHeader
  nonce : Nat
  shorttxids : List Nat
  prefilledtxn : List PrefilledTransaction

/-- The short ids as a keyed hash, the bounds and the context of `CheckBlock`. -/
structure CompactParams where
  maxTxCount : Nat
  getShortID : CBlockHeader → Nat → TxId → Nat
  bucketFull : List (Nat × Nat) → Nat → Bool
  ctx : BlockContext

namespace CBlockHeaderAndShortTxIDs

def blockTxCount (msg : CBlockHeaderAndShortTxIDs) : Nat := msg.shorttxids.length+msg.prefilledtxn.length

def ofBlock (params : CompactParams) (block : CBlock) (nonce : Nat) : CBlockHeaderAndShortTxIDs where
  header := block.toCBlockHeader
  nonce
  shorttxids := block.vtx.tail.map fun tx => params.getShortID block.toCBlockHeader nonce tx.getId
  prefilledtxn := (block.vtx.head?.map fun tx => ⟨0,tx⟩).toList
end CBlockHeaderAndShortTxIDs

/-- The counters that are only logged are left out. -/
structure PartiallyDownloadedBlock where
  txnsAvailable : List (Option CTransaction) := []
  mempoolCount : Nat := 0
  header : CBlockHeader := nullHeader
deriving DecidableEq

def readSlot {α : Type} (v : List α) (i : Nat) : Except Stop α :=
  match v[i]? with
  | some x => .ok x
  | none => .error (.assertion "index")

def placePrefilled (nShort : Nat) : List PrefilledTransaction → Nat → Int → List (Option CTransaction) →
    Except Stop (Bool × List (Option CTransaction))
  | [], _, _, avail => .ok (true,avail)
  | ptx::rest, i, lastprefilledindex, avail =>
    if ptx.tx.isNull then .ok (false,avail)
    else
      let last := lastprefilledindex+((ptx.index.toNat+1)%2^32 : Nat)
      if last > 2^32-1 then .ok (false,avail)
      else if (last%2^32).toNat > nShort+i then .ok (false,avail)
      else if 0 ≤ last ∧ last.toNat < avail.length then
        placePrefilled nShort rest (i+1) last (avail.set last.toNat (some ptx.tx))
      else .error (.assertion "index")

def firstFree : List (Option CTransaction) → Nat → Except Stop Nat
  | [], _ => .error (.assertion "index")
  | none::_, pos => .ok pos
  | some _::avail, pos => firstFree avail (pos+1)

def insertShortID (ids : List (Nat × Nat)) (id pos : Nat) : List (Nat × Nat) :=
  (id,pos)::ids.filter fun kv => kv.1 != id

def placeShortIDs (params : CompactParams) (avail : List (Option CTransaction)) : List Nat → Nat →
    List (Nat × Nat) → Except Stop (Option (List (Nat × Nat)))
  | [], _, ids => .ok (some ids)
  | id::rest, pos, ids =>
    (firstFree (avail.drop pos) pos).bind fun pos =>
      let ids := insertShortID ids id pos
      if params.bucketFull ids id then .ok none else placeShortIDs params avail rest (pos+1) ids

structure Matching where
  avail : List (Option CTransaction)
  haveTxn : List Bool
  mempoolCount : Nat

/-- `mempool_count--` on a `size_t`. -/
def decrementSize (n : Nat) : Nat := (n+(2^64-1))%2^64

def matchMempool (short : TxId → Nat) (ids : List (Nat × Nat)) (tx : CTransaction) (s : Matching) :
    Except Stop Matching :=
  match ids.lookup (short tx.getId) with
  | none => .ok s
  | some pos =>
    (readSlot s.haveTxn pos).bind fun found => (readSlot s.avail pos).bind fun slot =>
      if !found then .ok ⟨s.avail.set pos (some tx),s.haveTxn.set pos true,s.mempoolCount+1⟩
      else if slot.isSome then .ok ⟨s.avail.set pos none,s.haveTxn,decrementSize s.mempoolCount⟩
      else .ok s

/-- The same transaction in the mempool and in the extra ones is no collision. -/
def matchExtra (short : TxId → Nat) (ids : List (Nat × Nat)) (extra : TxId × Option CTransaction) (s : Matching) :
    Except Stop Matching :=
  match ids.lookup (short extra.1) with
  | none => .ok s
  | some pos =>
    (readSlot s.haveTxn pos).bind fun found => (readSlot s.avail pos).bind fun slot =>
      if !found then .ok ⟨s.avail.set pos extra.2,s.haveTxn.set pos true,s.mempoolCount+1⟩
      else match slot,extra.2 with
        | none, _ => .ok s
        | some _, none => .error (.runtimeError "null pointer")
        | some tx, some tx' =>
          if tx.getId ≠ tx'.getId then .ok ⟨s.avail.set pos none,s.haveTxn,decrementSize s.mempoolCount⟩ else .ok s

def matchAll {α : Type} (count : Nat) (f : α → Matching → Except Stop Matching) : List α → Matching →
    Except Stop Matching
  | [], s => .ok s
  | x::xs, s => (f x s).bind fun s => if s.mempoolCount = count then .ok s else matchAll count f xs s

namespace PartiallyDownloadedBlock

def takes (params : CompactParams) (msg : CBlockHeaderAndShortTxIDs) (self : PartiallyDownloadedBlock) : Bool :=
  !(msg.header.isNull || (msg.shorttxids.isEmpty && msg.prefilledtxn.isEmpty)) &&
    !(decide (msg.blockTxCount > params.maxTxCount)) && !(!self.header.isNull || !self.txnsAvailable.isEmpty)

def initData (params : CompactParams) (msg : CBlockHeaderAndShortTxIDs) (pool : List CTransaction)
    (extra : List (TxId × Option CTransaction)) (self : PartiallyDownloadedBlock) :
    Except Stop (ReadStatus × PartiallyDownloadedBlock) :=
  if !self.takes params msg then .ok (.invalid,self)
  else
    (placePrefilled msg.shorttxids.length msg.prefilledtxn 0 (-1) (List.replicate msg.blockTxCount none)).bind fun r =>
      let self := { self with header := msg.header, txnsAvailable := r.2 }
      if !r.1 then .ok (.invalid,self)
      else (placeShortIDs params r.2 msg.shorttxids 0 []).bind fun
        | none => .ok (.failed,self)
        | some ids =>
          if ids.length ≠ msg.shorttxids.length then .ok (.failed,self)
          else
            let short := params.getShortID msg.header msg.nonce
            (matchAll ids.length (matchMempool short ids) pool
              ⟨r.2,List.replicate r.2.length false,self.mempoolCount⟩).bind fun s =>
            (matchAll ids.length (matchExtra short ids) extra s).bind fun s =>
              .ok (.ok,{ self with txnsAvailable := s.avail, mempoolCount := s.mempoolCount })

def isTxAvailable (self : PartiallyDownloadedBlock) (index : Nat) : Except Stop Bool :=
  if self.header.isNull then .ok false
  else (readSlot self.txnsAvailable index).map Option.isSome
end PartiallyDownloadedBlock

def fillLoop : List (Option CTransaction) → List CTransaction →
    Option (List CTransaction × List CTransaction) × List (Option CTransaction)
  | [], missing => (some ([],missing),[])
  | none::avail, [] => (none,none::avail)
  | none::avail, tx::missing =>
    if tx.isNull then (none,none::avail)
    else ((fillLoop avail missing).1.map fun r => (tx::r.1,r.2),none::(fillLoop avail missing).2)
  | some tx::avail, missing =>
    ((fillLoop avail missing).1.map fun r => (tx::r.1,r.2),none::(fillLoop avail missing).2)

namespace PartiallyDownloadedBlock

def fillBlock (params : CompactParams) (vtxMissing : List CTransaction) (self : PartiallyDownloadedBlock) :
    Except Stop (ReadStatus × CBlock × PartiallyDownloadedBlock) :=
  if self.header.isNull || self.txnsAvailable.isEmpty then .ok (.invalid,⟨nullHeader,[]⟩,self)
  else match fillLoop self.txnsAvailable vtxMissing with
    | (none,avail) => .ok (.invalid,⟨self.header,[]⟩,{ self with txnsAvailable := avail })
    | (some (vtx,rest),_) =>
      let block : CBlock := ⟨self.header,vtx⟩
      let used := { self with header := nullHeader, txnsAvailable := [] }
      if !rest.isEmpty then .ok (.invalid,block,used)
      else match checkBlock params.ctx block with
        | .ok _ => .ok (.ok,block,used)
        | .error (.invalid r) => .ok (if r.corruptionPossible then .failed else .checkBlockFailed,block,used)
        | .error stop => .error stop
end PartiallyDownloadedBlock

inductive CompactCall where
  | initData (msg : CBlockHeaderAndShortTxIDs) (taken : Bool) (status : ReadStatus)
  | isTxAvailable (index : Nat)
  | fillBlock (status : ReadStatus) (block : CBlock)

def lastTaken : List CompactCall → Option CBlockHeaderAndShortTxIDs
  | [] => none
  | .initData msg true _::_ => some msg
  | _::calls => lastTaken calls

def pendingHeader : List CompactCall → Option CBlockHeader
  | [] => none
  | .initData msg true _::_ => some msg.header
  | .fillBlock .ok _::_ => none
  | _::calls => pendingHeader calls

/-- The calls so far, the last one first, and the object after them. -/
inductive CompactRun (params : CompactParams) : List CompactCall → PartiallyDownloadedBlock → Prop
  | start : CompactRun params [] {}
  | initData {calls : List CompactCall} {self self' : PartiallyDownloadedBlock} {msg : CBlockHeaderAndShortTxIDs}
      {status : ReadStatus} (pool : List CTransaction) (extra : List (TxId × Option CTransaction))
      (run : CompactRun params calls self) (hcount : msg.blockTxCount < 2^32)
      (hinit : self.initData params msg pool extra = .ok (status,self')) :
      CompactRun params (.initData msg (self.takes params msg) status::calls) self'
  | isTxAvailable {calls : List CompactCall} {self : PartiallyDownloadedBlock} {index : Nat} {found : Bool}
      (run : CompactRun params calls self) (hcall : self.isTxAvailable index = .ok found) :
      CompactRun params (.isTxAvailable index::calls) self
  | fillBlock {calls : List CompactCall} {self self' : PartiallyDownloadedBlock} {status : ReadStatus}
      {block : CBlock} (vtxMissing : List CTransaction) (run : CompactRun params calls self)
      (hfill : self.fillBlock params vtxMissing = .ok (status,block,self')) :
      CompactRun params (.fillBlock status block::calls) self'
end BitfiniteCore
