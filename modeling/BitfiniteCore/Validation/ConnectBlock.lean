import BitfiniteCore.Consensus.TxCheck
import BitfiniteCore.Consensus.Tokens

/-!
# Connecting a block to a view of the coins

The reads of a check go through `accessCoin`; what they leave in the caches is what spending those
coins leaves there.
-/

namespace BitfiniteCore

structure CTxUndo where
  vprevout : List Coin
deriving DecidableEq, Repr

structure CBlockUndo where
  vtxundo : List CTxUndo
deriving DecidableEq, Repr

def maxConsensusBlockSize : Nat := 2000*1000000

def minTransactionSize : Nat := 10

def getBlockSubsidy (nHeight nSubsidyHalvingInterval : Nat) : Int :=
  let halvings := nHeight/nSubsidyHalvingInterval
  if halvings ≥ 64 then 0 else 50*coinUnit/2^halvings

/-- What `ConnectBlock` takes from parts that are not modelled: headers, sequence locks, scripts. -/
structure BlockContext where
  nHeight : Nat
  hashGenesisBlock : BlockHash
  nSubsidyHalvingInterval : Nat
  nMaxBlockSize : Nat
  fEnforceBIP30 : Bool
  flags : UInt32
  firstTokenBlockHeight : Int
  checkBlockHeader : CBlockHeader → Bool
  blockMerkleRoot : List CTransaction → Uint256 × Bool
  sequenceLocks : CTransaction → List Nat → Bool
  scriptChecks : CBlock → CBlockUndo → Bool

/-- A context in which headers, sequence locks and scripts pass and the merkle root of every block is 5. -/
def BlockContext.lenient (nHeight : Nat) : BlockContext where
  nHeight := nHeight
  hashGenesisBlock := 1
  nSubsidyHalvingInterval := 210000
  nMaxBlockSize := 32000000
  fEnforceBIP30 := true
  flags := 0
  firstTokenBlockHeight := 0
  checkBlockHeader := fun _ => true
  blockMerkleRoot := fun _ => (5,false)
  sequenceLocks := fun _ _ => true
  scriptChecks := fun _ _ => true

def checkBlockSize (block : CBlock) (nMaxBlockSize : Nat) : Except Stop Unit :=
  if block.vtx.length*minTransactionSize > nMaxBlockSize then dos 100 rejectInvalid "bad-blk-length"
  else match block.serializeSize with
    | none => .error (.runtimeError "std::ios_base::failure")
    | some currentBlockSize =>
      if currentBlockSize > nMaxBlockSize then dos 100 rejectInvalid "bad-blk-length" else .ok ()

def checkRegularTransactions : List CTransaction → Except Stop Unit
  | [] => .ok ()
  | tx::txs => (checkRegularTransaction tx).bind fun _ => checkRegularTransactions txs

def checkBlock (ctx : BlockContext) (block : CBlock) : Except Stop Unit :=
  if !ctx.checkBlockHeader block.toCBlockHeader then dos 50 rejectInvalid "high-hash"
  else
    let root := ctx.blockMerkleRoot block.vtx
    if block.hashMerkleRoot != root.1 then
      .error (.invalid ⟨100,rejectInvalid,"bad-txnmrklroot",true⟩)
    else if root.2 then .error (.invalid ⟨100,rejectInvalid,"bad-txns-duplicate",true⟩)
    else match block.vtx with
      | [] => dos 100 rejectInvalid "bad-cb-missing"
      | coinbase::vtx =>
        (checkBlockSize block maxConsensusBlockSize).bind fun _ =>
          (checkCoinbase coinbase).bind fun _ => checkRegularTransactions vtx

def spendCoinsFrom : List CTxIn → CCoinsViewCache → Except Stop (CCoinsViewCache × List Coin)
  | [], view => .ok (view,[])
  | i::vin, view =>
    match view.spendCoin i.prevout with
    | (none,_) => .error (.assertion "is_spent")
    | (some coin,view) => (spendCoinsFrom vin view).map fun r => (r.1,coin::r.2)

def spendCoins (view : CCoinsViewCache) (tx : CTransaction) : Except Stop (CCoinsViewCache × CTxUndo) :=
  if tx.isCoinBase then .ok (view,⟨[]⟩)
  else (spendCoinsFrom tx.vin view).map fun r => (r.1,⟨r.2⟩)

def updateCoins (view : CCoinsViewCache) (tx : CTransaction) (nHeight : Nat) :
    Except Stop (CCoinsViewCache × CTxUndo) :=
  (spendCoins view tx).bind fun r => (addCoins r.1 tx nHeight false).map fun view => (view,r.2)

/-- A check of a transaction that sees nothing of the view but the coins it spends. -/
structure TxCheck where
  run : CTransaction → (COutPoint → Coin) → Except Stop Unit
  congr : ∀ tx f g, (tx.isCoinBase = false → ∀ i ∈ tx.vin, f i.prevout = g i.prevout) → run tx f = run tx g

def txFee (tx : CTransaction) (accessCoin : COutPoint → Coin) (nHeight : Nat) : Except Stop Int :=
  if tx.isCoinBase then .ok 0 else checkTxInputs tx accessCoin nHeight

def addFee (nFees txfee : Int) : Except Stop Int :=
  (addAmount nFees txfee).bind fun nFees =>
    if !moneyRange nFees then dos 100 rejectInvalid "bad-txns-accumulated-fee-outofrange"
    else .ok nFees

def connectTxs (check : TxCheck) (nHeight : Nat) : List CTransaction → CCoinsViewCache → Int →
    Except Stop (CCoinsViewCache × Int × List CTxUndo)
  | [], view, nFees => .ok (view,nFees,[])
  | tx::txs, view, nFees =>
    let accessCoin := fun outpoint => (view.accessCoin outpoint).1
    (txFee tx accessCoin nHeight).bind fun txfee =>
      (addFee nFees txfee).bind fun nFees =>
        (check.run tx accessCoin).bind fun _ =>
          if tx.isCoinBase then connectTxs check nHeight txs view nFees
          else (spendCoins view tx).bind fun r =>
            (connectTxs check nHeight txs r.1 nFees).map fun s => (s.1,s.2.1,r.2::s.2.2)

def addBlockCoins (nHeight : Nat) : List CTransaction → CCoinsViewCache → Except Stop CCoinsViewCache
  | [], view => .ok view
  | tx::txs, view => (addCoins view tx nHeight false).bind (addBlockCoins nHeight txs)

/-- A logic error thrown while the outputs are added becomes a verdict on the block. -/
def catchDuplicate : Except Stop CCoinsViewCache → Except Stop CCoinsViewCache
  | .error (.logicError _) => dos 100 rejectInvalid "tx-duplicate"
  | r => r

/-- The part of `ConnectBlock` that changes the coins. -/
def connectOutputsThenInputs (check : TxCheck) (nHeight : Nat) (vtx : List CTransaction)
    (view : CCoinsViewCache) : Except Stop (CCoinsViewCache × Int × List CTxUndo) :=
  (catchDuplicate (addBlockCoins nHeight vtx view)).bind fun view => connectTxs check nHeight vtx view 0

/-- The outpoints of a transaction, of unspendable outputs as well. -/
def CTransaction.outpoints (tx : CTransaction) : List COutPoint :=
  (List.range tx.vout.length).map fun n => ⟨tx.getId,n⟩

/-- No output of the block may be unspent in the view. -/
def checkBIP30 : List COutPoint → CCoinsViewCache → Except Stop CCoinsViewCache
  | [], view => .ok view
  | outpoint::rest, view =>
    let r := view.haveCoin outpoint
    if r.1 then dos 100 rejectInvalid "bad-txns-BIP30" else checkBIP30 rest r.2

def prevHeights (tx : CTransaction) (accessCoin : COutPoint → Coin) : List Nat :=
  tx.vin.map fun i => (accessCoin i.prevout).getHeight

def checkTxContext (ctx : BlockContext) (tx : CTransaction) (accessCoin : COutPoint → Coin) : Except Stop Unit :=
  (checkTxTokens tx accessCoin ctx.flags ctx.firstTokenBlockHeight).bind fun _ =>
    if tx.isCoinBase then .ok ()
    else if !ctx.sequenceLocks tx (prevHeights tx accessCoin) then
      dos 100 rejectInvalid "bad-txns-nonfinal"
    else .ok ()

theorem checkPreActivationSanity_congr {f g : COutPoint → Coin} (vin : List CTxIn)
    (h : ∀ i ∈ vin, f i.prevout = g i.prevout) :
    checkPreActivationSanity f vin = checkPreActivationSanity g vin := by
  induction vin with
  | nil => rfl
  | cons i vin ih =>
    obtain ⟨hi,hvin⟩ := List.forall_mem_cons.mp h
    simp only [checkPreActivationSanity,hi,ih hvin]

theorem scanInputs_congr {f g : COutPoint → Coin} {first : Int} (vin : List CTxIn) (st : TokenTallies)
    (h : ∀ i ∈ vin, f i.prevout = g i.prevout) : scanInputs f first st vin = scanInputs g first st vin := by
  induction vin generalizing st with
  | nil => rfl
  | cons i vin ih =>
    obtain ⟨hi,hvin⟩ := List.forall_mem_cons.mp h
    have hrest : ∀ st, scanInputs f first st vin = scanInputs g first st vin := fun st => ih st hvin
    simp only [scanInputs,hi,hrest]

theorem checkTxContext_congr (ctx : BlockContext) (tx : CTransaction) (f g : COutPoint → Coin)
    (h : tx.isCoinBase = false → ∀ i ∈ tx.vin, f i.prevout = g i.prevout) :
    checkTxContext ctx tx f = checkTxContext ctx tx g := by
  cases hcb : tx.isCoinBase with
  | true => simp [checkTxContext,checkTxTokens,hcb]
  | false =>
    have hall := h hcb
    have hheights : prevHeights tx f = prevHeights tx g :=
      List.map_congr_left fun i hi => by rw [hall i hi]
    simp only [checkTxContext,checkTxTokens,hheights,checkPreActivationSanity_congr tx.vin hall,
      scanInputs_congr tx.vin _ hall]

/-- The token and sequence-lock checks of `ConnectBlock`. -/
def BlockContext.txCheck (ctx : BlockContext) : TxCheck := ⟨checkTxContext ctx,checkTxContext_congr ctx⟩

/-- A block that fails a check for corruption was stored intact, so the node shuts down. -/
def abortOnCorruption : Except Stop Unit → Except Stop Unit
  | .error (.invalid r) =>
    if r.corruptionPossible then
      .error (.runtimeError
        "Corrupt block found indicating potential hardware failure; shutting down")
    else .error (.invalid r)
  | r => r

/-- `ConnectBlock`, with the undo data that it writes. -/
def connectBlock (ctx : BlockContext) (block : CBlock) (view : CCoinsViewCache) :
    Except Stop (CCoinsViewCache × CBlockUndo) :=
  (abortOnCorruption (checkBlock ctx block)).bind fun _ =>
    (checkBlockSize block ctx.nMaxBlockSize).bind fun _ =>
      let best := view.getBestBlock
      if block.hashPrevBlock != best.1 then .error (.assertion "hashPrevBlock == view.GetBestBlock()")
      else if block.hash == ctx.hashGenesisBlock then .ok (best.2.setBestBlock block.hash,⟨[]⟩)
      else
        let outpoints := (block.vtx.map CTransaction.outpoints).flatten
        (if ctx.fEnforceBIP30 then checkBIP30 outpoints best.2 else .ok best.2).bind fun view =>
          (connectOutputsThenInputs ctx.txCheck ctx.nHeight block.vtx view).bind fun r =>
            (addAmount r.2.1 (getBlockSubsidy ctx.nHeight ctx.nSubsidyHalvingInterval)).bind fun reward =>
              ((block.vtx.head?.map CTransaction.getValueOut).getD (.ok 0)).bind fun valueOut =>
                if valueOut > reward then dos 100 rejectInvalid "bad-cb-amount"
                else if !ctx.scriptChecks block ⟨r.2.2⟩ then dos 100 rejectInvalid "blk-bad-inputs"
                else .ok (r.1.setBestBlock block.hash,⟨r.2.2⟩)
end BitfiniteCore
