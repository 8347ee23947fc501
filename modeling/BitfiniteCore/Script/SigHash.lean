import BitfiniteCore.Consensus.Tokens
import BitfiniteCore.Coins.Compressor
import BitfiniteCore.Script.Script

/-!
# The hash that a signature signs

`none` is an exception or a failed assertion.
-/

namespace BitfiniteCore
open RoundTrip

structure SigHashType where
  sigHash : UInt32
deriving DecidableEq, Repr

namespace SigHashType

def all : UInt32 := 1
def none : UInt32 := 2
def single : UInt32 := 3
def utxos : UInt32 := 0x20
def forkId : UInt32 := 0x40
def anyoneCanPay : UInt32 := 0x80

/-- The base type is the lower five bits. -/
def getBaseType (t : SigHashType) : UInt32 := t.sigHash &&& 0x1f

def hasFork (t : SigHashType) : Bool := t.sigHash &&& forkId != 0

def hasAnyoneCanPay (t : SigHashType) : Bool := t.sigHash &&& anyoneCanPay != 0

def hasUtxos (t : SigHashType) : Bool := t.sigHash &&& utxos != 0

def serialize (t : SigHashType) : Bytes := leBytes 4 t.sigHash.toNat
end SigHashType

def scriptEnableSighashForkId : UInt32 := 0x10000

/-- A limited context only knows the coin of the input that is evaluated. -/
structure ScriptExecutionContext where
  nIn : Nat
  limited : Bool
  inputCoins : List Coin
  tx : CTransaction

namespace ScriptExecutionContext

def coin (context : ScriptExecutionContext) : Option Coin := context.inputCoins[context.nIn]?
end ScriptExecutionContext

def COutPoint.serialize (o : COutPoint) : Bytes := serializeUint256 o.txid++leBytes 4 o.n

def serializeBytes (script : Bytes) : Bytes := writeCompactSize script.length++script

section Legacy

variable (context : ScriptExecutionContext) (scriptCode : CScript) (sigHashType : SigHashType)

def codeSeparatorsFrom : Nat → Bytes → Nat
  | 0, _ => 0
  | fuel+1, it => match getScriptOp it with
    | (none,_) => 0
    | (some (opcode,_),rest) =>
      (if opcode = opCodeSeparator then 1 else 0)+codeSeparatorsFrom fuel rest

/-- The bytes between the code separators, up to where the script stops being readable. -/
def codeWithoutSeparatorsFrom : Nat → Bytes → Bytes
  | 0, _ => []
  | fuel+1, it => match getScriptOp it with
    | (none,rest) => it.take (it.length-rest.length)
    | (some (opcode,_),rest) =>
      (if opcode = opCodeSeparator then [] else it.take (it.length-rest.length))++ codeWithoutSeparatorsFrom fuel rest

/-- Every opcode takes a byte, so the length of the script is enough fuel. -/
def serializeScriptCode : Bytes :=
  writeCompactSize (scriptCode.length-codeSeparatorsFrom (scriptCode.length+1) scriptCode)++
    codeWithoutSeparatorsFrom (scriptCode.length+1) scriptCode

def serializeInput (nInput : Nat) : Option Bytes :=
  let nInput := if sigHashType.hasAnyoneCanPay then context.nIn else nInput
  (context.tx.vin[nInput]?).map fun txin =>
    let script := if nInput ≠ context.nIn then serializeBytes [] else serializeScriptCode scriptCode
    let baseType := sigHashType.getBaseType
    let nSequence := if nInput ≠ context.nIn ∧
        (baseType = SigHashType.single ∨ baseType = SigHashType.none) then 0 else txin.nSequence
    txin.prevout.serialize++script++leBytes 4 nSequence

def serializeOutput (nOutput : Nat) : Option Bytes :=
  if sigHashType.getBaseType = SigHashType.single ∧ nOutput ≠ context.nIn then CTxOut.null.serialize
  else (context.tx.vout[nOutput]?).bind CTxOut.serialize

/-- `CTransactionViewSignatureSerializer`. -/
def serializeForSignature : Option Bytes :=
  let nInputs := if sigHashType.hasAnyoneCanPay then 1 else context.tx.vin.length
  let nOutputs := if sigHashType.getBaseType = SigHashType.none then 0
    else if sigHashType.getBaseType = SigHashType.single then context.nIn+1 else context.tx.vout.length
  (writeEach (serializeInput context scriptCode sigHashType) (List.range nInputs)).bind fun vin =>
    (writeEach (serializeOutput context sigHashType) (List.range nOutputs)).map fun vout =>
      leBytes 4 (context.tx.nVersion%2^32).toNat++writeCompactSize nInputs++vin++
        writeCompactSize nOutputs++vout++leBytes 4 context.tx.nLockTime
end Legacy

section Hashes

variable (sha256d : Bytes → Uint256) (context : ScriptExecutionContext)

def prevoutBytes (vin : List CTxIn) : Bytes := (vin.map fun txin => txin.prevout.serialize).flatten

def sequenceBytes (vin : List CTxIn) : Bytes := (vin.map fun txin => leBytes 4 txin.nSequence).flatten

def getPrevoutHash : Uint256 := sha256d (prevoutBytes context.tx.vin)

def getSequenceHash : Uint256 := sha256d (sequenceBytes context.tx.vin)

def getOutputsHash : Option Uint256 := (writeEach CTxOut.serialize context.tx.vout).map sha256d

/-- The coins of the inputs; `coin(i)` throws when there is none. -/
def getUtxosHash : Option Uint256 :=
  if context.limited then none
  else (writeEach (fun i => (context.inputCoins[i]?).bind fun coin => coin.out.serialize)
    (List.range context.tx.vin.length)).map sha256d

structure PrecomputedTransactionData where
  hashPrevouts : Uint256
  hashSequence : Uint256
  hashOutputs : Uint256
  hashUtxos : Option Uint256

def populateFromContext : Option PrecomputedTransactionData :=
  (getOutputsHash sha256d context).bind fun hashOutputs =>
    let data := fun hashUtxos =>
      ⟨getPrevoutHash sha256d context,getSequenceHash sha256d context,hashOutputs,hashUtxos⟩
    if context.limited then some (data none)
    else (getUtxosHash sha256d context).map fun hashUtxos => data (some hashUtxos)

/-- The bytes of token data that stand in front of the code of the input. -/
def tokenBlob (prevTxOut : CTxOut) (flags : UInt32) : Option Bytes :=
  match prevTxOut.tokenData with
  | some d => if flags &&& scriptEnableTokens ≠ 0 then d.serialize.map fun bytes => prefixByte::bytes
    else some []
  | none => some []

def forkPreimage (txin : CTxIn) (scriptCode : CScript) (sigHashType : SigHashType)
    (cache : Option PrecomputedTransactionData) (flags : UInt32) : Option Bytes :=
  let baseType := sigHashType.getBaseType
  let hashPrevouts := if sigHashType.hasAnyoneCanPay then 0
    else cache.elim (getPrevoutHash sha256d context) PrecomputedTransactionData.hashPrevouts
  let hashSequence := if sigHashType.hasAnyoneCanPay ∨ baseType = SigHashType.single ∨
      baseType = SigHashType.none then 0
    else cache.elim (getSequenceHash sha256d context) PrecomputedTransactionData.hashSequence
  let hashUtxos := if sigHashType.hasUtxos ∧ flags &&& scriptEnableTokens ≠ 0 then
      ((cache.bind PrecomputedTransactionData.hashUtxos).orElse fun _ =>
        getUtxosHash sha256d context).map serializeUint256
    else some []
  let hashOutputs := if baseType ≠ SigHashType.single ∧ baseType ≠ SigHashType.none then
      (cache.map PrecomputedTransactionData.hashOutputs).orElse fun _ => getOutputsHash sha256d context
    else if baseType = SigHashType.single then
      match context.tx.vout[context.nIn]? with
      | some txout => txout.serialize.map sha256d
      | none => some 0
    else some 0
  hashOutputs.bind fun hashOutputs =>
    hashUtxos.bind fun hashUtxos =>
      context.coin.bind fun coin =>
        (tokenBlob coin.out flags).map fun blob =>
          leBytes 4 (context.tx.nVersion%2^32).toNat++serializeUint256 hashPrevouts++
            hashUtxos++serializeUint256 hashSequence++txin.prevout.serialize++blob++
            serializeBytes scriptCode++leBytes 8 (coin.out.nValue%2^64).toNat++
            leBytes 4 txin.nSequence++serializeUint256 hashOutputs++
            leBytes 4 context.tx.nLockTime++sigHashType.serialize

def signatureHash (scriptCode : CScript) (sigHashType : SigHashType)
    (cache : Option PrecomputedTransactionData) (flags : UInt32) : Option Uint256 :=
  match context.tx.vin[context.nIn]? with
  | none => none
  | some txin =>
    if sigHashType.hasFork ∧ flags &&& scriptEnableSighashForkId ≠ 0 then
      (forkPreimage sha256d context txin scriptCode sigHashType cache flags).map sha256d
    else if sigHashType.getBaseType = SigHashType.single ∧ context.nIn ≥ context.tx.vout.length then
      some 1
    else (serializeForSignature context scriptCode sigHashType).map fun bytes =>
      sha256d (bytes++sigHashType.serialize)
end Hashes
end BitfiniteCore
