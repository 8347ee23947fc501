import BitfiniteCore.Script.SigEncoding

/-!
# The script interpreter

A stack is a list whose head is the top.  Reading what is not there is the exception that the
source would throw.
-/

namespace BitfiniteCore
open ScriptFlags

def maxScriptElementSize : Nat := 520

def maxOpsPerScript : Nat := 201

def maxPubKeysPerMultisig : Nat := 20

def maxStackSize : Nat := 1000

inductive BitwiseOp | and | or | xor
deriving DecidableEq, Repr

inductive UnaryOp | add1 | sub1 | negate | abs | not | notEqual0
deriving DecidableEq, Repr

inductive BinaryOp
  | add | sub | mul | div | mod | boolAnd | boolOr | numEqual | numEqualVerify | numNotEqual
  | lessThan | greaterThan | lessThanOrEqual | greaterThanOrEqual | min | max
deriving DecidableEq, Repr

inductive HashOp | ripemd160 | sha1 | sha256 | hash160 | hash256
deriving DecidableEq, Repr

inductive NullaryOp | inputIndex | activeBytecode | txVersion | txInputCount | txOutputCount | txLockTime
deriving DecidableEq, Repr

inductive IndexedOp
  | utxoValue | utxoBytecode | outpointTxHash | outpointIndex | inputBytecode | inputSequenceNumber
  | outputValue | outputBytecode
  | utxoTokenCategory | utxoTokenCommitment | utxoTokenAmount
  | outputTokenCategory | outputTokenCommitment | outputTokenAmount
deriving DecidableEq, Repr

/-- What the switch of `EvalScript` does with an opcode. -/
inductive Op
  | smallInt (n : Int) | nop | checkLockTimeVerify | checkSequenceVerify | upgradableNop
  | if_ (not : Bool) | else_ | endIf | verify | return_
  | toAltStack | fromAltStack | drop2 | dup2 | dup3 | over2 | rot2 | swap2 | ifDup | depth | drop | dup
  | nip | over1 | pick (roll : Bool) | rot | swap | tuck | size
  | bitwise (k : BitwiseOp) | equal (verify : Bool) | unary (k : UnaryOp) | binary (k : BinaryOp) | within
  | hash (k : HashOp) | codeSeparator | checkSig (verify : Bool) | checkDataSig (verify : Bool)
  | checkMultiSig (verify : Bool) | cat | split | reverseBytes | num2bin | bin2num
  | nullary (k : NullaryOp) | indexed (k : IndexedOp) | invalid
deriving DecidableEq, Repr

def opTable : List (UInt8 × Op) := [
  (0x4f,.smallInt (-1)),(0x51,.smallInt 1),(0x52,.smallInt 2),(0x53,.smallInt 3),(0x54,.smallInt 4),
  (0x55,.smallInt 5),(0x56,.smallInt 6),(0x57,.smallInt 7),(0x58,.smallInt 8),(0x59,.smallInt 9),
  (0x5a,.smallInt 10),(0x5b,.smallInt 11),(0x5c,.smallInt 12),(0x5d,.smallInt 13),(0x5e,.smallInt 14),
  (0x5f,.smallInt 15),(0x60,.smallInt 16),(0x61,.nop),(0x63,.if_ false),(0x64,.if_ true),(0x67,.else_),
  (0x68,.endIf),(0x69,.verify),(0x6a,.return_),(0x6b,.toAltStack),(0x6c,.fromAltStack),(0x6d,.drop2),
  (0x6e,.dup2),(0x6f,.dup3),(0x70,.over2),(0x71,.rot2),(0x72,.swap2),(0x73,.ifDup),(0x74,.depth),
  (0x75,.drop),(0x76,.dup),(0x77,.nip),(0x78,.over1),(0x79,.pick false),(0x7a,.pick true),(0x7b,.rot),
  (0x7c,.swap),(0x7d,.tuck),(0x7e,.cat),(0x7f,.split),(0x80,.num2bin),(0x81,.bin2num),(0x82,.size),
  (0x84,.bitwise .and),(0x85,.bitwise .or),(0x86,.bitwise .xor),(0x87,.equal false),(0x88,.equal true),
  (0x8b,.unary .add1),(0x8c,.unary .sub1),(0x8f,.unary .negate),(0x90,.unary .abs),(0x91,.unary .not),
  (0x92,.unary .notEqual0),(0x93,.binary .add),(0x94,.binary .sub),(0x95,.binary .mul),(0x96,.binary .div),
  (0x97,.binary .mod),(0x9a,.binary .boolAnd),(0x9b,.binary .boolOr),(0x9c,.binary .numEqual),
  (0x9d,.binary .numEqualVerify),(0x9e,.binary .numNotEqual),(0x9f,.binary .lessThan),
  (0xa0,.binary .greaterThan),(0xa1,.binary .lessThanOrEqual),(0xa2,.binary .greaterThanOrEqual),
  (0xa3,.binary .min),(0xa4,.binary .max),(0xa5,.within),(0xa6,.hash .ripemd160),(0xa7,.hash .sha1),
  (0xa8,.hash .sha256),(0xa9,.hash .hash160),(0xaa,.hash .hash256),(0xab,.codeSeparator),
  (0xac,.checkSig false),(0xad,.checkSig true),(0xae,.checkMultiSig false),(0xaf,.checkMultiSig true),
  (0xb0,.upgradableNop),(0xb1,.checkLockTimeVerify),(0xb2,.checkSequenceVerify),(0xb3,.upgradableNop),
  (0xb4,.upgradableNop),(0xb5,.upgradableNop),(0xb6,.upgradableNop),(0xb7,.upgradableNop),
  (0xb8,.upgradableNop),(0xb9,.upgradableNop),(0xba,.checkDataSig false),(0xbb,.checkDataSig true),
  (0xbc,.reverseBytes),(0xc0,.nullary .inputIndex),(0xc1,.nullary .activeBytecode),
  (0xc2,.nullary .txVersion),(0xc3,.nullary .txInputCount),(0xc4,.nullary .txOutputCount),
  (0xc5,.nullary .txLockTime),(0xc6,.indexed .utxoValue),(0xc7,.indexed .utxoBytecode),
  (0xc8,.indexed .outpointTxHash),(0xc9,.indexed .outpointIndex),(0xca,.indexed .inputBytecode),
  (0xcb,.indexed .inputSequenceNumber),(0xcc,.indexed .outputValue),(0xcd,.indexed .outputBytecode),
  (0xce,.indexed .utxoTokenCategory),(0xcf,.indexed .utxoTokenCommitment),
  (0xd0,.indexed .utxoTokenAmount),(0xd1,.indexed .outputTokenCategory),
  (0xd2,.indexed .outputTokenCommitment),(0xd3,.indexed .outputTokenAmount)]

def decodeOp (opcode : UInt8) : Op := (opTable.lookup opcode).getD .invalid

/-- The size of the condition stack and the position of its first false value, if there is one. -/
structure ConditionStack where
  stackSize : Nat
  firstFalsePos : Option Nat
deriving DecidableEq, Repr

namespace ConditionStack

def allTrue (c : ConditionStack) : Bool := c.firstFalsePos.isNone

def isEmpty (c : ConditionStack) : Bool := c.stackSize == 0

def pushBack (c : ConditionStack) (f : Bool) : ConditionStack :=
  ⟨c.stackSize+1,if c.firstFalsePos.isNone && !f then some c.stackSize else c.firstFalsePos⟩

def popBack (c : ConditionStack) : ConditionStack :=
  ⟨c.stackSize-1,if c.firstFalsePos = some (c.stackSize-1) then none else c.firstFalsePos⟩

def toggleTop (c : ConditionStack) : ConditionStack :=
  ⟨c.stackSize,if c.firstFalsePos.isNone then some (c.stackSize-1)
    else if c.firstFalsePos = some (c.stackSize-1) then none else c.firstFalsePos⟩
end ConditionStack

/-- A signature's verdict sees no other flags than those the signature hash reads. -/
structure SignatureChecker where
  context : Option ScriptExecutionContext
  checkSig : Bytes → Bytes → CScript → UInt32 → Bool
  verifySignature : Bytes → Bytes → Uint256 → Bool
  checkLockTime : Int → Bool
  checkSequence : Int → Bool
  checkSig_congr : ∀ sig pubKey code flags flags',
    hasFlag flags scriptEnableSighashForkId = hasFlag flags' scriptEnableSighashForkId →
    hasFlag flags scriptEnableTokens = hasFlag flags' scriptEnableTokens →
    checkSig sig pubKey code flags = checkSig sig pubKey code flags'

structure EvalState where
  pc : Bytes
  pbegincodehash : Bytes
  stack : List Bytes
  altstack : List Bytes
  vfExec : ConditionStack
  nOpCount : Nat
  nSigChecks : Nat
deriving DecidableEq, Repr

section Stack

/-- `stacktop(-i)`. -/
def stacktop (stack : List Bytes) (i : Nat) : Eval Bytes :=
  if i = 0 then setError .unknown
  else match stack[i-1]? with
    | some vch => .ok vch
    | none => setError .unknown

def popstack : List Bytes → Eval (List Bytes)
  | [] => setError .unknown
  | _::stack => .ok stack

def popstackN : Nat → List Bytes → Eval (List Bytes)
  | 0, stack => .ok stack
  | n+1, stack => (popstack stack).bind (popstackN n)

/-- `stack.erase(stack.end() - i)`. -/
def eraseTop (stack : List Bytes) (i : Nat) : Eval (List Bytes) :=
  if i = 0 ∨ stack.length < i then setError .unknown else .ok (stack.eraseIdx (i-1))

/-- `swap(stacktop(-i), stacktop(-j))`. -/
def swapTop (stack : List Bytes) (i j : Nat) : Eval (List Bytes) :=
  (stacktop stack i).bind fun vch1 => (stacktop stack j).map fun vch2 =>
    (stack.set (i-1) vch2).set (j-1) vch1

/-- `stack.insert(stack.end() - i, vch)`. -/
def insertTop (stack : List Bytes) (i : Nat) (vch : Bytes) : Eval (List Bytes) :=
  if stack.length < i then setError .unknown else .ok (stack.insertIdx i vch)
end Stack

section Code

def pushScript (b : Bytes) : CScript := (if b.length < opPushData1.toNat then [UInt8.ofNat b.length]
    else if b.length ≤ 0xff then [opPushData1,UInt8.ofNat b.length]
    else if b.length ≤ 0xffff then opPushData2::leBytes 2 b.length
    else opPushData4::leBytes 4 b.length)++b

def findAndDeleteFrom (b : Bytes) : Nat → Bytes → Bytes
  | 0, pc => pc
  | fuel+1, pc =>
    if b.length ≤ pc.length ∧ pc.take b.length = b then findAndDeleteFrom b fuel (pc.drop b.length)
    else match getScriptOp pc with
      | (none,_) => pc
      | (some _,rest) => pc.take (pc.length-rest.length)++findAndDeleteFrom b fuel rest

def findAndDelete (script : CScript) (b : CScript) : CScript :=
  if b.isEmpty then script else findAndDeleteFrom b (script.length+1) script

def cleanupScriptCode (scriptCode : CScript) (vchSig : Bytes) (flags : UInt32) : CScript :=
  if !hasFlag flags scriptEnableSighashForkId || !(getHashType vchSig).hasFork then
    findAndDelete scriptCode (pushScript vchSig)
  else scriptCode

def isOpcodeDisabled (opcode : UInt8) (flags : UInt32) : Bool :=
  [0x83,0x8d,0x8e,0x98,0x99].contains opcode || opcode == 0x95 && !hasFlag flags script64BitIntegers

def checkMinimalPush (data : Bytes) (opcode : UInt8) : Bool :=
  match data with
  | [] => opcode == 0
  | [b] => !(decide (1 ≤ b) && decide (b ≤ 16)) && b != 0x81 && opcode == 1
  | _ => if data.length ≤ 75 then opcode.toNat == data.length
    else if data.length ≤ 255 then opcode == opPushData1
    else if data.length ≤ 65535 then opcode == opPushData2
    else true
end Code

section Exec

variable (ops : CryptoOps) (checker : SignatureChecker) (flags : UInt32)

def fRequireMinimal : Bool := hasFlag flags verifyMinimalData

def maxIntegerSize : Nat :=
  if hasFlag flags script64BitIntegers then CScriptNum.maximumElementSize64Bit
  else CScriptNum.maximumElementSize32Bit

def scriptNum (vch : Bytes) : Eval Int := CScriptNum.fromBytes vch (fRequireMinimal flags) (maxIntegerSize flags)

def unaryOp (k : UnaryOp) (bn : Int) : Eval Int :=
  match k with
  | .add1 => CScriptNum.safeResult (bn+1)
  | .sub1 => CScriptNum.safeResult (bn-1)
  | .negate => .ok (CScriptNum.negate bn)
  | .abs => .ok (if bn < 0 then CScriptNum.negate bn else bn)
  | .not => .ok (if bn = 0 then 1 else 0)
  | .notEqual0 => .ok (if bn ≠ 0 then 1 else 0)

def boolNum (b : Bool) : Int := if b then 1 else 0

def binaryOp (k : BinaryOp) (bn1 bn2 : Int) : Eval Int :=
  match k with
  | .add => CScriptNum.safeResult (bn1+bn2)
  | .sub => CScriptNum.safeResult (bn1-bn2)
  | .mul => CScriptNum.safeResult (bn1*bn2)
  | .div => if bn2 = 0 then setError .divByZero else .ok (CScriptNum.divide bn1 bn2)
  | .mod => if bn2 = 0 then setError .modByZero else .ok (CScriptNum.modulo bn1 bn2)
  | .boolAnd => .ok (boolNum (decide (bn1 ≠ 0) && decide (bn2 ≠ 0)))
  | .boolOr => .ok (boolNum (decide (bn1 ≠ 0) || decide (bn2 ≠ 0)))
  | .numEqual => .ok (boolNum (decide (bn1 = bn2)))
  | .numEqualVerify => .ok (boolNum (decide (bn1 = bn2)))
  | .numNotEqual => .ok (boolNum (decide (bn1 ≠ bn2)))
  | .lessThan => .ok (boolNum (decide (bn1 < bn2)))
  | .greaterThan => .ok (boolNum (decide (bn1 > bn2)))
  | .lessThanOrEqual => .ok (boolNum (decide (bn1 ≤ bn2)))
  | .greaterThanOrEqual => .ok (boolNum (decide (bn1 ≥ bn2)))
  | .min => .ok (if bn1 < bn2 then bn1 else bn2)
  | .max => .ok (if bn1 > bn2 then bn1 else bn2)

def bitwiseOp (k : BitwiseOp) (b1 b2 : UInt8) : UInt8 :=
  match k with
  | .and => b1 &&& b2
  | .or => b1 ||| b2
  | .xor => b1 ^^^ b2

def hashOp (k : HashOp) (vch : Bytes) : Bytes :=
  match k with
  | .ripemd160 => leBytes 20 (ops.ripemd160 vch).toNat
  | .sha1 => leBytes 20 (ops.sha1 vch).toNat
  | .sha256 => leBytes 32 (ops.sha256 vch).toNat
  | .hash160 => leBytes 20 (ops.hash160 vch).toNat
  | .hash256 => leBytes 32 (ops.hash256 vch).toNat

/-- The result of a verifying opcode is taken off the stack again. -/
def pushVerdict (fSuccess verify : Bool) (e : ScriptError) (stack : List Bytes) : Eval (List Bytes) :=
  if verify then if fSuccess then popstack (boolBytes fSuccess::stack) else setError e
  else .ok (boolBytes fSuccess::stack)

def checkLockTimeVerify (st : EvalState) : Eval EvalState :=
  if !hasFlag flags verifyCheckLockTimeVerify then .ok st
  else (require (1 ≤ st.stack.length) .invalidStackOperation).bind fun _ =>
    (stacktop st.stack 1).bind fun vch =>
      (CScriptNum.fromBytes vch (fRequireMinimal flags) 5).bind fun nLockTime =>
        (require (0 ≤ nLockTime) .negativeLockTime).bind fun _ =>
          (require (checker.checkLockTime nLockTime) .unsatisfiedLockTime).map fun _ => st

def sequenceLockTimeDisableFlag : Nat := 2^31

def checkSequenceVerify (st : EvalState) : Eval EvalState :=
  if !hasFlag flags verifyCheckSequenceVerify then .ok st
  else (require (1 ≤ st.stack.length) .invalidStackOperation).bind fun _ =>
    (stacktop st.stack 1).bind fun vch =>
      (CScriptNum.fromBytes vch (fRequireMinimal flags) 5).bind fun nSequence =>
        (require (0 ≤ nSequence) .negativeLockTime).bind fun _ =>
          if nSequence.toNat &&& sequenceLockTimeDisableFlag ≠ 0 then .ok st
          else (require (checker.checkSequence nSequence) .unsatisfiedLockTime).map fun _ => st

def execIf (not fExec : Bool) (st : EvalState) : Eval EvalState :=
  if !fExec then .ok { st with vfExec := st.vfExec.pushBack false }
  else (require (1 ≤ st.stack.length) .unbalancedConditional).bind fun _ =>
    (stacktop st.stack 1).bind fun vch =>
      (require (!hasFlag flags verifyMinimalIf || (decide (vch.length ≤ 1) && (vch.isEmpty || vch == [1])))
        .minimalIf).bind fun _ =>
        (popstack st.stack).map fun stack =>
          { st with stack := stack, vfExec := st.vfExec.pushBack (castToBool vch != not) }

def execCheckSig (verify : Bool) (st : EvalState) : Eval EvalState :=
  (require (2 ≤ st.stack.length) .invalidStackOperation).bind fun _ =>
    (stacktop st.stack 2).bind fun vchSig => (stacktop st.stack 1).bind fun vchPubKey =>
      (checkTransactionSignatureEncoding ops vchSig flags).bind fun _ =>
        (checkPubKeyEncoding vchPubKey flags).bind fun _ =>
          let scriptCode := cleanupScriptCode st.pbegincodehash vchSig flags
          let fSuccess := !vchSig.isEmpty && checker.checkSig vchSig vchPubKey scriptCode flags
          (require (vchSig.isEmpty || fSuccess || !hasFlag flags verifyNullFail) .sigNullFail).bind fun _ =>
            (popstackN 2 st.stack).bind fun stack =>
              (pushVerdict fSuccess verify .checkSigVerify stack).map fun stack =>
                { st with stack := stack, nSigChecks := st.nSigChecks+(if vchSig.isEmpty then 0 else 1) }

def execCheckDataSig (verify : Bool) (st : EvalState) : Eval EvalState :=
  (require (3 ≤ st.stack.length) .invalidStackOperation).bind fun _ =>
    (stacktop st.stack 3).bind fun vchSig => (stacktop st.stack 2).bind fun vchMessage =>
      (stacktop st.stack 1).bind fun vchPubKey =>
        (checkDataSignatureEncoding ops vchSig flags).bind fun _ =>
          (checkPubKeyEncoding vchPubKey flags).bind fun _ =>
            let fSuccess := !vchSig.isEmpty &&
              checker.verifySignature vchSig vchPubKey (ops.sha256 vchMessage)
            (require (vchSig.isEmpty || fSuccess || !hasFlag flags verifyNullFail) .sigNullFail).bind fun _ =>
              (popstackN 3 st.stack).bind fun stack =>
                (pushVerdict fSuccess verify .checkDataSigVerify stack).map fun stack =>
                  { st with stack := stack, nSigChecks := st.nSigChecks+(if vchSig.isEmpty then 0 else 1) }

def nextKey (checkBits : Nat) : Nat → Nat → Nat
  | 0, iKey => iKey
  | fuel+1, iKey => if checkBits.testBit iKey then iKey else nextKey checkBits fuel (iKey+1)

def schnorrLoop (stack : List Bytes) (scriptCode : CScript) (checkBits nKeysCount idxBottomKey idxBottomSig : Nat) :
    Nat → Nat → Nat → Eval Nat
  | 0, _, iKey => .ok iKey
  | n+1, iSig, iKey =>
    (require (checkBits/2^iKey ≠ 0) .invalidBitRange).bind fun _ =>
      let iKey := nextKey checkBits 32 iKey
      (require (iKey < nKeysCount) .pubKeyCount).bind fun _ =>
        (stacktop stack (idxBottomSig-iSig)).bind fun vchSig =>
          (stacktop stack (idxBottomKey-iKey)).bind fun vchPubKey =>
            (checkTransactionSchnorrSignatureEncoding vchSig flags).bind fun _ =>
              (checkPubKeyEncoding vchPubKey flags).bind fun _ =>
                (require (checker.checkSig vchSig vchPubKey scriptCode flags) .sigNullFail).bind fun _ =>
                  schnorrLoop stack scriptCode checkBits nKeysCount idxBottomKey idxBottomSig n (iSig+1) (iKey+1)

def cleanupMultiSig (stack : List Bytes) (idxTopSig : Nat) : Nat → Nat → CScript → Eval CScript
  | 0, _, scriptCode => .ok scriptCode
  | n+1, k, scriptCode => (stacktop stack (idxTopSig+k)).bind fun vchSig =>
    cleanupMultiSig stack idxTopSig n (k+1) (cleanupScriptCode scriptCode vchSig flags)

def legacyLoop (stack : List Bytes) (scriptCode : CScript) (idxTopSig idxTopKey nSigsCount nKeysCount : Nat) :
    Nat → Nat → Eval Bool
  | _, 0 => .ok true
  | 0, _+1 => .error .assertion
  | nKeysRemaining+1, nSigsRemaining+1 =>
    (stacktop stack (idxTopSig+(nSigsCount-(nSigsRemaining+1)))).bind fun vchSig =>
      (stacktop stack (idxTopKey+(nKeysCount-(nKeysRemaining+1)))).bind fun vchPubKey =>
        (checkTransactionECDSASignatureEncoding ops vchSig flags).bind fun _ =>
          (checkPubKeyEncoding vchPubKey flags).bind fun _ =>
            let nSigsRemaining := if checker.checkSig vchSig vchPubKey scriptCode flags then nSigsRemaining
              else nSigsRemaining+1
            if nSigsRemaining > nKeysRemaining then .ok false
            else legacyLoop stack scriptCode idxTopSig idxTopKey nSigsCount nKeysCount
              nKeysRemaining nSigsRemaining

def areAllSignaturesNull (stack : List Bytes) (idxTopSig : Nat) : Nat → Nat → Eval Bool
  | 0, _ => .ok true
  | n+1, i => (stacktop stack (idxTopSig+i)).bind fun vchSig =>
    if vchSig.isEmpty then areAllSignaturesNull stack idxTopSig n (i+1) else .ok false

def countBits (n : Nat) : Nat := (List.range 32).countP n.testBit

def schnorrMultiSig (stack : List Bytes) (scriptCode : CScript) (idxTopKey idxTopSig idxDummy nKeysCount nSigsCount : Nat) :
    Eval (Bool × Nat) :=
  (stacktop stack idxDummy).bind fun vchDummy =>
    (decodeBitfield vchDummy nKeysCount).bind fun checkBits =>
      (require (countBits checkBits = nSigsCount) .invalidBitCount).bind fun _ =>
        (schnorrLoop checker flags stack scriptCode checkBits nKeysCount (idxTopKey+nKeysCount-1)
          (idxTopSig+nSigsCount-1) nSigsCount 0 0).bind fun iKey =>
          (require (checkBits/2^iKey = 0) .invalidBitCount).map fun _ => (true,nSigsCount)

def legacyMultiSig (stack : List Bytes) (scriptCode : CScript) (idxTopKey idxTopSig nKeysCount nSigsCount : Nat) :
    Eval (Bool × Nat) :=
  (cleanupMultiSig flags stack idxTopSig nSigsCount 0 scriptCode).bind fun scriptCode =>
    (legacyLoop ops checker flags stack scriptCode idxTopSig idxTopKey nSigsCount nKeysCount
      nKeysCount nSigsCount).bind fun fSuccess =>
      (areAllSignaturesNull stack idxTopSig nSigsCount 0).bind fun allNull =>
        (require (fSuccess || !hasFlag flags verifyNullFail || allNull) .sigNullFail).map fun _ =>
          (fSuccess,if allNull then 0 else nKeysCount)

def execCheckMultiSig (verify : Bool) (st : EvalState) : Eval EvalState :=
  (require (1 ≤ st.stack.length) .invalidStackOperation).bind fun _ =>
    (stacktop st.stack 1).bind fun vch => (scriptNum flags vch).bind fun nKeys =>
      (require (decide (0 ≤ nKeys) && decide (nKeys ≤ maxPubKeysPerMultisig)) .pubKeyCount).bind fun _ =>
        let nKeysCount := nKeys.toNat
        let nOpCount := st.nOpCount+nKeysCount
        (require (nOpCount ≤ maxOpsPerScript) .opCount).bind fun _ =>
          let idxTopKey := 2
          let idxSigCount := idxTopKey+nKeysCount
          (require (idxSigCount ≤ st.stack.length) .invalidStackOperation).bind fun _ =>
            (stacktop st.stack idxSigCount).bind fun vch => (scriptNum flags vch).bind fun nSigs =>
              (require (decide (0 ≤ nSigs) && decide (nSigs ≤ nKeys)) .sigCount).bind fun _ =>
                let nSigsCount := nSigs.toNat
                let idxTopSig := idxSigCount+1
                let idxDummy := idxTopSig+nSigsCount
                (require (idxDummy ≤ st.stack.length) .invalidStackOperation).bind fun _ =>
                  (stacktop st.stack idxDummy).bind fun vchDummy =>
                    (if hasFlag flags enableSchnorrMultisig && !vchDummy.isEmpty then
                      schnorrMultiSig checker flags st.stack st.pbegincodehash idxTopKey idxTopSig idxDummy
                        nKeysCount nSigsCount
                    else legacyMultiSig ops checker flags st.stack st.pbegincodehash idxTopKey idxTopSig
                      nKeysCount nSigsCount).bind fun r =>
                      (popstackN idxDummy st.stack).bind fun stack =>
                        (pushVerdict r.1 verify .checkMultiSigVerify stack).map fun stack =>
                          { st with stack := stack, nOpCount := nOpCount, nSigChecks := st.nSigChecks+r.2 }

def num2bin (rawnum : Bytes) (size : Nat) : Eval Bytes :=
  let rawnum := CScriptNum.minimallyEncode rawnum
  if rawnum.length > size then setError .impossibleEncoding
  else if rawnum.length = size then .ok rawnum
  else match rawnum.reverse with
    | [] => .ok (List.replicate (size-1) 0++[0])
    | back::rest =>
      .ok (((back &&& 0x7f)::rest).reverse++List.replicate (size-1-rawnum.length) 0++[back &&& 0x80])

def getBytecode (txout : CTxOut) : Eval Bytes :=
  if !hasFlag flags scriptEnableTokens && txout.tokenData.isSome then
    match wrapScriptPubKey txout.tokenData txout.scriptPubKey with
    | some wspk => .ok wspk
    | none => setError .unknown
  else .ok txout.scriptPubKey

def sizedElement (vch : Bytes) : Eval Bytes :=
  (require (vch.length ≤ maxScriptElementSize) .pushSize).map fun _ => vch

def tokenCategory (tokenData : Option OutputData) : Eval Bytes :=
  match tokenData with
  | none => .ok (CScriptNum.serialize 0)
  | some d => sizedElement (serializeUint256 d.id++
      if d.isMintingNFT || d.isMutableNFT then [d.getCapability] else [])

def tokenCommitment (tokenData : Option OutputData) : Eval Bytes :=
  match tokenData with
  | none => .ok (CScriptNum.serialize 0)
  | some d => if !d.hasNFT then .ok (CScriptNum.serialize 0) else sizedElement d.commitment

def numberElement (x : Int) : Eval Bytes := (CScriptNum.fromIntValue x).map CScriptNum.serialize

def tokenAmount (tokenData : Option OutputData) : Eval Bytes :=
  match tokenData with
  | none => .ok (CScriptNum.serialize 0)
  | some d => numberElement d.amount

def inputAt (context : ScriptExecutionContext) (index : Int) : Eval CTxIn :=
  (require (decide (0 ≤ index) && decide (index < context.tx.vin.length)) .invalidTxInputIndex).bind fun _ =>
    match context.tx.vin[index.toNat]? with
    | some txin => .ok txin
    | none => setError .unknown

def coinAt (context : ScriptExecutionContext) (index : Int) : Eval Coin :=
  (require (decide (0 ≤ index) && decide (index < context.tx.vin.length)) .invalidTxInputIndex).bind fun _ =>
    (require (!context.limited || index.toNat == context.nIn) .limitedContextNoSiblingInfo).bind fun _ =>
      match context.inputCoins[index.toNat]? with
      | some coin => .ok coin
      | none => setError .unknown

def outputAt (context : ScriptExecutionContext) (index : Int) : Eval CTxOut :=
  (require (decide (0 ≤ index) && decide (index < context.tx.vout.length)) .invalidTxOutputIndex).bind fun _ =>
    match context.tx.vout[index.toNat]? with
    | some txout => .ok txout
    | none => setError .unknown

def IndexedOp.needsTokens : IndexedOp → Bool
  | .utxoTokenCategory | .utxoTokenCommitment | .utxoTokenAmount
  | .outputTokenCategory | .outputTokenCommitment | .outputTokenAmount => true
  | _ => false

def nullaryOp (k : NullaryOp) (context : ScriptExecutionContext) (st : EvalState) : Eval Bytes :=
  match k with
  | .inputIndex => numberElement context.nIn
  | .activeBytecode => sizedElement st.pbegincodehash
  | .txVersion => numberElement context.tx.nVersion
  | .txInputCount => numberElement context.tx.vin.length
  | .txOutputCount => numberElement context.tx.vout.length
  | .txLockTime => numberElement context.tx.nLockTime

def indexedOp (k : IndexedOp) (context : ScriptExecutionContext) (index : Int) : Eval Bytes :=
  match k with
  | .utxoValue => (coinAt context index).bind fun coin => numberElement coin.out.nValue
  | .utxoBytecode => (coinAt context index).bind fun coin =>
      (getBytecode flags coin.out).bind sizedElement
  | .outpointTxHash => (inputAt context index).map fun txin => serializeUint256 txin.prevout.txid
  | .outpointIndex => (inputAt context index).bind fun txin => numberElement txin.prevout.n
  | .inputBytecode => (inputAt context index).bind fun txin => sizedElement txin.scriptSig
  | .inputSequenceNumber => (inputAt context index).bind fun txin => numberElement txin.nSequence
  | .outputValue => (outputAt context index).bind fun txout => numberElement txout.nValue
  | .outputBytecode => (outputAt context index).bind fun txout =>
      (getBytecode flags txout).bind sizedElement
  | .utxoTokenCategory => (coinAt context index).bind fun coin => tokenCategory coin.out.tokenData
  | .utxoTokenCommitment => (coinAt context index).bind fun coin => tokenCommitment coin.out.tokenData
  | .utxoTokenAmount => (coinAt context index).bind fun coin => tokenAmount coin.out.tokenData
  | .outputTokenCategory => (outputAt context index).bind fun txout => tokenCategory txout.tokenData
  | .outputTokenCommitment => (outputAt context index).bind fun txout => tokenCommitment txout.tokenData
  | .outputTokenAmount => (outputAt context index).bind fun txout => tokenAmount txout.tokenData

/-- The context, which only a checker without a transaction lacks. -/
def getContext : Eval ScriptExecutionContext :=
  (require (hasFlag flags nativeIntrospection) .badOpcode).bind fun _ =>
    match checker.context with
    | some context => .ok context
    | none => setError .contextNotPresent

def stackOp (op : Op) (stack : List Bytes) : Eval (List Bytes) :=
  let need := fun n => require (decide (n ≤ stack.length)) .invalidStackOperation
  match op with
  | .smallInt n => .ok (CScriptNum.serialize n::stack)
  | .verify => (need 1).bind fun _ => (stacktop stack 1).bind fun vch =>
      if castToBool vch then popstack stack else setError .verify
  | .drop2 => (need 2).bind fun _ => popstackN 2 stack
  | .dup2 => (need 2).bind fun _ => (stacktop stack 2).bind fun vch1 => (stacktop stack 1).map fun vch2 =>
      vch2::vch1::stack
  | .dup3 => (need 3).bind fun _ => (stacktop stack 3).bind fun vch1 => (stacktop stack 2).bind fun vch2 =>
      (stacktop stack 1).map fun vch3 => vch3::vch2::vch1::stack
  | .over2 => (need 4).bind fun _ => (stacktop stack 4).bind fun vch1 => (stacktop stack 3).map fun vch2 =>
      vch2::vch1::stack
  | .rot2 => (need 6).bind fun _ => (stacktop stack 6).bind fun vch1 => (stacktop stack 5).bind fun vch2 =>
      (eraseTop stack 6).bind fun stack => (eraseTop stack 5).map fun stack => vch2::vch1::stack
  | .swap2 => (need 4).bind fun _ => (swapTop stack 4 2).bind fun stack => swapTop stack 3 1
  | .ifDup => (need 1).bind fun _ => (stacktop stack 1).map fun vch =>
      if castToBool vch then vch::stack else stack
  | .depth => .ok (CScriptNum.serialize stack.length::stack)
  | .drop => (need 1).bind fun _ => popstack stack
  | .dup => (need 1).bind fun _ => (stacktop stack 1).map fun vch => vch::stack
  | .nip => (need 2).bind fun _ => eraseTop stack 2
  | .over1 => (need 2).bind fun _ => (stacktop stack 2).map fun vch => vch::stack
  | .pick roll => (need 2).bind fun _ => (stacktop stack 1).bind fun vch => (scriptNum flags vch).bind fun n =>
      (popstack stack).bind fun stack =>
        (require (decide (0 ≤ n) && decide (n < stack.length)) .invalidStackOperation).bind fun _ =>
          (stacktop stack (n.toNat+1)).bind fun vch =>
            (if roll then eraseTop stack (n.toNat+1) else .ok stack).map fun stack => vch::stack
  | .rot => (need 3).bind fun _ => (swapTop stack 3 2).bind fun stack => swapTop stack 2 1
  | .swap => (need 2).bind fun _ => swapTop stack 2 1
  | .tuck => (need 2).bind fun _ => (stacktop stack 1).bind fun vch => insertTop stack 2 vch
  | .size => (need 1).bind fun _ => (stacktop stack 1).map fun vch => CScriptNum.serialize vch.length::stack
  | .bitwise k => (need 2).bind fun _ => (stacktop stack 2).bind fun vch1 => (stacktop stack 1).bind fun vch2 =>
      (require (vch1.length == vch2.length) .invalidOperandSize).bind fun _ =>
        (popstackN 2 stack).map fun stack => List.zipWith (bitwiseOp k) vch1 vch2::stack
  | .equal verify => (need 2).bind fun _ => (stacktop stack 2).bind fun vch1 =>
      (stacktop stack 1).bind fun vch2 => (popstackN 2 stack).bind fun stack =>
        pushVerdict (vch1 == vch2) verify .equalVerify stack
  | .unary k => (need 1).bind fun _ => (stacktop stack 1).bind fun vch => (scriptNum flags vch).bind fun bn =>
      (unaryOp k bn).bind fun bn => (popstack stack).map fun stack => CScriptNum.serialize bn::stack
  | .binary k => (need 2).bind fun _ => (stacktop stack 2).bind fun vch1 => (stacktop stack 1).bind fun vch2 =>
      (scriptNum flags vch1).bind fun bn1 => (scriptNum flags vch2).bind fun bn2 =>
        (binaryOp k bn1 bn2).bind fun bn => (popstackN 2 stack).bind fun stack =>
          if k = .numEqualVerify then
            if castToBool (CScriptNum.serialize bn) then popstack (CScriptNum.serialize bn::stack)
            else setError .numEqualVerify
          else .ok (CScriptNum.serialize bn::stack)
  | .within => (need 3).bind fun _ => (stacktop stack 3).bind fun vch1 => (stacktop stack 2).bind fun vch2 =>
      (stacktop stack 1).bind fun vch3 => (scriptNum flags vch1).bind fun bn1 =>
        (scriptNum flags vch2).bind fun bn2 => (scriptNum flags vch3).bind fun bn3 =>
          (popstackN 3 stack).map fun stack => boolBytes (decide (bn2 ≤ bn1) && decide (bn1 < bn3))::stack
  | .hash k => (need 1).bind fun _ => (stacktop stack 1).bind fun vch =>
      (popstack stack).map fun stack => hashOp ops k vch::stack
  | .cat => (need 2).bind fun _ => (stacktop stack 2).bind fun vch1 => (stacktop stack 1).bind fun vch2 =>
      (require (vch1.length+vch2.length ≤ maxScriptElementSize) .pushSize).bind fun _ =>
        (popstackN 2 stack).map fun stack => (vch1++vch2)::stack
  | .split => (need 2).bind fun _ => (stacktop stack 2).bind fun data => (stacktop stack 1).bind fun vch =>
      (scriptNum flags vch).bind fun position =>
        (require (decide (0 ≤ position) && decide (position ≤ data.length)) .invalidSplitRange).bind fun _ =>
          (popstackN 2 stack).map fun stack =>
            data.drop position.toNat::data.take position.toNat::stack
  | .reverseBytes => (need 1).bind fun _ => (stacktop stack 1).bind fun data =>
      (popstack stack).map fun stack => data.reverse::stack
  | .num2bin => (need 2).bind fun _ => (stacktop stack 1).bind fun vch => (scriptNum flags vch).bind fun size =>
      -- a negative size is a huge unsigned one
      (require (decide (0 ≤ size) && decide (size ≤ maxScriptElementSize)) .pushSize).bind fun _ =>
        (popstack stack).bind fun stack => (stacktop stack 1).bind fun rawnum =>
          (num2bin rawnum size.toNat).bind fun out => (popstack stack).map fun stack => out::stack
  | .bin2num => (need 1).bind fun _ => (stacktop stack 1).bind fun n =>
      let n := CScriptNum.minimallyEncode n
      (require (CScriptNum.isMinimallyEncoded n (maxIntegerSize flags))
        (if hasFlag flags script64BitIntegers then .invalidNumberRange64Bit else .invalidNumberRange)).bind
          fun _ => (popstack stack).map fun stack => n::stack
  | _ => setError .badOpcode

/-- The switch of `EvalScript`; `fExec` only matters to the opcodes that always run. -/
def execOp (op : Op) (fExec : Bool) (st : EvalState) : Eval EvalState :=
  match op with
  | .nop => .ok st
  | .checkLockTimeVerify => checkLockTimeVerify checker flags st
  | .checkSequenceVerify => checkSequenceVerify checker flags st
  | .upgradableNop =>
    (require (!hasFlag flags verifyDiscourageUpgradableNops) .discourageUpgradableNops).map fun _ => st
  | .if_ not => execIf flags not fExec st
  | .else_ => (require (!st.vfExec.isEmpty) .unbalancedConditional).map fun _ =>
      { st with vfExec := st.vfExec.toggleTop }
  | .endIf => (require (!st.vfExec.isEmpty) .unbalancedConditional).map fun _ =>
      { st with vfExec := st.vfExec.popBack }
  | .return_ => setError .opReturn
  | .toAltStack => (require (1 ≤ st.stack.length) .invalidStackOperation).bind fun _ =>
      (stacktop st.stack 1).bind fun vch => (popstack st.stack).map fun stack =>
        { st with stack := stack, altstack := vch::st.altstack }
  | .fromAltStack => (require (1 ≤ st.altstack.length) .invalidAltStackOperation).bind fun _ =>
      (stacktop st.altstack 1).bind fun vch => (popstack st.altstack).map fun altstack =>
        { st with stack := vch::st.stack, altstack := altstack }
  | .codeSeparator => .ok { st with pbegincodehash := st.pc }
  | .checkSig verify => execCheckSig ops checker flags verify st
  | .checkDataSig verify => execCheckDataSig ops checker flags verify st
  | .checkMultiSig verify => execCheckMultiSig ops checker flags verify st
  | .nullary k => (getContext checker flags).bind fun context =>
      (nullaryOp k context st).map fun vch => { st with stack := vch::st.stack }
  | .indexed k =>
    (require (!k.needsTokens || hasFlag flags scriptEnableTokens) .badOpcode).bind fun _ =>
      (getContext checker flags).bind fun context =>
        (require (1 ≤ st.stack.length) .invalidStackOperation).bind fun _ =>
          (stacktop st.stack 1).bind fun vch => (scriptNum flags vch).bind fun index =>
            (popstack st.stack).bind fun stack =>
              (indexedOp flags k context index).map fun vch => { st with stack := vch::stack }
  | op => (stackOp ops flags op st.stack).map fun stack => { st with stack := stack }

def op16 : UInt8 := 0x60

/-- One turn of the loop of `EvalScript`. -/
def evalStep (st : EvalState) : Eval EvalState :=
  let fExec := st.vfExec.allTrue
  match getScriptOp st.pc with
  | (none,_) => setError .badOpcode
  | (some (opcode,vchPushValue),pc) =>
    (require (vchPushValue.length ≤ maxScriptElementSize) .pushSize).bind fun _ =>
      let nOpCount := if opcode > op16 then st.nOpCount+1 else st.nOpCount
      (require (nOpCount ≤ maxOpsPerScript) .opCount).bind fun _ =>
        (require (!isOpcodeDisabled opcode flags) .disabledOpcode).bind fun _ =>
          let st := { st with pc := pc, nOpCount := nOpCount }
          (if fExec && decide (opcode ≤ opPushData4) then
            (require (!fRequireMinimal flags || checkMinimalPush vchPushValue opcode) .minimalData).map
              fun _ => { st with stack := vchPushValue::st.stack }
          else if fExec || (decide (0x63 ≤ opcode) && decide (opcode ≤ 0x68)) then
            execOp ops checker flags (decodeOp opcode) fExec st
          else .ok st).bind fun st =>
            (require (st.stack.length+st.altstack.length ≤ maxStackSize) .stackSize).map fun _ => st

/-- The loop; every turn takes a byte of the script, so its length is enough fuel. -/
def evalLoop : Nat → EvalState → Eval EvalState
  | 0, st => if st.pc.isEmpty then .ok st else .error .outOfFuel
  | fuel+1, st => if st.pc.isEmpty then .ok st else (evalStep ops checker flags st).bind (evalLoop fuel)

def evalStart (stack : List Bytes) (script : CScript) (nSigChecks : Nat) : EvalState :=
  ⟨script,script,stack,[],⟨0,none⟩,0,nSigChecks⟩

/-- The stack and the number of signature checks after the script. -/
def evalScript (stack : List Bytes) (script : CScript) (nSigChecks : Nat) : Eval (List Bytes × Nat) :=
  (require (script.length ≤ maxScriptSize) .scriptSize).bind fun _ =>
    (evalLoop ops checker flags script.length (evalStart stack script nSigChecks)).bind fun st =>
      (require st.vfExec.isEmpty .unbalancedConditional).map fun _ => (st.stack,st.nSigChecks)
end Exec

section Verify

def isPushOnlyFrom : Nat → Bytes → Bool
  | 0, _ => true
  | fuel+1, pc => pc.isEmpty || match getScriptOp pc with
    | (none,_) => false
    | (some (opcode,_),rest) => decide (opcode ≤ op16) && isPushOnlyFrom fuel rest

def CScript.isPushOnly (script : CScript) : Bool := isPushOnlyFrom script.length script

def isPayToScriptHashOf (script : CScript) (flags : UInt32) : Option Bool :=
  if script.length = 23 ∧ script[0]? = some 0xa9 ∧ script[1]? = some 0x14 ∧ script[22]? = some 0x87 then
    some false
  else if hasFlag flags enableP2SH32 ∧ script.length = 35 ∧ script[0]? = some 0xaa ∧
      script[1]? = some 0x20 ∧ script[34]? = some 0x87 then some true
  else none

def CScript.isWitnessProgram (script : CScript) : Bool :=
  match script with
  | version::size::_ => decide (4 ≤ script.length) && decide (script.length ≤ 42) &&
      (version == 0 || (decide (0x51 ≤ version) && decide (version ≤ op16))) && size.toNat+2 == script.length
  | _ => false

variable (ops : CryptoOps) (checker : SignatureChecker)

def requireTrue (stack : List Bytes) : Eval Unit :=
  match stack with
  | [] => setError .evalFalse
  | vch::_ => require (castToBool vch) .evalFalse

def finishVerify (scriptSig : CScript) (flags : UInt32) (stack : List Bytes) (nSigChecks : Nat) : Eval Nat :=
  (if hasFlag flags verifyCleanStack then
    if !hasFlag flags verifyP2SH then .error .assertion
    else require (stack.length == 1) .cleanStack
  else .ok ()).bind fun _ =>
    (require (!hasFlag flags verifyInputSigChecks ||
      decide ((nSigChecks : Int)*43-60 ≤ scriptSig.length)) .inputSigChecks).map fun _ => nSigChecks

/-- The redeem script on the stack that the script of the input left. -/
def verifyRedeemScript (scriptSig : CScript) (flags : UInt32) (p2sh32 : Bool) (stackCopy : List Bytes)
    (nSigChecks : Nat) : Eval Nat :=
  (require (CScript.isPushOnly scriptSig) .sigPushOnly).bind fun _ =>
    match stackCopy with
    | [] => .error .assertion
    | pubKey2::stack =>
      if !hasFlag flags disallowSegwitRecovery && !p2sh32 && stack.isEmpty && CScript.isWitnessProgram pubKey2 then
        .ok nSigChecks
      else (evalScript ops checker flags stack pubKey2 nSigChecks).bind fun r =>
        (requireTrue r.1).bind fun _ => finishVerify scriptSig flags r.1 r.2

/-- With the replay-protected hash the encodings are strict. -/
def verifyFlags (flags : UInt32) : UInt32 :=
  if hasFlag flags scriptEnableSighashForkId then flags ||| verifyStrictEnc else flags

/-- The number of signature checks, if the scripts allow the spend. -/
def verifyScript (scriptSig scriptPubKey : CScript) (flags : UInt32) : Eval Nat :=
  let flags := verifyFlags flags
  (require (!hasFlag flags verifySigPushOnly || CScript.isPushOnly scriptSig) .sigPushOnly).bind fun _ =>
    (evalScript ops checker flags [] scriptSig 0).bind fun r =>
      (evalScript ops checker flags r.1 scriptPubKey r.2).bind fun s =>
        (requireTrue s.1).bind fun _ =>
          match if hasFlag flags verifyP2SH then isPayToScriptHashOf scriptPubKey flags else none with
          | some p2sh32 => verifyRedeemScript ops checker scriptSig flags p2sh32 r.1 s.2
          | none => finishVerify scriptSig flags s.1 s.2
end Verify
end BitfiniteCore
