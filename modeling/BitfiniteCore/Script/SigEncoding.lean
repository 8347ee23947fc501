import BitfiniteCore.Script.ScriptNum
import BitfiniteCore.Script.SigHash

/-!
# The encodings of signatures and public keys

`CryptoOps` holds the hash functions and the test for a low S value.
-/

namespace BitfiniteCore

namespace ScriptFlags

def verifyP2SH : UInt32 := 0x1
def verifyStrictEnc : UInt32 := 0x2
def verifyDerSig : UInt32 := 0x4
def verifyLowS : UInt32 := 0x8
def verifySigPushOnly : UInt32 := 0x20
def verifyMinimalData : UInt32 := 0x40
def verifyDiscourageUpgradableNops : UInt32 := 0x80
def verifyCleanStack : UInt32 := 0x100
def verifyCheckLockTimeVerify : UInt32 := 0x200
def verifyCheckSequenceVerify : UInt32 := 0x400
def verifyMinimalIf : UInt32 := 0x2000
def verifyNullFail : UInt32 := 0x4000
def disallowSegwitRecovery : UInt32 := 0x100000
def enableSchnorrMultisig : UInt32 := 0x200000
def verifyInputSigChecks : UInt32 := 0x400000
def enforceSigChecks : UInt32 := 0x800000
def script64BitIntegers : UInt32 := 0x1000000
def nativeIntrospection : UInt32 := 0x2000000
def enableP2SH32 : UInt32 := 0x4000000
end ScriptFlags

def hasFlag (flags flag : UInt32) : Bool := flags &&& flag != 0

private theorem or_and_distrib (a b flag : UInt32) : (a ||| b) &&& flag = (a &&& flag) ||| (b &&& flag) := by
  rw [← UInt32.toBitVec_inj]
  apply BitVec.eq_of_getLsbD_eq
  intro i hi
  simp [Bool.and_or_distrib_right]

theorem hasFlag_or (a b flag : UInt32) : hasFlag (a ||| b) flag = (hasFlag a flag || hasFlag b flag) := by
  rw [hasFlag,hasFlag,hasFlag,or_and_distrib,Bool.eq_iff_iff]
  simp only [bne_iff_ne,Bool.or_eq_true,ne_eq,UInt32.or_eq_zero_iff]
  exact Classical.not_and_iff_not_or_not

structure CryptoOps where
  ripemd160 : Bytes → BitVec 160
  sha1 : Bytes → BitVec 160
  sha256 : Bytes → Uint256
  hash160 : Bytes → BitVec 160
  hash256 : Bytes → Uint256
  checkLowS : Bytes → Bool

open ScriptFlags

def isValidDERSignatureEncoding (sig : Bytes) : Bool :=
  let at' := fun i => sig.getD i 0
  let lenR := (at' 3).toNat
  let startS := lenR+4
  let lenS := (at' (startS+1)).toNat
  if sig.length < 8 || sig.length > 72 then false
  else if at' 0 != 0x30 then false
  else if (at' 1).toNat != sig.length-2 then false
  else if at' 2 != 0x02 then false
  else if lenR == 0 then false
  else if at' 4 &&& 0x80 != 0 then false
  else if lenR > sig.length-7 then false
  else if lenR > 1 && at' 4 == 0 && at' 5 &&& 0x80 == 0 then false
  else if at' startS != 0x02 then false
  else if lenS == 0 then false
  else if at' (startS+2) &&& 0x80 != 0 then false
  else if startS+lenS+2 != sig.length then false
  else if lenS > 1 && at' (startS+2) == 0 && at' (startS+3) &&& 0x80 == 0 then false
  else true

def isSchnorrSig (sig : Bytes) : Bool := sig.length == 64

variable (ops : CryptoOps)

def checkRawECDSASignatureEncoding (sig : Bytes) (flags : UInt32) : Eval Unit :=
  if isSchnorrSig sig then setError .sigBadLength
  else if (hasFlag flags verifyDerSig || hasFlag flags verifyLowS || hasFlag flags verifyStrictEnc) &&
      !isValidDERSignatureEncoding sig then setError .sigDer
  else if hasFlag flags verifyLowS && !ops.checkLowS sig then setError .sigHighS
  else .ok ()

def checkRawSchnorrSignatureEncoding (sig : Bytes) (_flags : UInt32) : Eval Unit :=
  if isSchnorrSig sig then .ok () else setError .sigNonSchnorr

def checkRawSignatureEncoding (sig : Bytes) (flags : UInt32) : Eval Unit :=
  if isSchnorrSig sig then .ok () else checkRawECDSASignatureEncoding ops sig flags

def checkDataSignatureEncoding (vchSig : Bytes) (flags : UInt32) : Eval Unit :=
  if vchSig.isEmpty then .ok () else checkRawSignatureEncoding ops vchSig flags

def getHashType (vchSig : Bytes) : SigHashType :=
  match vchSig.getLast? with
  | none => ⟨0⟩
  | some b => ⟨b.toUInt32⟩

/-- The base type here is the lower six bits. -/
def SigHashType.isDefined (t : SigHashType) : Bool :=
  let baseType := t.sigHash &&& ~~~(SigHashType.forkId ||| SigHashType.anyoneCanPay ||| SigHashType.utxos)
  decide (SigHashType.all ≤ baseType) && decide (baseType ≤ SigHashType.single)

def checkDefinedHashType (hashType : SigHashType) (forkEnabled upgrade9Enabled : Bool) : Eval Unit :=
  if !hashType.isDefined then setError .sigHashType
  else if !forkEnabled && hashType.hasFork then setError .illegalForkId
  else if forkEnabled && !hashType.hasFork then setError .mustUseForkId
  else if hashType.hasUtxos &&
      (!upgrade9Enabled || !hashType.hasFork || !forkEnabled || hashType.hasAnyoneCanPay) then
    setError .sigHashType
  else .ok ()

def checkSighashEncoding (vchSig : Bytes) (flags : UInt32) : Eval Unit :=
  if hasFlag flags verifyStrictEnc then
    checkDefinedHashType (getHashType vchSig) (hasFlag flags scriptEnableSighashForkId)
      (hasFlag flags scriptEnableTokens)
  else .ok ()

def checkTransactionSignatureEncodingWith (fun_ : Bytes → UInt32 → Eval Unit) (vchSig : Bytes)
    (flags : UInt32) : Eval Unit :=
  if vchSig.isEmpty then .ok ()
  else (fun_ vchSig.dropLast flags).bind fun _ => checkSighashEncoding vchSig flags

def checkTransactionSignatureEncoding : Bytes → UInt32 → Eval Unit :=
  checkTransactionSignatureEncodingWith (checkRawSignatureEncoding ops)

def checkTransactionECDSASignatureEncoding : Bytes → UInt32 → Eval Unit :=
  checkTransactionSignatureEncodingWith (checkRawECDSASignatureEncoding ops)

def checkTransactionSchnorrSignatureEncoding : Bytes → UInt32 → Eval Unit :=
  checkTransactionSignatureEncodingWith checkRawSchnorrSignatureEncoding

def isCompressedOrUncompressedPubKey (vchPubKey : Bytes) : Bool :=
  if vchPubKey.length = 33 then vchPubKey.head? == some 0x02 || vchPubKey.head? == some 0x03
  else if vchPubKey.length = 65 then vchPubKey.head? == some 0x04
  else false

def checkPubKeyEncoding (vchPubKey : Bytes) (flags : UInt32) : Eval Unit :=
  if hasFlag flags verifyStrictEnc && !isCompressedOrUncompressedPubKey vchPubKey then setError .pubKeyType
  else .ok ()

def decodeBitfield (vch : Bytes) (size : Nat) : Eval Nat :=
  if size > 32 then setError .invalidBitfieldSize
  else if vch.length ≠ (size+7)/8 then setError .invalidBitfieldSize
  else if leNat vch ≥ 2^size then setError .invalidBitRange
  else .ok (leNat vch)
end BitfiniteCore
