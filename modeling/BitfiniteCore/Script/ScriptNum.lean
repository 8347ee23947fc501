import BitfiniteCore.Consensus.Tokens
import BitfiniteCore.Script.Script

/-! # Numbers on the script stack -/

namespace BitfiniteCore

inductive ScriptError
  | unknown | evalFalse | opReturn
  | scriptSize | pushSize | opCount | stackSize | sigCount | pubKeyCount | invalidOperandSize
  | invalidNumberRange | impossibleEncoding | invalidSplitRange | invalidBitCount
  | verify | equalVerify | checkSigVerify | checkDataSigVerify | checkMultiSigVerify | numEqualVerify
  | badOpcode | disabledOpcode | invalidStackOperation | invalidAltStackOperation
  | unbalancedConditional | divByZero | modByZero | invalidBitfieldSize | invalidBitRange
  | negativeLockTime | unsatisfiedLockTime
  | sigHashType | sigDer | minimalData | sigPushOnly | sigHighS | pubKeyType | cleanStack
  | minimalIf | sigNullFail | minimalNum | sigBadLength | sigNonSchnorr | discourageUpgradableNops
  | illegalForkId | mustUseForkId | inputSigChecks
  | contextNotPresent | limitedContextNoSiblingInfo | invalidTxInputIndex | invalidTxOutputIndex
  | invalidNumberRange64Bit
deriving DecidableEq, Repr

/-- An exception other than `scriptnum_error` is caught and becomes the unknown error. -/
inductive ScriptStop
  | error (e : ScriptError)
  | assertion
  | outOfFuel
deriving DecidableEq, Repr

abbrev Eval (α : Type) := Except ScriptStop α

def setError {α : Type} (e : ScriptError) : Eval α := .error (.error e)

/-- `return set_error(serror, e)` unless the condition holds. -/
def require (c : Bool) (e : ScriptError) : Eval Unit := if c then .ok () else setError e

namespace CScriptNum

def maximumElementSize32Bit : Nat := 4

def maximumElementSize64Bit : Nat := 8

def isMinimallyEncoded (vch : Bytes) (maxIntegerSize : Nat) : Bool := decide (vch.length ≤ maxIntegerSize) &&
    match vch.reverse with
    | [] => true
    | last::rest => last &&& 0x7f != 0 ||
      match rest with
      | [] => false
      | next::_ => next &&& 0x80 != 0

def trimZeros (last : UInt8) : Bytes → Bytes
  | [] => []
  | b::rest =>
    if b = 0 then trimZeros last rest
    else if b &&& 0x80 ≠ 0 then (last::b::rest).reverse
    else ((b ||| last)::rest).reverse

def minimallyEncode (data : Bytes) : Bytes :=
  match data.reverse with
  | [] => data
  | last::rest =>
    if last &&& 0x7f ≠ 0 then data
    else match rest with
      | [] => []
      | next::_ => if next &&& 0x80 ≠ 0 then data else trimZeros last rest

def setVch (vch : Bytes) : Int :=
  match vch.getLast? with
  | none => 0
  | some back =>
    if back &&& 0x80 ≠ 0 then -((leNat vch : Int)-0x80*256^(vch.length-1)) else leNat vch

def fromBytes (vch : Bytes) (fRequireMinimal : Bool) (maxIntegerSize : Nat) : Eval Int :=
  if maxIntegerSize > maximumElementSize64Bit then setError .unknown
  else if vch.length > maxIntegerSize then
    setError (if maxIntegerSize = 8 then .invalidNumberRange64Bit else .invalidNumberRange)
  else if fRequireMinimal && !isMinimallyEncoded vch maxIntegerSize then setError .minimalNum
  else .ok (setVch vch)

/-- The bytes of a 64-bit number without leading zeros. -/
def magnitude : Nat → Nat → Bytes
  | 0, _ => []
  | k+1, n => if n = 0 then [] else UInt8.ofNat (n%256)::magnitude k (n/256)

def serialize (value : Int) : Bytes :=
  let result := magnitude 8 value.natAbs
  match result.reverse with
  | [] => []
  | back::rest =>
    if back &&& 0x80 ≠ 0 then result++[if value < 0 then 0x80 else 0]
    else if value < 0 then ((back ||| 0x80)::rest).reverse
    else result

/-- `fromInt(x).value()`, which throws on the one value that has no encoding. -/
def fromIntValue (x : Int) : Eval Int := if valid64BitRange x then .ok x else setError .unknown

/-- The result of a checked operation, if it is a valid number. -/
def safeResult (x : Int) : Eval Int :=
  if valid64BitRange x then .ok x else setError .invalidNumberRange64Bit

def divide (value x : Int) : Int := if x = -1 ∧ !valid64BitRange value then value else value.tdiv x

def modulo (value x : Int) : Int := if x = -1 ∧ !valid64BitRange value then 0 else value.tmod x

def negate (value : Int) : Int := if valid64BitRange value then -value else value
end CScriptNum

def castToBool : Bytes → Bool
  | [] => false
  | b::vch => if b ≠ 0 then !(vch.isEmpty && b == 0x80) else castToBool vch

def vchFalse : Bytes := []

def vchTrue : Bytes := [1]

def boolBytes (b : Bool) : Bytes := if b then vchTrue else vchFalse
end BitfiniteCore
