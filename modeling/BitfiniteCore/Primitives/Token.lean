import BitfiniteCore.Primitives.Amount

/-! # Token data -/

namespace BitfiniteCore

abbrev Bytes := List UInt8

abbrev Uint256 := BitVec 256

instance : LawfulBEq Uint256 := inferInstance

abbrev TokenId := Uint256

abbrev NFTCommitment := Bytes

namespace Structure

def hasAmount : UInt8 := 0x10
def hasNFT : UInt8 := 0x20
def hasCommitmentLength : UInt8 := 0x40
end Structure

namespace Capability

def none : UInt8 := 0x00
def mutable : UInt8 := 0x01
def minting : UInt8 := 0x02
end Capability

def maxConsensusCommitmentLength : Nat := 40

structure OutputData where
  id : TokenId
  bitfield : UInt8
  amount : Int
  commitment : NFTCommitment
deriving DecidableEq, Repr

namespace OutputData

variable (d : OutputData)

def getCapability : UInt8 := d.bitfield &&& 0x0f

def hasNFT : Bool := d.bitfield &&& Structure.hasNFT != 0

def hasAmount : Bool := d.bitfield &&& Structure.hasAmount != 0

def hasCommitmentLength : Bool := d.bitfield &&& Structure.hasCommitmentLength != 0

def isMintingNFT : Bool := d.hasNFT && d.getCapability == Capability.minting

def isMutableNFT : Bool := d.hasNFT && d.getCapability == Capability.mutable

def isImmutableNFT : Bool := d.hasNFT && d.getCapability == Capability.none

def isFungibleOnly : Bool := !d.hasNFT

def isValidBitfield : Bool :=
  let s := d.bitfield &&& 0xf0
  if s ≥ 0x80 || s == 0x00 then false
  else if d.bitfield &&& 0x0f > 2 then false
  else if !d.hasNFT && !d.hasAmount then false
  else if !d.hasNFT && d.bitfield &&& 0x0f != 0 then false
  else if !d.hasNFT && d.hasCommitmentLength then false
  else true

theorem capability_cases {d : OutputData} (hv : d.isValidBitfield = true) :
    d.getCapability = Capability.none ∨ d.getCapability = Capability.mutable ∨
      d.getCapability = Capability.minting := by
  have hle : ¬ (d.bitfield &&& 0x0f > 2) := by
    intro hgt
    unfold isValidBitfield at hv
    simp only [hgt,if_true] at hv
    split at hv <;> exact absurd hv (by simp)
  have hn : (d.bitfield &&& 0x0f).toNat ≤ 2 := by
    have := UInt8.not_lt.mp hle
    simpa [UInt8.le_iff_toNat_le] using this
  have hcase : (d.bitfield &&& 0x0f).toNat = 0 ∨ (d.bitfield &&& 0x0f).toNat = 1 ∨
      (d.bitfield &&& 0x0f).toNat = 2 := by omega
  rcases hcase with h | h | h
  · exact Or.inl (UInt8.toNat_inj.mp (by simpa [getCapability,Capability.none] using h))
  · exact Or.inr (Or.inl (UInt8.toNat_inj.mp (by simpa [getCapability,Capability.mutable] using h)))
  · exact Or.inr (Or.inr (UInt8.toNat_inj.mp (by simpa [getCapability,Capability.minting] using h)))
end OutputData
end BitfiniteCore
