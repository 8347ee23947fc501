import BitfiniteCore.Primitives.Transaction

/-!
# Reading a script

A position in a script is the list of the bytes that are left.
-/

namespace BitfiniteCore

def opPushData1 : UInt8 := 0x4c

def opPushData2 : UInt8 := 0x4d

def opPushData4 : UInt8 := 0x4e

def opCodeSeparator : UInt8 := 0xab

def pushSize (opcode : UInt8) (pc : Bytes) : Option Nat × Bytes :=
  if opcode < opPushData1 then (some opcode.toNat,pc)
  else
    let width := if opcode = opPushData1 then 1 else if opcode = opPushData2 then 2 else 4
    if pc.length < width then (none,pc) else (some (leNat (pc.take width)),pc.drop width)

def getScriptOp (pc : Bytes) : Option (UInt8 × Bytes) × Bytes :=
  match pc with
  | [] => (none,[])
  | opcode::pc =>
    if opcode ≤ opPushData4 then
      match pushSize opcode pc with
      | (none,pc) => (none,pc)
      | (some nSize,pc) =>
        if pc.length < nSize then (none,pc) else (some (opcode,pc.take nSize),pc.drop nSize)
    else (some (opcode,[]),pc)

theorem pushSize_length (opcode : UInt8) (pc : Bytes) : (pushSize opcode pc).2.length ≤ pc.length := by
  unfold pushSize
  dsimp only
  split_ifs <;> simp

theorem getScriptOp_length {pc rest : Bytes} {r : Option (UInt8 × Bytes)} (h : getScriptOp pc = (r,rest))
    (hpc : pc ≠ []) : rest.length < pc.length := by
  cases pc with
  | nil => exact absurd rfl hpc
  | cons opcode pc =>
    have hsize := pushSize_length opcode pc
    dsimp only [getScriptOp] at h
    split at h
    · split at h
      · rename_i p hp
        obtain ⟨-,rfl⟩ := Prod.mk.inj h
        rw [hp] at hsize
        simpa using Nat.lt_succ_of_le hsize
      · rename_i nSize p hp
        rw [hp] at hsize
        dsimp only at hsize
        split at h
        · obtain ⟨-,rfl⟩ := Prod.mk.inj h
          simpa using Nat.lt_succ_of_le hsize
        · obtain ⟨-,rfl⟩ := Prod.mk.inj h
          rw [List.length_drop,List.length_cons]
          omega
    · obtain ⟨-,rfl⟩ := Prod.mk.inj h
      simp
end BitfiniteCore
