import Mathlib.Data.Int.Order.Basic
import Mathlib.Tactic.NormNum

/-!
# Amounts and the ways a check can stop

Amounts are integers; `addAmount` stops with `overflow` where the machine addition would.
-/

namespace BitfiniteCore

/-- What `CValidationState::DoS` and `Invalid` record. -/
structure Rejection where
  nDoS : Nat
  chRejectCode : Nat
  strRejectReason : String
  corruptionPossible : Bool
deriving DecidableEq, Repr

/-- A computation of the node that does not return normally. -/
inductive Stop where
  | invalid (r : Rejection)
  | overflow
  | assertion (condition : String)
  | logicError (what : String)
  | runtimeError (what : String)
deriving DecidableEq, Repr

theorem except_bind_ok {ε : Type} {α β : Type*} {x : Except ε α} {f : α → Except ε β} {r : β} :
    x.bind f = .ok r ↔ ∃ a, x = .ok a ∧ f a = .ok r := by
  cases x with
  | error e => simp [Except.bind]
  | ok a => simp [Except.bind]

theorem except_map_ok {ε : Type} {α β : Type*} {x : Except ε α} {g : α → β} {r : β} :
    x.map g = .ok r ↔ ∃ y, x = .ok y ∧ g y = r := by
  cases x <;> simp [Except.map]

theorem bind_ne_overflow {α β : Type} {x : Except Stop α} {f : α → Except Stop β}
    (hx : x ≠ .error .overflow) (hf : ∀ a, x = .ok a → f a ≠ .error .overflow) :
    x.bind f ≠ .error .overflow := by
  cases x with
  | error e => simpa [Except.bind] using hx
  | ok a => exact hf a rfl

def rejectInvalid : Nat := 0x10

def dos {α : Type} (level code : Nat) (reason : String) : Except Stop α := .error (.invalid ⟨level,code,reason,false⟩)

@[simp] theorem dos_ne_overflow {α : Type} (level code : Nat) (reason : String) :
    (dos level code reason : Except Stop α) ≠ .error .overflow := by
  simp [dos]

def int64Min : Int := -2^63

def int64Max : Int := 2^63-1

def int64Range (v : Int) : Bool := decide (int64Min ≤ v) && decide (v ≤ int64Max)

def addAmount (a b : Int) : Except Stop Int :=
  if int64Range (a+b) then .ok (a+b) else .error .overflow

def coinUnit : Int := 100000000

def maxMoney : Int := 21000000*coinUnit

def moneyRange (nValue : Int) : Bool := decide (0 ≤ nValue) && decide (nValue ≤ maxMoney)

@[simp] theorem moneyRange_iff (v : Int) : moneyRange v = true ↔ 0 ≤ v ∧ v ≤ maxMoney := by
  simp [moneyRange]

@[simp] theorem int64Range_iff (v : Int) : int64Range v = true ↔ int64Min ≤ v ∧ v ≤ int64Max := by
  simp [int64Range]

theorem addAmount_ok {a b c : Int} (h : addAmount a b = .ok c) : c = a+b := by
  unfold addAmount at h
  split at h
  · exact (Except.ok.inj h).symm
  · cases h

theorem addAmount_eq {a b : Int} (hl : int64Min ≤ a+b) (hu : a+b ≤ int64Max) : addAmount a b = .ok (a+b) := by
  rw [addAmount,if_pos ((int64Range_iff _).mpr ⟨hl,hu⟩)]

theorem addAmount_money {a b : Int} (ha : moneyRange a = true) (hb : moneyRange b = true) :
    addAmount a b = .ok (a+b) := by
  rw [moneyRange_iff] at ha hb
  apply addAmount_eq
  · have : int64Min ≤ 0 := by norm_num [int64Min]
    omega
  · have : maxMoney+maxMoney ≤ int64Max := by norm_num [maxMoney,coinUnit,int64Max]
    omega

theorem addAmount_ne_overflow {a b : Int} (ha : moneyRange a = true) (hb : moneyRange b = true) :
    addAmount a b ≠ .error .overflow := by
  rw [addAmount_money ha hb]
  exact nofun
end BitfiniteCore
