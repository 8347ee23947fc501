import Mathlib.Order.Defs.Unbundled
import Mathlib.Data.List.Basic

/-! # The best element of a list -/

namespace Maximal

variable {α : Type*} (worse : α → α → Bool)

def best : List α → Option α
  | [] => none
  | a::l =>
    match best l with
    | none => some a
    | some b => if worse b a then some a else some b

theorem best_eq_none {l : List α} : best worse l = none ↔ l = [] := by
  cases l with
  | nil => simp [best]
  | cons a l =>
    rw [best]
    split
    · simp
    · split <;> simp

variable {worse}

theorem best_spec (htrans : ∀ {a b c}, worse a b = false → worse b c = false → worse a c = false)
    (htotal : ∀ {a b}, worse a b = true → worse b a = false) (hirrefl : ∀ a, worse a a = false)
    {l : List α} {a : α} (h : best worse l = some a) : a ∈ l ∧ ∀ b ∈ l, worse a b = false := by
  induction l generalizing a with
  | nil => cases h
  | cons c l ih =>
    rw [best] at h
    split at h
    · rename_i hnone
      obtain rfl := (best_eq_none worse).mp hnone
      cases h
      simp [hirrefl]
    · rename_i b hb
      obtain ⟨hmem,hbest⟩ := ih hb
      split at h
      · rename_i hw
        cases h
        refine ⟨List.mem_cons_self,List.forall_mem_cons.mpr ⟨hirrefl c,fun x hx => ?_⟩⟩
        exact htrans (htotal hw) (hbest x hx)
      · rename_i hw
        cases h
        exact ⟨List.mem_cons_of_mem c hmem,List.forall_mem_cons.mpr ⟨by simpa using hw,hbest⟩⟩
end Maximal
