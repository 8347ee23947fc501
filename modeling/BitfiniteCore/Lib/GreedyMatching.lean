import Mathlib.Algebra.BigOperators.Group.Finset.Basic

/-! # Greedy use of exact stock and wildcards -/

namespace GreedyMatching
open List

variable {C : Type} [DecidableEq C]

inductive Demand (C : Type) where
  | exact (c : C)
  | wild
  | never
deriving DecidableEq

def serve (stock : C → Nat) (wild : Nat) : List (Demand C) → Bool
  | [] => true
  | .exact c::ds =>
    if stock c > 0 then serve (Function.update stock c (stock c-1)) wild ds
    else if wild > 0 then serve stock (wild-1) ds
    else false
  | .wild::ds => if wild > 0 then serve stock (wild-1) ds else false
  | .never::_ => false

def exacts (ds : List (Demand C)) : List C :=
  ds.filterMap fun d => match d with
    | .exact c => some c
    | _ => none

def shortfall (stock : C → Nat) (l : List C) : Nat := ∑ c ∈ l.toFinset, (l.count c-stock c)

private theorem shortfall_superset (stock : C → Nat) (l : List C) {F : Finset C}
    (hF : l.toFinset ⊆ F) : shortfall stock l = ∑ c ∈ F, (l.count c-stock c) := by
  apply Finset.sum_subset hF
  intro c _ hc
  rw [mem_toFinset] at hc
  rw [count_eq_zero_of_not_mem hc,Nat.zero_sub]

private theorem shortfall_cons_stocked {stock : C → Nat} {c : C} (hc : stock c > 0) (l : List C) :
    shortfall stock (c::l) = shortfall (Function.update stock c (stock c-1)) l := by
  rw [shortfall_superset (Function.update stock c (stock c-1)) l
    (F := (c::l).toFinset) (by simp [Finset.subset_insert])]
  apply Finset.sum_congr rfl
  intro d _
  by_cases h : d = c
  · subst h
    simp only [count_cons_self,Function.update_self]
    omega
  · rw [count_cons_of_ne (Ne.symm h),Function.update_of_ne h]

private theorem shortfall_cons_empty {stock : C → Nat} {c : C} (hc : stock c = 0) (l : List C) :
    shortfall stock (c::l) = 1+shortfall stock l := by
  have hmem : c ∈ (c::l).toFinset := by simp
  rw [shortfall_superset stock l (F := (c::l).toFinset) (by simp [Finset.subset_insert]),shortfall,
    ← Finset.add_sum_erase _ _ hmem,← Finset.add_sum_erase _ _ hmem,count_cons_self,hc]
  have hrest : ∑ d ∈ (c::l).toFinset.erase c, ((c::l).count d-stock d) =
      ∑ d ∈ (c::l).toFinset.erase c, (l.count d-stock d) := by
    apply Finset.sum_congr rfl
    intro d hd
    rw [count_cons_of_ne (Finset.ne_of_mem_erase hd).symm]
  rw [hrest]
  omega

theorem serve_iff (ds : List (Demand C)) (stock : C → Nat) (wild : Nat) : serve stock wild ds = true ↔
      Demand.never ∉ ds ∧ ds.count .wild+shortfall stock (exacts ds) ≤ wild := by
  induction ds generalizing stock wild with
  | nil => simp [serve,exacts,shortfall]
  | cons d ds ih =>
    cases d with
    | exact c =>
      have hex : exacts (.exact c::ds) = c::exacts ds := rfl
      have hcount : (Demand.exact c::ds).count .wild = ds.count .wild := by
        simp
      rw [serve,hex,hcount]
      by_cases hc : stock c > 0
      · rw [if_pos hc,ih,shortfall_cons_stocked hc]
        simp
      · rw [if_neg hc,shortfall_cons_empty (by omega)]
        split
        · rw [ih]
          simp only [mem_cons,reduceCtorEq,false_or]
          refine and_congr_right fun _ => ?_
          omega
        · simp only [mem_cons,reduceCtorEq,false_or,Bool.false_eq_true,false_iff,not_and]
          omega
    | wild =>
      have hex : exacts (.wild::ds) = exacts ds := rfl
      rw [serve,hex,count_cons_self]
      split
      · rw [ih]
        simp only [mem_cons,reduceCtorEq,false_or]
        refine and_congr_right fun _ => ?_
        omega
      · simp only [mem_cons,reduceCtorEq,false_or,Bool.false_eq_true,false_iff,not_and]
        omega
    | never => simp [serve]
end GreedyMatching
