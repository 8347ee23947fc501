import Mathlib.Data.Fintype.Order
import Mathlib.Logic.Relation
import Mathlib.Order.WellFounded

/-! # Topological orders of a finite list -/

namespace TopologicalOrder
open List

variable {α : Type}

def Within (l : List α) (r : α → α → Prop) (a b : α) : Prop := a ∈ l ∧ b ∈ l ∧ r a b

def Acyclic (l : List α) (r : α → α → Prop) : Prop := ∀ a, ¬Relation.TransGen (Within l r) a a

def Topological (r : α → α → Prop) (l : List α) : Prop := l.Pairwise fun a b => ¬r b a

theorem Acyclic.mono {l l' : List α} {r : α → α → Prop} (h : Acyclic l r) (hl : ∀ a ∈ l', a ∈ l) : Acyclic l' r := by
  intro a ha
  exact h a (Relation.TransGen.mono (fun x y hxy => ⟨hl x hxy.1,hl y hxy.2.1,hxy.2.2⟩) _ _ ha)

theorem Acyclic.exists_source {l : List α} {r : α → α → Prop} (h : Acyclic l r) (hl : l ≠ []) :
    ∃ s ∈ l, ∀ b ∈ l, ¬r b s := by
  have hwf : WellFounded fun a b : {a // a ∈ l} => Relation.TransGen (Within l r) a.1 b.1 := by
    have : Finite {a // a ∈ l} := finite_toSet l
    have : Std.Irrefl fun a b : {a // a ∈ l} => Relation.TransGen (Within l r) a.1 b.1 :=
      ⟨fun a => h a.1⟩
    exact Finite.wellFounded_of_trans_of_irrefl _
  obtain ⟨a,ha⟩ := exists_mem_of_ne_nil l hl
  obtain ⟨s,-,hs⟩ := hwf.has_min Set.univ ⟨⟨a,ha⟩,trivial⟩
  exact ⟨s.1,s.2,fun b hb hr => hs ⟨b,hb⟩ trivial (.single ⟨hb,s.2,hr⟩)⟩

theorem Acyclic.exists_topological {r : α → α → Prop} (l : List α) (h : Acyclic l r) :
    ∃ σ : List α, σ.Perm l ∧ Topological r σ := by
  classical
  induction hn : l.length generalizing l with
  | zero =>
    obtain rfl := length_eq_zero_iff.mp hn
    exact ⟨[],List.Perm.refl _,List.Pairwise.nil⟩
  | succ n ih =>
    obtain ⟨s,hs,hmin⟩ := h.exists_source (by rintro rfl; cases hn)
    obtain ⟨σ,hperm,htop⟩ := ih (l.erase s) (h.mono fun a ha => mem_of_mem_erase ha)
      (by rw [length_erase_of_mem hs]; omega)
    refine ⟨s::σ,(hperm.cons s).trans (perm_cons_erase hs).symm,pairwise_cons.mpr ⟨?_,htop⟩⟩
    exact fun b hb => hmin b (mem_of_mem_erase (hperm.mem_iff.mp hb))

theorem Acyclic.induction {r : α → α → Prop} {l : List α} (h : Acyclic l r) {P : α → Prop}
    (step : ∀ a ∈ l, (∀ b ∈ l, r b a → P b) → P a) : ∀ a ∈ l, P a := by
  classical
  by_contra hne
  -- a bad member that no bad member precedes breaks the step
  have hsub : ∀ a ∈ l.filter fun a => ¬P a, a ∈ l := fun a ha => (mem_filter.mp ha).1
  have hbad : l.filter (fun a => ¬P a) ≠ [] := by
    push Not at hne
    obtain ⟨a,ha,hP⟩ := hne
    exact ne_nil_of_mem (mem_filter.mpr ⟨ha,by simpa using hP⟩)
  obtain ⟨s,hs,hmin⟩ := (h.mono hsub).exists_source hbad
  have hPs : ¬P s := by simpa using (mem_filter.mp hs).2
  apply hPs
  apply step s (hsub s hs)
  intro b hb hr
  by_contra hPb
  exact hmin b (mem_filter.mpr ⟨hb,by simpa using hPb⟩) hr

theorem acyclic_of_rank {r : α → α → Prop} (l : List α) (rank : α → Nat)
    (h : ∀ a ∈ l, ∀ b ∈ l, r a b → rank a < rank b) : Acyclic l r := by
  have hlt : ∀ a b, Relation.TransGen (Within l r) a b → rank a < rank b := by
    intro a b hab
    induction hab with
    | single hab => exact h _ hab.1 _ hab.2.1 hab.2.2
    | tail _ hbc ih => exact ih.trans (h _ hbc.1 _ hbc.2.1 hbc.2.2)
  exact fun a ha => (hlt a a ha).ne rfl
end TopologicalOrder
