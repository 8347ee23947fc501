import Mathlib.Data.List.Forall2
import Mathlib.Data.List.NodupEquivFin
import Mathlib.Order.Hom.Basic

/-! # Matching a list into another one in order -/

namespace SubsequenceMatch
open List

variable {S K : Type}

def greedy (valid : S → K → Bool) : List K → List S → Bool
  | _, [] => true
  | [], _::_ => false
  | k::ks, s::ss => if valid s k then greedy valid ks ss else greedy valid ks (s::ss)

def Matches (valid : S → K → Bool) (keys : List K) (items : List S) : Prop :=
  ∃ chosen, chosen.Sublist keys ∧ List.Forall₂ (fun s k => valid s k = true) items chosen

variable {valid : S → K → Bool} {keys : List K} {items : List S}

private theorem Matches.tail {k : K} {s : S} (h : Matches valid (k::keys) (s::items)) : Matches valid keys items := by
  obtain ⟨chosen,hsub,hall⟩ := h
  cases hall with
  | cons _ hrest => exact ⟨_,hsub.tail,hrest⟩

theorem greedy_iff (valid : S → K → Bool) (keys : List K) (items : List S) :
    greedy valid keys items = true ↔ Matches valid keys items := by
  fun_induction greedy valid keys items with
  | case1 keys => exact iff_of_true rfl ⟨[],nil_sublist _,.nil⟩
  | case2 s ss =>
    refine iff_of_false (by simp) ?_
    rintro ⟨chosen,hsub,hall⟩
    cases hall with
    | cons _ _ => cases hsub
  | case3 k ks s ss hv ih =>
    rw [ih]
    constructor
    · rintro ⟨chosen,hsub,hall⟩
      exact ⟨k::chosen,hsub.cons_cons k,.cons hv hall⟩
    · exact Matches.tail
  | case4 k ks s ss hv ih =>
    rw [ih]
    constructor
    · rintro ⟨chosen,hsub,hall⟩
      exact ⟨chosen,hsub.cons k,hall⟩
    · rintro ⟨chosen,hsub,hall⟩
      cases hall with
      | cons hs hrest =>
        cases hsub with
        | cons _ hsub => exact ⟨_,hsub,.cons hs hrest⟩
        | cons_cons _ _ => exact absurd hs hv

theorem greedy_of_length_lt (h : keys.length < items.length) : greedy valid keys items = false := by
  rw [← Bool.not_eq_true,greedy_iff]
  rintro ⟨chosen,hsub,hall⟩
  have hle := hsub.length_le
  rw [← hall.length_eq] at hle
  omega

theorem matches_reverse : Matches valid keys.reverse items.reverse ↔ Matches valid keys items := by
  constructor
  · rintro ⟨chosen,hsub,hall⟩
    refine ⟨chosen.reverse,by simpa using hsub.reverse,?_⟩
    rw [← forall₂_reverse_iff]
    simpa using hall
  · rintro ⟨chosen,hsub,hall⟩
    exact ⟨chosen.reverse,hsub.reverse,forall₂_reverse_iff.mpr hall⟩

theorem matches_iff_strictMono : Matches valid keys items ↔
    ∃ f : Fin items.length → Fin keys.length, StrictMono f ∧ ∀ i, valid (items.get i) (keys.get (f i)) = true := by
  constructor
  · rintro ⟨chosen,hsub,hall⟩
    obtain ⟨f,hf⟩ := sublist_iff_exists_fin_orderEmbedding_get_eq.mp hsub
    have hlen := hall.length_eq
    refine ⟨fun i => f (Fin.cast hlen i),fun i j hij => f.strictMono (by simpa using hij),fun i => ?_⟩
    rw [← hf]
    exact hall.get i.2 (hlen ▸ i.2)
  · rintro ⟨f,hmono,hvalid⟩
    refine ⟨List.ofFn fun i => keys.get (f i),?_,?_⟩
    · rw [sublist_iff_exists_fin_orderEmbedding_get_eq]
      refine ⟨(Fin.castOrderIso (length_ofFn ..)).toOrderEmbedding.trans
        (OrderEmbedding.ofStrictMono f hmono),fun i => ?_⟩
      rw [get_ofFn]
      rfl
    · rw [forall₂_iff_get]
      refine ⟨by simp,fun i h₁ h₂ => ?_⟩
      simpa using hvalid ⟨i,h₁⟩
end SubsequenceMatch
