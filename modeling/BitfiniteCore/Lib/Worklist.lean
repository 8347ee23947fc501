import Mathlib.Data.List.Perm.Subperm
import Mathlib.Data.List.Dedup

/-! # Worklists -/

namespace BitfiniteCore
open List

section Worklist

variable {α : Type} [DecidableEq α] (next : α → List α)

def worklist : Nat → List α → List α → List α
  | 0, _, done => done
  | _+1, [], done => done
  | fuel+1, a::stage, done =>
    worklist fuel (stage++(next a).filter fun b => decide (b ∉ a::done ∧ b ∉ stage)) (a::done)

/-- What was expanded leads to nothing but what was expanded or still waits. -/
structure WorklistState (nodes stage done : List α) : Prop where
  stage_nodup : stage.Nodup
  done_nodup : done.Nodup
  disjoint : stage.Disjoint done
  stage_subset : stage ⊆ nodes
  done_subset : done ⊆ nodes
  closed : ∀ a ∈ done, ∀ b ∈ next a, b ∈ done ∨ b ∈ stage

variable {next} {nodes stage done : List α}

theorem WorklistState.advance {a : α} {stage' : List α} (h : WorklistState next nodes (a::stage) done)
    (hnext : next a ⊆ nodes) (hnodup : stage'.Nodup)
    (hmem : ∀ b, b ∈ stage' ↔ b ∈ stage ∨ b ∈ next a ∧ b ∉ a::done) : WorklistState next nodes stage' (a::done) := by
  have ha := nodup_cons.mp h.stage_nodup
  have hdis := disjoint_cons_left.mp h.disjoint
  have hsub := cons_subset.mp h.stage_subset
  refine ⟨hnodup,nodup_cons.mpr ⟨hdis.1,h.done_nodup⟩,?_,?_,cons_subset.mpr ⟨hsub.1,h.done_subset⟩,?_⟩
  · intro b hb
    obtain hs | hn := (hmem b).mp hb
    · exact fun hd => (mem_cons.mp hd).elim (fun heq => ha.1 (heq ▸ hs)) (hdis.2 hs)
    · exact hn.2
  · intro b hb
    obtain hs | hn := (hmem b).mp hb
    · exact hsub.2 hs
    · exact hnext hn.1
  · intro c hc b hb
    by_cases hdone : b ∈ a::done
    · exact .inl hdone
    · rw [hmem]
      obtain rfl | hc := mem_cons.mp hc
      · exact .inr (.inr ⟨hb,hdone⟩)
      · obtain hd | hs := h.closed c hc b hb
        · exact absurd (mem_cons_of_mem a hd) hdone
        · obtain rfl | hs := mem_cons.mp hs
          · exact absurd mem_cons_self hdone
          · exact .inr (.inl hs)

theorem WorklistState.step {a : α} (h : WorklistState next nodes (a::stage) done) (hnodup : (next a).Nodup)
    (hnext : next a ⊆ nodes) :
    WorklistState next nodes (stage++(next a).filter fun b => decide (b ∉ a::done ∧ b ∉ stage)) (a::done) := by
  apply h.advance hnext
  · rw [nodup_append']
    refine ⟨(nodup_cons.mp h.stage_nodup).2,hnodup.filter _,fun b hb hf => ?_⟩
    exact (of_decide_eq_true (mem_filter.mp hf).2).2 hb
  · intro b
    by_cases hs : b ∈ stage <;> simp [hs]

theorem worklist_closed (hnodup : ∀ a, (next a).Nodup) (hnext : ∀ a, next a ⊆ nodes) (fuel : Nat)
    (h : WorklistState next nodes stage done) (hfuel : nodes.length < fuel+done.length) :
    WorklistState next nodes [] (worklist next fuel stage done) ∧ stage ⊆ worklist next fuel stage done ∧
      done ⊆ worklist next fuel stage done := by
  induction fuel generalizing stage done with
  | zero =>
    have hle := (h.done_nodup.subperm h.done_subset).length_le
    omega
  | succ fuel ih =>
    cases stage with
    | nil => exact ⟨h,nil_subset _,List.Subset.refl _⟩
    | cons a stage =>
      obtain ⟨hstate,hs,hd⟩ := ih (h.step (hnodup a) (hnext a)) (by rw [length_cons]; omega)
      rw [append_subset] at hs
      rw [cons_subset] at hd
      exact ⟨hstate,cons_subset.mpr ⟨hd.1,hs.1⟩,hd.2⟩
end Worklist
end BitfiniteCore
