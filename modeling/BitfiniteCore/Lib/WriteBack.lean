import Mathlib.Logic.Function.Basic

/-!
# Write-back lines over a partial map

A clean line repeats the backing answer; a line may be fresh only where the backing map has nothing.
-/

namespace WriteBack

variable {K V : Type}

structure Line (V : Type) where
  value : Option V
  dirty : Bool
  fresh : Bool

def answer (line : Option (Line V)) (base : Option V) : Option V :=
  match line with
  | some l => l.value
  | none => base

structure Sound (base : Option V) (l : Line V) : Prop where
  clean : l.dirty = false → l.value = base
  fresh : l.fresh = true → base = none

def LayerSound (lines : K → Option (Line V)) (base : K → Option V) : Prop :=
  ∀ x l, lines x = some l → Sound (base x) l

def layer (lines : K → Option (Line V)) (base : K → Option V) (x : K) : Option V := answer (lines x) (base x)

@[simp] theorem answer_some (l : Line V) (base : Option V) : answer (some l) base = l.value := rfl
@[simp] theorem answer_none (base : Option V) : answer none base = base := rfl

theorem Sound.of_dirty (base v : Option V) : Sound base ⟨v,true,false⟩ where
  clean := fun h => absurd h (by simp)
  fresh := fun h => absurd h (by simp)

theorem Sound.overwrite {base : Option V} {l : Line V} (h : Sound base l) (v : Option V) :
    Sound base ⟨v,true,l.fresh⟩ where
  clean := fun h => absurd h (by simp)
  fresh := h.fresh

theorem Sound.base_none {base : Option V} {l : Line V} (h : Sound base l) (hv : l.value = none)
    (hf : l.dirty = false ∨ l.fresh = true) : base = none := by
  rcases hf with hd | hf
  · rw [← h.clean hd,hv]
  · exact h.fresh hf

section Update

variable [DecidableEq K] {lines : K → Option (Line V)} {base : K → Option V}

theorem layer_update (lines : K → Option (Line V)) (base : K → Option V) (x : K) (o : Option (Line V)) :
    layer (Function.update lines x o) base = Function.update (layer lines base) x (answer o (base x)) := by
  funext y
  by_cases h : y = x
  · subst h
    simp [layer]
  · simp [layer,h]

theorem LayerSound.update (h : LayerSound lines base) {x : K} {o : Option (Line V)}
    (ho : ∀ l, o = some l → Sound (base x) l) : LayerSound (Function.update lines x o) base := by
  intro y l hl
  by_cases hy : y = x
  · subst hy
    exact ho l (by simpa using hl)
  · exact h y l (by simpa [hy] using hl)
end Update

def merge (us : Option (Line V)) (l : Line V) : Option (Line V) :=
  if !l.dirty then us
  else match us with
    | none => if l.fresh && l.value.isNone then none else some ⟨l.value,true,l.fresh⟩
    | some u => if u.fresh && l.value.isNone then none else some ⟨l.value,true,u.fresh⟩

/-- The upper line claims to be fresh over a value that the lower layer has. -/
def Misapplied (us : Option (Line V)) (l : Line V) : Prop :=
  l.dirty = true ∧ l.fresh = true ∧ ∃ u, us = some u ∧ u.value.isSome = true

section Merge

variable {base : Option V} {us : Option (Line V)} {l : Line V}

theorem not_misapplied (hl : Sound (answer us base) l) : ¬Misapplied us l := by
  rintro ⟨-,hf,u,rfl,hv⟩
  rw [answer_some] at hl
  rw [hl.fresh hf] at hv
  cases hv

theorem merge_answer (hus : ∀ u, us = some u → Sound base u) (hl : Sound (answer us base) l) :
    answer (merge us l) base = l.value := by
  unfold merge
  split
  · rename_i hd
    exact (hl.clean (by simpa using hd)).symm
  cases us with
  | none =>
    dsimp only
    split
    · rename_i h
      simp only [Bool.and_eq_true,Option.isNone_iff_eq_none] at h
      rw [h.2]
      exact hl.fresh h.1
    · rfl
  | some u =>
    dsimp only
    split
    · rename_i h
      simp only [Bool.and_eq_true,Option.isNone_iff_eq_none] at h
      rw [h.2]
      exact (hus u rfl).fresh h.1
    · rfl

theorem merge_sound (hus : ∀ u, us = some u → Sound base u) (hl : Sound (answer us base) l) :
    ∀ u, merge us l = some u → Sound base u := by
  intro u' h
  unfold merge at h
  split at h
  · exact hus u' h
  cases us with
  | none =>
    dsimp only at h
    split at h
    · cases h
    · cases h
      exact ⟨fun h => absurd h (by simp),hl.fresh⟩
  | some u =>
    dsimp only at h
    split at h
    · cases h
    · cases h
      exact (hus u rfl).overwrite _
end Merge
end WriteBack
