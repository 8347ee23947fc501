import Mathlib.Data.List.Perm.Basic

/-! # Merging partial functions, the first one wins -/

namespace PartialMerge

variable {K : Type} {V : K → Type}

def Agree (f g : (k : K) → Option (V k)) : Prop := ∀ k v w, f k = some v → g k = some w → v = w

def union (f g : (k : K) → Option (V k)) : (k : K) → Option (V k) := fun k => (f k).or (g k)

variable {f g h : (k : K) → Option (V k)}

theorem Agree.symm (a : Agree f g) : Agree g f := fun k v w hv hw => (a k w v hw hv).symm

theorem Agree.refl (f : (k : K) → Option (V k)) : Agree f f := by
  intro k v w hv hw
  rw [hv] at hw
  exact Option.some.inj hw

theorem union_assoc (f g h : (k : K) → Option (V k)) : union (union f g) h = union f (union g h) := by
  funext k
  exact Option.or_assoc

theorem union_self (f : (k : K) → Option (V k)) : union f f = f := by
  funext k
  exact Option.or_self

theorem union_comm (a : Agree f g) : union f g = union g f := by
  funext k
  simp only [union]
  cases hf : f k with
  | none => simp
  | some v =>
    cases hg : g k with
    | none => rfl
    | some w => rw [a k v w hf hg]

theorem union_eq_some (a : Agree f g) {k : K} {v : V k} : union f g k = some v ↔ f k = some v ∨ g k = some v := by
  constructor
  · intro hu
    exact (Option.or_eq_some_iff.mp hu).imp_right And.right
  · rintro (hf | hg)
    · simp [union,hf]
    · rw [union_comm a]
      simp [union,hg]

def unionAll : List ((k : K) → Option (V k)) → (k : K) → Option (V k)
  | [] => fun _ => none
  | f::l => union f (unionAll l)

theorem foldl_union (l : List ((k : K) → Option (V k))) (f : (k : K) → Option (V k)) :
    l.foldl union f = union f (unionAll l) := by
  induction l generalizing f with
  | nil =>
    funext k
    simp [union,unionAll]
  | cons g l ih => rw [List.foldl_cons,ih,unionAll,union_assoc]

theorem unionAll_perm {l l' : List ((k : K) → Option (V k))} (hp : l.Perm l') (ha : l.Pairwise Agree) :
    unionAll l = unionAll l' := by
  induction hp with
  | nil => rfl
  | cons f _ ih => rw [unionAll,unionAll,ih ha.of_cons]
  | swap f g l =>
    have hgf : Agree g f := List.rel_of_pairwise_cons ha (List.mem_cons_self ..)
    rw [unionAll,unionAll,unionAll,unionAll,← union_assoc,union_comm hgf,union_assoc]
  | trans hp _ ih₁ ih₂ => rw [ih₁ ha,ih₂ (hp.pairwise ha fun a => a.symm)]
end PartialMerge
