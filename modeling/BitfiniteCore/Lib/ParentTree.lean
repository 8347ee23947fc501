import Mathlib.Logic.Relation
import Mathlib.Data.List.TakeWhile

/-! # Trees given by parent pointers -/

structure ParentTree (α : Type*) where
  parent : α → Option α
  height : α → Nat
  height_parent : ∀ {a p}, parent a = some p → height a = height p+1
  height_root : ∀ {a}, parent a = none → height a = 0

namespace ParentTree
open Relation List

variable {α : Type*} (T : ParentTree α) {a b c d p : α}

/-- `a` is `b` or above it. -/
def Anc (a b : α) : Prop := ReflTransGen (fun x y => T.parent y = some x) a b

variable {T}

theorem Anc.refl (a : α) : T.Anc a a := ReflTransGen.refl

theorem Anc.trans (h : T.Anc a b) (h' : T.Anc b c) : T.Anc a c := ReflTransGen.trans h h'

theorem Anc.of_parent (h : T.parent b = some p) : T.Anc p b := ReflTransGen.single h

theorem anc_iff : T.Anc a b ↔ a = b ∨ ∃ p, T.parent b = some p ∧ T.Anc a p := by
  constructor
  · intro h
    rcases ReflTransGen.cases_tail h with h | ⟨p,h,hp⟩
    · exact .inl h.symm
    · exact .inr ⟨p,hp,h⟩
  · rintro (rfl | ⟨p,hp,h⟩)
    · exact .refl a
    · exact h.trans (.of_parent hp)

theorem Anc.height_le (h : T.Anc a b) : T.height a ≤ T.height b := by
  induction h with
  | refl => exact le_rfl
  | tail _ hp ih =>
    rw [T.height_parent hp]
    omega

theorem Anc.eq_of_height_le (h : T.Anc a b) (hh : T.height b ≤ T.height a) : a = b := by
  rcases anc_iff.mp h with rfl | ⟨p,hp,hap⟩
  · rfl
  · have h1 := hap.height_le
    have h2 := T.height_parent hp
    omega

theorem Anc.antisymm (h : T.Anc a b) (h' : T.Anc b a) : a = b := h.eq_of_height_le h'.height_le

theorem Anc.parent_of_ne (h : T.Anc a b) (hne : a ≠ b) : ∃ p, T.parent b = some p ∧ T.Anc a p :=
  (anc_iff.mp h).resolve_left hne

theorem Anc.comparable (ha : T.Anc a c) (hb : T.Anc b c) : T.Anc a b ∨ T.Anc b a := by
  have h := ReflTransGen.total_of_right_unique
    (r := fun x y => T.parent x = some y) (fun x y z hy hz => Option.some.inj (hy.symm.trans hz))
    (reflTransGen_swap.mpr ha) (reflTransGen_swap.mpr hb)
  exact h.symm.imp reflTransGen_swap.mp reflTransGen_swap.mp

theorem Anc.of_height_le (ha : T.Anc a c) (hb : T.Anc b c) (hh : T.height a ≤ T.height b) : T.Anc a b := by
  rcases ha.comparable hb with h | h
  · exact h
  · exact (h.eq_of_height_le hh) ▸ .refl b

theorem Anc.root (h : T.Anc a b) (hb : T.parent b = none) : a = b := by
  rcases anc_iff.mp h with rfl | ⟨p,hp,-⟩
  · rfl
  · rw [hb] at hp
    cases hp

variable (T)

/-- Nodes met walking up at most `n` parents. -/
def lineageFrom : Nat → α → List α
  | 0, a => [a]
  | n+1, a => a::((T.parent a).elim [] (lineageFrom n))

def lineage (a : α) : List α := T.lineageFrom (T.height a) a

theorem lineage_eq (a : α) : T.lineage a = a::(T.parent a).elim [] T.lineage := by
  cases hp : T.parent a with
  | none =>
    rw [lineage,T.height_root hp]
    rfl
  | some p =>
    rw [lineage,T.height_parent hp,lineageFrom,hp]
    rfl

theorem lineage_root (h : T.parent a = none) : T.lineage a = [a] := by
  rw [lineage_eq,h]
  rfl

theorem lineage_parent (h : T.parent a = some p) : T.lineage a = a::T.lineage p := by
  rw [lineage_eq,h]
  rfl

theorem induction_up {motive : α → Prop} (root : ∀ a, T.parent a = none → motive a)
    (child : ∀ a p, T.parent a = some p → motive p → motive a) (a : α) : motive a := by
  generalize hn : T.height a = n
  induction n generalizing a with
  | zero =>
    apply root
    by_contra hp
    obtain ⟨p,hp⟩ := Option.ne_none_iff_exists'.mp hp
    have := T.height_parent hp
    omega
  | succ n ih =>
    cases hp : T.parent a with
    | none => exact root a hp
    | some p =>
      have := T.height_parent hp
      exact child a p hp (ih p (by omega))

variable {T}

theorem mem_lineage : a ∈ T.lineage b ↔ T.Anc a b := by
  induction b using T.induction_up with
  | root b hb =>
    rw [T.lineage_root hb,mem_singleton]
    exact ⟨fun h => h ▸ .refl a,fun h => h.root hb⟩
  | child b p hp ih => rw [T.lineage_parent hp,mem_cons,ih,anc_iff (b := b),hp]; simp

theorem find_lineage {P : α → Bool} (h : (T.lineage a).find? P = some c) :
    T.Anc c a ∧ P c = true ∧ ∀ x, T.Anc x a → P x = true → T.Anc x c := by
  induction a using T.induction_up with
  | root a ha =>
    rw [T.lineage_root ha] at h
    obtain ⟨hP,rfl⟩ : P a = true ∧ a = c := by simpa using h
    exact ⟨.refl a,hP,fun x hx _ => hx⟩
  | child a p hp ih =>
    rw [T.lineage_parent hp,find?_cons] at h
    cases hP : P a with
    | true =>
      rw [hP] at h
      obtain rfl := Option.some.inj h
      exact ⟨.refl a,hP,fun x hx _ => hx⟩
    | false =>
      rw [hP] at h
      obtain ⟨hc,hPc,hmax⟩ := ih h
      refine ⟨hc.trans (.of_parent hp),hPc,fun x hx hPx => hmax x ?_ hPx⟩
      obtain ⟨q,hq,hxq⟩ := hx.parent_of_ne (by rintro rfl; simp [hP] at hPx)
      rw [hp] at hq
      exact Option.some.inj hq ▸ hxq

variable (T)

def getAncestor (a : α) (height : Nat) : Option α := (T.lineage a).find? fun x => T.height x == height

variable {T}

theorem getAncestor_eq_some {h : Nat} : T.getAncestor b h = some a ↔ T.Anc a b ∧ T.height a = h := by
  constructor
  · intro hg
    exact ⟨mem_lineage.mp (mem_of_find?_eq_some hg),by simpa using find?_some hg⟩
  · rintro ⟨ha,hh⟩
    cases hg : T.getAncestor b h with
    | none => exact absurd hh (by simpa using find?_eq_none.mp hg a (mem_lineage.mpr ha))
    | some c =>
      have hc := mem_lineage.mp (mem_of_find?_eq_some hg)
      have hch : T.height c = h := by simpa using find?_some hg
      congr 1
      exact (hc.of_height_le ha (by omega)).eq_of_height_le (by omega)

theorem exists_getAncestor {h : Nat} (hh : h ≤ T.height b) :
    ∃ a, T.getAncestor b h = some a ∧ T.Anc a b ∧ T.height a = h := by
  suffices ∃ a, T.Anc a b ∧ T.height a = h by
    obtain ⟨a,ha⟩ := this
    exact ⟨a,getAncestor_eq_some.mpr ha,ha⟩
  induction b using T.induction_up with
  | root b hb => exact ⟨b,.refl b,by rw [T.height_root hb] at hh ⊢; omega⟩
  | child b p hp ih =>
    rcases Nat.lt_or_ge (T.height p) h with hlt | hle
    · exact ⟨b,.refl b,by have := T.height_parent hp; omega⟩
    · obtain ⟨a,ha,hah⟩ := ih hle
      exact ⟨a,ha.trans (.of_parent hp),hah⟩

theorem getAncestor_anc : T.getAncestor b (T.height a) = some a ↔ T.Anc a b := by
  rw [getAncestor_eq_some]
  exact and_iff_left rfl

theorem getAncestor_of_anc (T : ParentTree α) {k : Nat} (hab : T.Anc a b) (hk : k ≤ T.height a) :
    T.getAncestor b k = T.getAncestor a k := by
  obtain ⟨c,hc,hca,hch⟩ := exists_getAncestor hk
  rw [hc]
  exact getAncestor_eq_some.mpr ⟨hca.trans hab,hch⟩

theorem common_parent (T : ParentTree α) {pa pb : α} (hne : a ≠ b) (hh : T.height a = T.height b)
    (ha : T.parent a = some pa) (hb : T.parent b = some pb) (hda : T.Anc d a) (hdb : T.Anc d b) :
    T.Anc d pa ∧ T.Anc d pb := by
  have hd : ∀ {u v}, T.Anc d u → T.Anc d v → T.height u = T.height v → u ≠ v → d ≠ u := by
    rintro u v _ hv huv huv' rfl
    exact huv' (hv.eq_of_height_le huv.ge)
  obtain ⟨p,hp,hdp⟩ := hda.parent_of_ne (hd hda hdb hh hne)
  obtain ⟨q,hq,hdq⟩ := hdb.parent_of_ne (hd hdb hda hh.symm hne.symm)
  rw [ha] at hp
  rw [hb] at hq
  exact ⟨Option.some.inj hp ▸ hdp,Option.some.inj hq ▸ hdq⟩

theorem common_skip (T : ParentTree α) {qa qb : α} (hne : qa ≠ qb) (hh : T.height qa = T.height qb)
    (ha : T.Anc qa a) (hb : T.Anc qb b) (hda : T.Anc d a) (hdb : T.Anc d b) : T.Anc d qa ∧ T.Anc d qb := by
  rcases Nat.lt_or_ge (T.height d) (T.height qa) with hlt | hge
  · exact ⟨hda.of_height_le ha hlt.le,hdb.of_height_le hb (by omega)⟩
  · have h1 := ha.of_height_le hda hge
    have h2 := hb.of_height_le hdb (by omega)
    exact absurd ((h1.of_height_le h2 hh.le).eq_of_height_le hh.ge) hne

section Decidable

variable [DecidableEq α]

instance : DecidableRel T.Anc := fun _ _ => decidable_of_iff _ mem_lineage

variable (T)

def lastCommonAncestor (a b : α) : Option α := (T.lineage a).find? fun x => T.Anc x b

variable {T}

theorem lastCommonAncestor_eq_some : T.lastCommonAncestor a b = some c ↔
    T.Anc c a ∧ T.Anc c b ∧ ∀ d, T.Anc d a → T.Anc d b → T.Anc d c := by
  constructor
  · intro h
    obtain ⟨h1,h2,h3⟩ := find_lineage h
    exact ⟨h1,by simpa using h2,fun d ha hb => h3 d ha (by simpa using hb)⟩
  · rintro ⟨h1,h2,h3⟩
    cases h : T.lastCommonAncestor a b with
    | none => exact absurd h2 (by simpa using find?_eq_none.mp h c (mem_lineage.mpr h1))
    | some d =>
      obtain ⟨d1,d2,d3⟩ := find_lineage h
      have hcd := d3 c h1 (by simpa using h2)
      exact congrArg some ((h3 d d1 (by simpa using d2)).antisymm hcd)

variable (T)

/-- The nodes from `b` up to but without `a`. -/
def path (a b : α) : List α := (T.lineage b).takeWhile fun x => x ≠ a

variable {T}

theorem path_self (a : α) : T.path a a = [] := by
  rw [path,T.lineage_eq]
  exact takeWhile_cons_of_neg (by simp)

theorem path_parent (hp : T.parent b = some p) (hne : b ≠ a) : T.path a b = b::T.path a p := by
  rw [path,T.lineage_parent hp]
  exact takeWhile_cons_of_pos (by simp [hne])

theorem mem_path (hx : c ∈ T.path a b) : T.Anc c b ∧ c ≠ a := by
  have hx' := mem_takeWhile_imp hx
  exact ⟨mem_lineage.mp (takeWhile_subset _ hx),by simpa using hx'⟩

theorem path_pairwise (T : ParentTree α) (a b : α) : (T.path a b).Pairwise fun x y => T.Anc y x := by
  have hlineage : (T.lineage b).Pairwise fun x y => T.Anc y x := by
    induction b using T.induction_up with
    | root b hb =>
      rw [T.lineage_root hb]
      exact pairwise_singleton _ _
    | child b p hp ih =>
      rw [T.lineage_parent hp]
      exact pairwise_cons.mpr ⟨fun x hx => (mem_lineage.mp hx).trans (.of_parent hp),ih⟩
  exact hlineage.sublist (takeWhile_sublist _)

theorem path_head {before after : List α} (hpath : T.path a b = before++c::after) : b = c ∨ b ∈ before := by
  rw [path,T.lineage_eq,takeWhile_cons] at hpath
  split_ifs at hpath
  · cases before with
    | nil => exact .inl (List.cons.inj hpath).1
    | cons y before =>
      right
      rw [(List.cons.inj hpath).1]
      exact mem_cons_self
  · cases before with
    | nil => cases hpath
    | cons y before => cases hpath
end Decidable
end ParentTree
