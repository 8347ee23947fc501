import Mathlib.Data.List.Nodup

/-! # Lists with a unique key -/

namespace KeyedList
open List

variable {K E : Type} [DecidableEq K] (key : E → K)

def UniqueKeys (l : List E) : Prop := (l.map key).Nodup

def find (k : K) (l : List E) : Option E := l.find? fun e => key e = k

def modify (k : K) (f : E → E) (l : List E) : List E := l.map fun e => if key e = k then f e else e

def erase (k : K) (l : List E) : List E := l.filter fun e => key e ≠ k

variable {key} {k : K} {e : E} {l : List E} {f : E → E}

theorem find_key (h : find key k l = some e) : key e = k := by
  simpa using List.find?_some h

theorem find_mem (h : find key k l = some e) : e ∈ l := List.mem_of_find?_eq_some h

theorem find_none : find key k l = none ↔ ∀ e ∈ l, key e ≠ k := by
  simp [find]

theorem find_of_mem (hu : UniqueKeys key l) (he : e ∈ l) : find key (key e) l = some e := by
  cases hf : find key (key e) l with
  | none => exact absurd rfl (find_none.mp hf e he)
  | some x =>
    have hx : x = e := inj_on_of_nodup_map hu (find_mem hf) he (find_key hf)
    rw [hx]

@[simp] theorem mem_erase {x : E} : x ∈ erase key k l ↔ x ∈ l ∧ key x ≠ k := by
  simp [erase]

theorem modify_mem (he : e ∈ l) (hk : key e = k) : f e ∈ modify key k f l := mem_map.mpr ⟨e,he,if_pos hk⟩

theorem UniqueKeys.erase (hu : UniqueKeys key l) (k : K) : UniqueKeys key (erase key k l) :=
  hu.sublist (filter_sublist.map key)

omit [DecidableEq K] in
theorem UniqueKeys.filter (hu : UniqueKeys key l) (p : E → Bool) : UniqueKeys key (l.filter p) :=
  hu.sublist (filter_sublist.map key)

theorem UniqueKeys.modify (hu : UniqueKeys key l) (k : K) (hf : ∀ e, key (f e) = key e) :
    UniqueKeys key (modify key k f l) := by
  have hkeys : (KeyedList.modify key k f l).map key = l.map key := by
    simp only [KeyedList.modify,map_map]
    apply map_congr_left
    intro e _
    by_cases hk : key e = k <;> simp [hk,hf]
  rw [UniqueKeys,hkeys]
  exact hu

theorem UniqueKeys.concat (hu : UniqueKeys key l) (h : find key (key e) l = none) : UniqueKeys key (l++[e]) := by
  unfold UniqueKeys
  rw [map_append,nodup_append]
  refine ⟨hu,by simp,?_⟩
  intro a ha b hb
  obtain ⟨x,hx,rfl⟩ := mem_map.mp ha
  rw [map_singleton,mem_singleton] at hb
  rw [hb]
  exact find_none.mp h x hx

theorem find_split (hu : UniqueKeys key l) (h : find key k l = some e) :
    ∃ before after, l = before++e::after ∧ ∀ x ∈ before++after, key x ≠ k := by
  obtain ⟨before,after,rfl⟩ := append_of_mem (find_mem h)
  refine ⟨before,after,rfl,?_⟩
  have hk := find_key h
  unfold UniqueKeys at hu
  rw [map_append,map_cons,nodup_middle,nodup_cons,← map_append] at hu
  intro x hx he
  exact hu.1 (mem_map.mpr ⟨x,hx,he.trans hk.symm⟩)

private theorem modify_of_ne (h : ∀ x ∈ l, key x ≠ k) : modify key k f l = l := by
  nth_rewrite 2 [← map_id l]
  exact map_congr_left fun x hx => if_neg (h x hx)

private theorem erase_of_ne (h : ∀ x ∈ l, key x ≠ k) : erase key k l = l :=
  filter_eq_self.mpr fun x hx => by simpa using h x hx

theorem countP_modify (hu : UniqueKeys key l) (h : find key k l = some e) (p : E → Bool) :
    (modify key k f l).countP p+(if p e then 1 else 0) = l.countP p+(if p (f e) then 1 else 0) := by
  obtain ⟨before,after,rfl,hne⟩ := find_split hu h
  have hb : modify key k f before = before := modify_of_ne fun x hx => hne x (mem_append_left _ hx)
  have ha : modify key k f after = after := modify_of_ne fun x hx => hne x (mem_append_right _ hx)
  have he : modify key k f (before++e::after) = before++f e::after := by
    have hk := find_key h
    unfold modify at hb ha ⊢
    rw [map_append,map_cons,hb,ha,if_pos hk]
  rw [he,countP_append,countP_append,countP_cons,countP_cons]
  omega

theorem countP_erase (hu : UniqueKeys key l) (h : find key k l = some e) (p : E → Bool) :
    l.countP p = (erase key k l).countP p+(if p e then 1 else 0) := by
  obtain ⟨before,after,rfl,hne⟩ := find_split hu h
  have hb : erase key k before = before := erase_of_ne fun x hx => hne x (mem_append_left _ hx)
  have ha : erase key k after = after := erase_of_ne fun x hx => hne x (mem_append_right _ hx)
  have he : erase key k (before++e::after) = before++after := by
    have hk := find_key h
    unfold erase at hb ha ⊢
    rw [filter_append,filter_cons_of_neg (by simp [hk]),hb,ha]
  rw [he,countP_append,countP_append,countP_cons]
  omega

theorem countP_key_le_one (hu : UniqueKeys key l) {p : E → Bool} (h : ∀ x ∈ l, p x → key x = k) : l.countP p ≤ 1 := by
  by_cases hz : l.countP p = 0
  · omega
  · obtain ⟨x,hx,hp⟩ := countP_pos_iff.mp (Nat.pos_of_ne_zero hz)
    have hf : find key k l = some x := h x hx hp ▸ find_of_mem hu hx
    have hrest : (erase key k l).countP p = 0 := by
      rw [countP_eq_zero]
      intro y hy hpy
      exact (mem_erase.mp hy).2 (h y (mem_erase.mp hy).1 hpy)
    have hc := countP_erase hu hf p
    rw [hrest,if_pos hp] at hc
    omega
end KeyedList
