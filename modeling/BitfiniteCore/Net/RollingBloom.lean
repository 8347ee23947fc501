import BitfiniteCore.Primitives.Serialize
import Mathlib.Data.List.Induction
import Mathlib.Tactic.IntervalCases

/-!
# Rolling bloom filters

A position holds a generation number from 1 to 3, or 0, as one bit in each of two words.
-/

namespace BitfiniteCore
open List

/-- The words `data[2*i]` and `data[2*i+1]` are kept as a pair. -/
structure CRollingBloomFilter where
  nEntriesPerGeneration : Nat
  nEntriesThisGeneration : Nat
  nGeneration : Nat
  data : List (BitVec 64 × BitVec 64)
  nTweak : BitVec 32
  nHashFuncs : Nat

namespace CRollingBloomFilter

def fastMod (x : BitVec 32) (n : Nat) : Nat := x.toNat*n/2^32

def slot (f : CRollingBloomFilter) (h : BitVec 32) : Nat := fastMod h (2*f.data.length)/2

def wipe (nGeneration : Nat) (p : BitVec 64 × BitVec 64) : BitVec 64 × BitVec 64 :=
  let mask := (p.1 ^^^ (0-BitVec.ofNat 64 (nGeneration%2))) ||| (p.2 ^^^ (0-BitVec.ofNat 64 (nGeneration/2)))
  (p.1 &&& mask,p.2 &&& mask)

def nextGeneration (f : CRollingBloomFilter) : CRollingBloomFilter :=
  let nGeneration := if f.nGeneration+1 = 4 then 1 else f.nGeneration+1
  { f with nEntriesThisGeneration := 0, nGeneration, data := f.data.map (wipe nGeneration) }

def setBit (bit value : Nat) (w : BitVec 64) : BitVec 64 :=
  (w &&& ~~~(1#64 <<< bit)) ||| (BitVec.ofNat 64 value <<< bit)

/-- `none` is an access outside of `data`, here and below. -/
def mark (f : CRollingBloomFilter) (h : BitVec 32) : Option CRollingBloomFilter :=
  f.data[f.slot h]?.map fun p =>
    let p := (setBit (h.toNat%64) (f.nGeneration%2) p.1,setBit (h.toNat%64) (f.nGeneration/2) p.2)
    { f with data := f.data.set (f.slot h) p }

def reset (f : CRollingBloomFilter) (nTweak : BitVec 32) : CRollingBloomFilter :=
  { f with nTweak, nEntriesThisGeneration := 0, nGeneration := 1, data := f.data.map fun _ => (0,0) }

variable (rollingBloomHash : Nat → BitVec 32 → Bytes → BitVec 32)

def hashes (f : CRollingBloomFilter) (key : Bytes) : List (BitVec 32) :=
  (range f.nHashFuncs).map fun n => rollingBloomHash n f.nTweak key

def insert (f : CRollingBloomFilter) (key : Bytes) : Option CRollingBloomFilter :=
  let f := if f.nEntriesThisGeneration = f.nEntriesPerGeneration then f.nextGeneration else f
  (f.hashes rollingBloomHash key).foldlM mark { f with nEntriesThisGeneration := f.nEntriesThisGeneration+1 }

def containsLoop (f : CRollingBloomFilter) : List (BitVec 32) → Option Bool
  | [] => some true
  | h::rest => f.data[f.slot h]?.bind fun p =>
      if (p.1 ||| p.2).getLsbD (h.toNat%64) then containsLoop f rest else some false

def contains (f : CRollingBloomFilter) (key : Bytes) : Option Bool := f.containsLoop (f.hashes rollingBloomHash key)

inductive Op where
  | insert (key : Bytes)
  | reset (nTweak : BitVec 32)

def exec (f : CRollingBloomFilter) : Op → Option CRollingBloomFilter
  | .insert key => f.insert rollingBloomHash key
  | .reset nTweak => some (f.reset nTweak)

def Op.newest (keys : List Bytes) : Op → List Bytes
  | .insert key => key::keys
  | .reset _ => []

section Tags

variable {f : CRollingBloomFilter}

def tag (p : BitVec 64 × BitVec 64) (b : Nat) : Nat := (p.1.getLsbD b).toNat+2*(p.2.getLsbD b).toNat

theorem setBit_getLsbD {bit b v : Nat} (hb : b < 64) (hv : v < 2) (w : BitVec 64) :
    (setBit bit v w).getLsbD b = if b = bit then decide (v = 1) else w.getLsbD b := by
  unfold setBit
  interval_cases v <;> by_cases hbit : b = bit <;> simp [hb,hbit] <;> grind

theorem mask_getLsbD {v b : Nat} (hv : v < 2) (hb : b < 64) : (0-BitVec.ofNat 64 v).getLsbD b = decide (v = 1) := by
  have hones : (0-BitVec.ofNat 64 1 : BitVec 64) = BitVec.allOnes 64 := by decide
  interval_cases v
  · simp
  · rw [hones,BitVec.getLsbD_allOnes]
    simp [hb]

theorem wipe_tag {g b : Nat} (hg : g < 4) (hb : b < 64) (p : BitVec 64 × BitVec 64) :
    tag (wipe g p) b = if tag p b = g then 0 else tag p b := by
  have h1 := mask_getLsbD (show g%2 < 2 by omega) hb
  have h2 := mask_getLsbD (show g/2 < 2 by omega) hb
  have hbits : ∀ g < 4, ∀ x y : Bool, (x && ((x ^^ decide (g%2 = 1)) || (y ^^ decide (g/2 = 1)))).toNat+
      2*(y && ((x ^^ decide (g%2 = 1)) || (y ^^ decide (g/2 = 1)))).toNat =
        if x.toNat+2*y.toNat = g then 0 else x.toNat+2*y.toNat := by decide
  rw [tag,wipe,BitVec.getLsbD_and,BitVec.getLsbD_and,BitVec.getLsbD_or,BitVec.getLsbD_xor,BitVec.getLsbD_xor,h1,h2]
  exact hbits g hg _ _

theorem slot_lt (h : BitVec 32) (hdata : f.data ≠ []) : f.slot h < f.data.length := by
  have hpos := length_pos_iff.mpr hdata
  have hmul : h.toNat*(2*f.data.length) < 2^32*(2*f.data.length) := Nat.mul_lt_mul_of_pos_right h.isLt (by omega)
  have hlt : fastMod h (2*f.data.length) < 2*f.data.length := by
    rw [fastMod,Nat.div_lt_iff_lt_mul (by decide)]
    omega
  unfold slot
  omega

theorem mark_spec (hg : f.nGeneration < 4) (hdata : f.data ≠ []) (h : BitVec 32) :
    ∃ data, f.mark h = some { f with data } ∧ data.length = f.data.length ∧ ∀ c b, b < 64 →
      tag (data[c]?.getD (0,0)) b =
        if c = f.slot h ∧ b = h.toNat%64 then f.nGeneration else tag (f.data[c]?.getD (0,0)) b := by
  have hlt := slot_lt h hdata
  refine ⟨_,by rw [mark,getElem?_eq_getElem hlt]; rfl,length_set,fun c b hb => ?_⟩
  by_cases hc : c = f.slot h
  · subst hc
    simp only [getElem?_set_self hlt,getElem?_eq_getElem hlt,Option.getD_some,tag,true_and]
    rw [setBit_getLsbD hb (by omega),setBit_getLsbD hb (by omega)]
    split_ifs
    · generalize f.nGeneration = g at hg
      interval_cases g <;> rfl
    · rfl
  · simp [hc,Ne.symm hc]
end Tags

section Window

variable {rollingBloomHash} {f : CRollingBloomFilter} {key : Bytes} {keys : List Bytes}

/-- The bit of the hash was written in the current or one of the `a` previous generations. -/
def Recent (f : CRollingBloomFilter) (a : Nat) (h : BitVec 32) : Prop :=
  let t := tag (f.data[f.slot h]?.getD (0,0)) (h.toNat%64)
  1 ≤ t ∧ t ≤ 3 ∧ (f.nGeneration+3-t)%3 ≤ a

/-- A filter with storage that still holds the newest keys, those of one generation after the other. -/
structure Holds (hash : Nat → BitVec 32 → Bytes → BitVec 32) (f : CRollingBloomFilter) (keys : List Bytes) : Prop where
  generation : 1 ≤ f.nGeneration ∧ f.nGeneration ≤ 3
  stored : f.data ≠ []
  held : ∀ a ≤ 2, ∀ key ∈ keys.take (f.nEntriesThisGeneration+a*f.nEntriesPerGeneration),
    ∀ h ∈ f.hashes hash key, f.Recent a h

theorem Holds.nextGeneration (h : Holds rollingBloomHash f keys)
    (hfull : f.nEntriesThisGeneration = f.nEntriesPerGeneration) : Holds rollingBloomHash f.nextGeneration keys := by
  have hg := h.generation
  have hnew : ∃ g, (if f.nGeneration+1 = 4 then 1 else f.nGeneration+1) = g ∧ 1 ≤ g ∧ g ≤ 3 ∧
      (f.nGeneration+1)%3 = g%3 := ⟨_,rfl,by split <;> omega⟩
  obtain ⟨g,heq,hg'⟩ := hnew
  unfold CRollingBloomFilter.nextGeneration
  simp only [heq]
  refine ⟨⟨hg'.1,hg'.2.1⟩,by simpa using h.stored,fun a ha key hkey x hx => ?_⟩
  cases a with
  | zero => simp at hkey
  | succ a =>
    have hkey : key ∈ keys.take (f.nEntriesThisGeneration+a*f.nEntriesPerGeneration) := by
      rw [hfull]
      simpa [Nat.add_mul,Nat.add_comm] using hkey
    have hold := h.held a (by omega) key hkey x hx
    have hget := getElem?_eq_getElem (slot_lt x h.stored)
    simp only [Recent,slot,length_map,getElem?_map] at hold hget ⊢
    rw [hget,Option.getD_some] at hold
    obtain ⟨ht1,ht3,hage⟩ := hold
    rw [hget,Option.map_some,Option.getD_some,wipe_tag (by omega) (Nat.mod_lt _ (by decide))]
    -- a generation of age at most one does not have the number that comes up again
    rw [if_neg (by omega)]
    exact ⟨ht1,ht3,by omega⟩

theorem marks_spec (hg : 1 ≤ f.nGeneration ∧ f.nGeneration ≤ 3) (hdata : f.data ≠ []) (hs : List (BitVec 32)) :
    ∃ data, hs.foldlM mark f = some { f with data } ∧ data ≠ [] ∧ (∀ h ∈ hs, Recent { f with data } 0 h) ∧
      ∀ a h, f.Recent a h → Recent { f with data } a h := by
  induction hs using reverseRecOn with
  | nil => exact ⟨f.data,rfl,hdata,by simp,fun a h hr => hr⟩
  | append_singleton hs h ih =>
    obtain ⟨d1,h1,hne1,hnew1,hold1⟩ := ih
    obtain ⟨d2,h2,hlen,htag⟩ := mark_spec (f := { f with data := d1 }) (by dsimp only; omega) hne1 h
    have hkeep : ∀ a x, Recent { f with data := d1 } a x → Recent { f with data := d2 } a x := by
      intro a x hr
      unfold Recent slot at hr ⊢
      dsimp only at hr htag hlen ⊢
      rw [hlen,htag _ _ (Nat.mod_lt _ (by decide))]
      split_ifs
      · omega
      · exact hr
    refine ⟨d2,by simp [foldlM_append,h1,h2],fun hnil => hne1 (by simpa [hnil] using hlen.symm),fun x hx => ?_,
      fun a x hr => hkeep a x (hold1 a x hr)⟩
    rcases mem_append.mp hx with hx | hx
    · exact hkeep 0 x (hnew1 x hx)
    · obtain rfl := mem_singleton.mp hx
      unfold Recent slot
      dsimp only at htag hlen ⊢
      rw [hlen,htag _ _ (Nat.mod_lt _ (by decide)),if_pos ⟨rfl,rfl⟩]
      omega

theorem Holds.insert (h : Holds rollingBloomHash f keys) (key : Bytes) :
    ∃ f', f.insert rollingBloomHash key = some f' ∧ Holds rollingBloomHash f' (key::keys) ∧
      f'.nEntriesPerGeneration = f.nEntriesPerGeneration := by
  have hnext : ∃ f₁, (if f.nEntriesThisGeneration = f.nEntriesPerGeneration then f.nextGeneration else f) = f₁ ∧
      Holds rollingBloomHash f₁ keys ∧ f₁.nEntriesPerGeneration = f.nEntriesPerGeneration := by
    refine ⟨_,rfl,?_⟩
    split_ifs with hfull
    · exact ⟨h.nextGeneration hfull,rfl⟩
    · exact ⟨h,rfl⟩
  obtain ⟨f₁,heq,h₁,hper⟩ := hnext
  obtain ⟨data,hdata,hne,hnew,hold⟩ := marks_spec
    (f := { f₁ with nEntriesThisGeneration := f₁.nEntriesThisGeneration+1 }) h₁.generation h₁.stored
    (f₁.hashes rollingBloomHash key)
  refine ⟨{ f₁ with nEntriesThisGeneration := f₁.nEntriesThisGeneration+1, data },by
    rw [CRollingBloomFilter.insert,heq]
    exact hdata,⟨h₁.generation,hne,fun a ha x hx y hy => ?_⟩,hper⟩
  rw [Nat.add_right_comm,take_succ_cons,mem_cons] at hx
  rcases hx with rfl | hx
  · obtain ⟨ht1,ht3,hage⟩ := hnew y hy
    exact ⟨ht1,ht3,hage.trans (Nat.zero_le a)⟩
  · exact hold a y (h₁.held a ha x hx y hy)

theorem Holds.contains (h : Holds rollingBloomHash f keys)
    (hkey : key ∈ keys.take (f.nEntriesThisGeneration+2*f.nEntriesPerGeneration)) :
    f.contains rollingBloomHash key = some true := by
  have hheld := h.held 2 le_rfl key hkey
  unfold CRollingBloomFilter.contains
  generalize f.hashes rollingBloomHash key = hs at hheld
  induction hs with
  | nil => rfl
  | cons x hs ih =>
    rw [forall_mem_cons] at hheld
    have ht := hheld.1.1
    rw [getElem?_eq_getElem (slot_lt x h.stored),Option.getD_some] at ht
    rw [containsLoop,getElem?_eq_getElem (slot_lt x h.stored),Option.bind_some,BitVec.getLsbD_or,if_pos]
    · exact ih hheld.2
    · by_contra hzero
      simp [tag] at ht hzero
      simp [hzero] at ht

theorem Holds.exec (h : Holds rollingBloomHash f keys) (op : Op) :
    ∃ f', f.exec rollingBloomHash op = some f' ∧ Holds rollingBloomHash f' (op.newest keys) ∧
      f'.nEntriesPerGeneration = f.nEntriesPerGeneration := by
  cases op with
  | insert key => exact h.insert key
  | reset nTweak => exact ⟨_,rfl,⟨by simp [reset],by simpa [reset] using h.stored,by simp [Op.newest]⟩,rfl⟩

theorem Holds.run (h : Holds rollingBloomHash f []) (ops : List Op) :
    ∃ f', ops.foldlM (CRollingBloomFilter.exec rollingBloomHash) f = some f' ∧
      Holds rollingBloomHash f' (ops.foldl Op.newest []) ∧ f'.nEntriesPerGeneration = f.nEntriesPerGeneration := by
  induction ops using reverseRecOn with
  | nil => exact ⟨f,rfl,h,rfl⟩
  | append_singleton ops op ih =>
    obtain ⟨f₁,h₁,hholds,hper⟩ := ih
    obtain ⟨f',h',hholds',hper'⟩ := hholds.exec op
    exact ⟨f',by simp [foldlM_append,h₁,h'],by simpa using hholds',hper'.trans hper⟩

end Window

end CRollingBloomFilter
end BitfiniteCore
