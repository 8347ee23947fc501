import Mathlib.Data.List.Basic

/-! # Files with a durable part -/

structure DurableFile (α : Type*) where
  contents : List α := []
  durable : List α := []

namespace DurableFile

variable {α : Type*} [Zero α]

def pad (n : Nat) (bytes : List α) : List α := bytes++List.replicate (n-bytes.length) 0

def writeAt (f : DurableFile α) (pos : Nat) (bytes : List α) : DurableFile α :=
  { f with contents := (pad pos f.contents).take pos++bytes++f.contents.drop (pos+bytes.length) }

def extend (f : DurableFile α) (n : Nat) : DurableFile α := { f with contents := pad n f.contents }

def truncate (f : DurableFile α) (n : Nat) : DurableFile α := { f with contents := (pad n f.contents).take n }

omit [Zero α] in
def sync (f : DurableFile α) : DurableFile α := { f with durable := f.contents }

omit [Zero α] in
def HoldsAt (bytes : List α) (pos : Nat) (record : List α) : Prop :=
  ∀ i, i < record.length → bytes[pos+i]? = record[i]?

variable {bytes record : List α} {pos n : Nat} {f : DurableFile α}

omit [Zero α] in
theorem HoldsAt.lt_length (h : HoldsAt bytes pos record) {i : Nat} (hi : i < record.length) :
    pos+i < bytes.length := by
  have hb := h i hi
  rw [List.getElem?_eq_getElem hi] at hb
  exact (List.getElem?_eq_some_iff.mp hb).1

theorem HoldsAt.pad (h : HoldsAt bytes pos record) (n : Nat) : HoldsAt (DurableFile.pad n bytes) pos record := by
  intro i hi
  rw [DurableFile.pad,List.getElem?_append_left (h.lt_length hi)]
  exact h i hi

omit [Zero α] in
theorem HoldsAt.take (h : HoldsAt bytes pos record) (hn : pos+record.length ≤ n) :
    HoldsAt (bytes.take n) pos record := by
  intro i hi
  rw [List.getElem?_take_of_lt (by omega)]
  exact h i hi

theorem HoldsAt.extend (h : HoldsAt f.contents pos record) (n : Nat) :
    HoldsAt (f.extend n).contents pos record := h.pad n

theorem HoldsAt.truncate (h : HoldsAt f.contents pos record) (hn : pos+record.length ≤ n) :
    HoldsAt (f.truncate n).contents pos record := (h.pad n).take hn

theorem pad_length (n : Nat) (bytes : List α) : n ≤ (pad n bytes).length := by
  simp only [pad,List.length_append,List.length_replicate]
  omega

theorem HoldsAt.writeAt (h : HoldsAt f.contents pos record) (hn : pos+record.length ≤ n) (more : List α) :
    HoldsAt (f.writeAt n more).contents pos record := by
  intro i hi
  have hkept := (h.pad n).take hn
  rw [DurableFile.writeAt,List.append_assoc,List.getElem?_append_left (hkept.lt_length hi)]
  exact hkept i hi

theorem writeAt_holds (f : DurableFile α) (n : Nat) (record : List α) :
    HoldsAt (f.writeAt n record).contents n record := by
  intro i hi
  have hlen : ((pad n f.contents).take n).length = n := by
    rw [List.length_take]
    exact Nat.min_eq_left (pad_length n f.contents)
  rw [writeAt,List.append_assoc,List.getElem?_append_right (by omega),hlen,Nat.add_sub_cancel_left,
    List.getElem?_append_left hi]
end DurableFile
