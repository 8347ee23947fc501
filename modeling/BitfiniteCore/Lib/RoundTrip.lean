import Mathlib.Data.List.Basic

/-!
# Round trips through a byte stream

A writer may refuse a value.  A reader consumes a prefix of its input.
-/

namespace RoundTrip
open List Option

variable {α β σ : Type}

/-- The value can be written, and reading it back leaves the rest of the stream. -/
def RoundTrips (write : α → Option (List σ)) (read : List σ → Option (α × List σ)) (a : α) : Prop :=
  ∃ s, write a = some s ∧ ∀ rest, read (s++rest) = some (a,rest)

def writeEach (write : α → Option (List σ)) : List α → Option (List σ)
  | [] => some []
  | a::as => (write a).bind fun s => (writeEach write as).map fun t => s++t

def readEach (read : List σ → Option (α × List σ)) : Nat → List σ → Option (List α × List σ)
  | 0, s => some ([],s)
  | n+1, s => (read s).bind fun r => (readEach read n r.2).map fun q => (r.1::q.1,q.2)

theorem RoundTrips.each {write : α → Option (List σ)} {read : List σ → Option (α × List σ)} (as : List α)
    (h : ∀ a ∈ as, RoundTrips write read a) : RoundTrips (writeEach write) (readEach read as.length) as := by
  induction as with
  | nil => exact ⟨[],rfl,fun _ => rfl⟩
  | cons a as ih =>
    obtain ⟨ha,has⟩ := forall_mem_cons.mp h
    obtain ⟨s,hs,hread⟩ := ha
    obtain ⟨t,ht,hreads⟩ := ih has
    refine ⟨s++t,by simp [writeEach,hs,ht],fun rest => ?_⟩
    simp [readEach,append_assoc,hread,hreads]

theorem RoundTrips.inj {write : α → Option (List σ)} {read : List σ → Option (α × List σ)} {a b : α}
    (ha : RoundTrips write read a) (hb : RoundTrips write read b) {s t r r' : List σ} (hs : write a = some s)
    (ht : write b = some t) (h : s++r = t++r') : a = b ∧ r = r' := by
  obtain ⟨s',hs',hreads⟩ := ha
  obtain ⟨t',ht',hreadt⟩ := hb
  cases hs.symm.trans hs'
  cases ht.symm.trans ht'
  have heq := hreads r
  rw [h,hreadt r'] at heq
  obtain ⟨hab,hr⟩ := Prod.mk.inj (some.inj heq)
  exact ⟨hab.symm,hr.symm⟩

theorem writeEach_inj {write : α → Option (List σ)} (read : List σ → Option (α × List σ)) {as bs : List α}
    (ha : ∀ a ∈ as, RoundTrips write read a) (hb : ∀ b ∈ bs, RoundTrips write read b)
    (hne : ∀ a s, write a = some s → s ≠ []) {s : List σ} (hs : writeEach write as = some s)
    (ht : writeEach write bs = some s) : as = bs := by
  have hcons : ∀ (a : α) (as : List α), writeEach write (a::as) ≠ some [] := by
    intro a as h
    obtain ⟨u,hu,h⟩ := bind_eq_some_iff.mp h
    obtain ⟨v,-,h⟩ := map_eq_some_iff.mp h
    exact hne a u hu (append_eq_nil_iff.mp h).1
  induction as generalizing bs s with
  | nil =>
    cases hs
    cases bs with
    | nil => rfl
    | cons b bs => exact absurd ht (hcons b bs)
  | cons a as ih =>
    cases bs with
    | nil =>
      cases ht
      exact absurd hs (hcons a as)
    | cons b bs =>
      obtain ⟨ha,has⟩ := forall_mem_cons.mp ha
      obtain ⟨hb,hbs⟩ := forall_mem_cons.mp hb
      obtain ⟨u,hu,hs⟩ := bind_eq_some_iff.mp hs
      obtain ⟨v,hv,rfl⟩ := map_eq_some_iff.mp hs
      obtain ⟨u',hu',ht⟩ := bind_eq_some_iff.mp ht
      obtain ⟨v',hv',ht⟩ := map_eq_some_iff.mp ht
      obtain ⟨rfl,rfl⟩ := hb.inj ha hu' hu ht
      rw [ih has hbs hv hv']

theorem writeEach_some (f : α → List σ) (as : List α) :
    writeEach (fun a => some (f a)) as = some (as.map f).flatten := by
  induction as with
  | nil => rfl
  | cons a as ih => simp [writeEach,ih]

theorem readEach_forall {read : List σ → Option (α × List σ)} {P : α → Prop}
    (h : ∀ s a rest, read s = some (a,rest) → P a) (n : Nat) {s rest : List σ} {as : List α}
    (hread : readEach read n s = some (as,rest)) : ∀ a ∈ as, P a := by
  induction n generalizing s rest as with
  | zero =>
    obtain ⟨rfl,-⟩ := Prod.mk.inj (some.inj hread)
    simp
  | succ n ih =>
    obtain ⟨⟨a,s'⟩,ha,hread⟩ := bind_eq_some_iff.mp hread
    obtain ⟨⟨as',s''⟩,has,hread⟩ := map_eq_some_iff.mp hread
    obtain ⟨rfl,-⟩ := Prod.mk.inj hread
    exact forall_mem_cons.mpr ⟨h s a s' ha,ih has⟩

/-- Whatever the reader accepts is what the writer writes for the value it returns. -/
def Exact (write : α → Option (List σ)) (read : List σ → Option (α × List σ)) : Prop :=
  ∀ s a rest, read s = some (a,rest) → ∃ t, write a = some t ∧ s = t++rest

theorem Exact.each {write : α → Option (List σ)} {read : List σ → Option (α × List σ)} (h : Exact write read) (n : Nat)
    {s rest : List σ} {as : List α} (hread : readEach read n s = some (as,rest)) :
    as.length = n ∧ ∃ t, writeEach write as = some t ∧ s = t++rest := by
  induction n generalizing s as with
  | zero =>
    cases hread
    exact ⟨rfl,[],rfl,rfl⟩
  | succ n ih =>
    obtain ⟨⟨a,s'⟩,ha,hread⟩ := bind_eq_some_iff.mp hread
    obtain ⟨⟨as',s''⟩,has,hread⟩ := map_eq_some_iff.mp hread
    obtain ⟨rfl,rfl⟩ := Prod.mk.inj hread
    obtain ⟨t,ht,rfl⟩ := h s a s' ha
    obtain ⟨hlen,u,hu,rfl⟩ := ih has
    refine ⟨by rw [length_cons,hlen],t++u,?_,(append_assoc _ _ _).symm⟩
    rw [writeEach,ht,hu]
    rfl
end RoundTrip
