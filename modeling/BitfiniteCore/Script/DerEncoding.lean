import BitfiniteCore.Lib.BitGroups
import BitfiniteCore.Script.SigEncoding

/-! # Strict DER -/

namespace BitfiniteCore
open List

/-- The test for a null byte at the start; `none` is a read outside, here and below. -/
def paddedInteger (sig : Bytes) (start len : Nat) : Option Bool :=
  if len > 1 then sig[start]?.bind fun b => if b == 0 then sig[start+1]?.map fun c => c &&& 0x80 == 0 else some false
  else some false

/-- `IsValidDERSignatureEncoding` read by read. -/
def readDERSignatureEncoding (sig : Bytes) : Option Bool :=
  if sig.length < 8 || sig.length > 72 then some false
  else sig[0]?.bind fun b => if b != 0x30 then some false
  else sig[1]?.bind fun b => if b.toNat != sig.length-2 then some false
  else sig[2]?.bind fun b => if b != 0x02 then some false
  else sig[3]?.bind fun lenR => if lenR.toNat == 0 then some false
  else sig[4]?.bind fun b => if b &&& 0x80 != 0 then some false
  else if lenR.toNat > sig.length-7 then some false
  else (paddedInteger sig 4 lenR.toNat).bind fun padded => if padded then some false
  else sig[lenR.toNat+4]?.bind fun b => if b != 0x02 then some false
  else sig[lenR.toNat+4+1]?.bind fun lenS => if lenS.toNat == 0 then some false
  else sig[lenR.toNat+4+2]?.bind fun b => if b &&& 0x80 != 0 then some false
  else if lenR.toNat+4+lenS.toNat+2 != sig.length then some false
  else (paddedInteger sig (lenR.toNat+4+2) lenS.toNat).bind fun padded => if padded then some false else some true

def ShortestInteger : Bytes → Prop
  | [] => False
  | [b] => b < 0x80
  | b::c::_ => b < 0x80 ∧ (b = 0 → 0x80 ≤ c)

/-- `0x30 L 0x02 lr R 0x02 ls S`, in 8 to 72 bytes. -/
def StrictDER (sig : Bytes) : Prop :=
  8 ≤ sig.length ∧ sig.length ≤ 72 ∧ ∃ L lr ls : UInt8, ∃ R S : Bytes, sig = 0x30::L::0x02::lr::(R++0x02::ls::S) ∧
    L.toNat = sig.length-2 ∧ lr.toNat = R.length ∧ ls.toNat = S.length ∧ ShortestInteger R ∧ ShortestInteger S

section Reads

variable {sig : Bytes}

theorem read_bind {α : Type} {i : Nat} (h : i < sig.length) (f : UInt8 → Option α) :
    sig[i]?.bind f = f (sig.getD i 0) := by
  rw [getD_eq_getElem?_getD,getElem?_eq_getElem h]
  rfl

theorem refuse {c : Prop} [Decidable c] {x : Bool} {y : Option Bool} (h : ¬c → y = some x) :
    (if c then some false else y) = some (if c then false else x) := by
  split
  · rfl
  · rename_i hc
    exact h hc

theorem paddedInteger_eq {start len : Nat} (h : len > 1 → start+1 < sig.length) : paddedInteger sig start len =
      some (len > 1 && sig.getD start 0 == 0 && sig.getD (start+1) 0 &&& 0x80 == 0) := by
  unfold paddedInteger
  split
  · rename_i hlen
    have := h hlen
    rw [read_bind (by omega),getD_eq_getElem?_getD (i := start+1),getElem?_eq_getElem this]
    split
    · simp_all
    · simp_all
  · rename_i hlen
    simp [hlen]

theorem readDERSignatureEncoding_eq (sig : Bytes) :
    readDERSignatureEncoding sig = some (isValidDERSignatureEncoding sig) := by
  refine refuse fun hsize => ?_
  have hlen : 8 ≤ sig.length := by
    simp at hsize
    omega
  refine (read_bind (by omega) _).trans (refuse fun _ => ?_)
  refine (read_bind (by omega) _).trans (refuse fun _ => ?_)
  refine (read_bind (by omega) _).trans (refuse fun _ => ?_)
  refine (read_bind (by omega) _).trans (refuse fun _ => ?_)
  refine (read_bind (by omega) _).trans (refuse fun _ => refuse fun hR => ?_)
  rw [paddedInteger_eq (by omega),Option.bind_some]
  refine refuse fun _ => (read_bind (by omega) _).trans (refuse fun _ => ?_)
  refine (read_bind (by omega) _).trans (refuse fun _ => ?_)
  refine (read_bind (by omega) _).trans (refuse fun _ => refuse fun hS => ?_)
  have hend : (sig.getD 3 0).toNat+4+(sig.getD ((sig.getD 3 0).toNat+4+1) 0).toNat+2 = sig.length := by simpa using hS
  rw [paddedInteger_eq (by omega),Option.bind_some]
  exact refuse fun _ => rfl
end Reads

section Encodings

theorem refuse_iff {c : Prop} [Decidable c] {x : Bool} : (if c then false else x) = true ↔ ¬c ∧ x = true := by
  split <;> simp [*]

private theorem sign_bit : ∀ c : UInt8, c &&& 0x80 = 0 ↔ c < 0x80 := forall_byte (by decide +kernel)

theorem shortestInteger_iff (l : Bytes) : ShortestInteger l ↔ l.length ≠ 0 ∧ l.getD 0 0 &&& 0x80 = 0 ∧
    (1 < l.length → l.getD 0 0 = 0 → l.getD 1 0 &&& 0x80 ≠ 0) := by
  rcases l with _ | ⟨b,_ | ⟨c,l⟩⟩
  · simp [ShortestInteger]
  · simp [ShortestInteger,sign_bit]
  · simp [ShortestInteger,sign_bit]

theorem isValidDERSignatureEncoding_parts {L lr x ls b0 b2 : UInt8} {R S : Bytes} (hR : lr.toNat = R.length) :
    isValidDERSignatureEncoding (b0::L::b2::lr::(R++x::ls::S)) = true ↔
      (8 ≤ R.length+S.length+6 ∧ R.length+S.length+6 ≤ 72) ∧ b0 = 0x30 ∧ L.toNat = R.length+S.length+4 ∧ b2 = 0x02 ∧
        ShortestInteger R ∧ x = 0x02 ∧ ls.toNat = S.length ∧ ShortestInteger S := by
  have hlen : (b0::L::b2::lr::(R++x::ls::S)).length = R.length+S.length+6 := by
    simp
    omega
  have hleft : ∀ i < R.length, (R++x::ls::S).getD i 0 = R.getD i 0 := fun i hi => getD_append _ _ _ _ hi
  have hright : ∀ i, (R++x::ls::S).getD (R.length+i) 0 = (x::ls::S).getD i 0 := by
    intro i
    rw [getD_append_right _ _ _ _ (by omega),Nat.add_sub_cancel_left]
  have hx := hright 0
  have hls := hright 1
  have hS := hright 2
  have hS' := hright 3
  simp only [isValidDERSignatureEncoding,refuse_iff,hlen,getD_cons_zero,getD_cons_succ,hR,Nat.add_zero] at hx hls hS hS' ⊢
  simp only [hx,hls,hS,hS']
  have hfirst : R.length ≠ 0 → (R++x::ls::S).getD 0 0 = R.getD 0 0 := fun h => hleft 0 (by omega)
  rw [shortestInteger_iff,shortestInteger_iff]
  simp only [Bool.or_eq_true,decide_eq_true_eq,bne_iff_ne,beq_iff_eq,Bool.and_eq_true,not_or,not_lt,not_not,not_and,
    and_imp,and_true,ne_eq]
  constructor
  · rintro ⟨hn,hb0,hL,hb2,hr,hsign,hfit,hpad,hx2,-,hsignS,hend,hpadS⟩
    rw [hfirst hr] at hsign hpad
    refine ⟨by omega,hb0,by omega,hb2,⟨hr,hsign,fun h h0 => ?_⟩,hx2,by omega,by omega,hsignS,fun h => hpadS (by omega)⟩
    rw [← hleft 1 h]
    exact hpad h h0
  · rintro ⟨hn,hb0,hL,hb2,⟨hr,hsign,hpad⟩,hx2,hSlen,hs,hsignS,hpadS⟩
    rw [hfirst hr]
    refine ⟨by omega,hb0,by omega,hb2,hr,hsign,by omega,fun h h0 => ?_,hx2,by omega,hsignS,by omega,
      fun h => hpadS (by omega)⟩
    rw [hleft 1 h]
    exact hpad h h0

theorem exists_parts {sig : Bytes} (hsize : 8 ≤ sig.length) (hR : (sig.getD 3 0).toNat ≤ sig.length-7) :
    ∃ b0 L b2 lr x ls R S, sig = b0::L::b2::lr::(R++x::ls::S) ∧ lr.toNat = R.length := by
  obtain ⟨b0,L,b2,lr,t,rfl⟩ : ∃ b0 L b2 lr t, sig = b0::L::b2::lr::t := by
    rcases sig with _ | ⟨b0,_ | ⟨L,_ | ⟨b2,_ | ⟨lr,t⟩⟩⟩⟩
    iterate 4 simp at hsize
    exact ⟨b0,L,b2,lr,t,rfl⟩
  simp only [length_cons,getD_cons_succ,getD_cons_zero] at hsize hR
  have hdrop := length_drop (i := lr.toNat) (l := t)
  rcases hS : t.drop lr.toNat with _ | ⟨x,_ | ⟨ls,S⟩⟩
  · rw [hS,length_nil] at hdrop
    omega
  · rw [hS,length_singleton] at hdrop
    omega
  · refine ⟨b0,L,b2,lr,x,ls,t.take lr.toNat,S,?_,?_⟩
    · rw [← hS,take_append_drop]
    · rw [length_take]
      omega

/-- The check accepts exactly strict DER and reads nothing outside of the string. -/
theorem derSignature_exact (sig : Bytes) : (isValidDERSignatureEncoding sig = true ↔ StrictDER sig) ∧
      readDERSignatureEncoding sig = some (isValidDERSignatureEncoding sig) := by
  refine ⟨⟨fun h => ?_,?_⟩,readDERSignatureEncoding_eq sig⟩
  · have hsteps := h
    simp only [isValidDERSignatureEncoding,refuse_iff,Bool.or_eq_true,decide_eq_true_eq,not_or,not_lt] at hsteps
    obtain ⟨⟨hsize,-⟩,-,-,-,-,-,hR,-⟩ := hsteps
    obtain ⟨b0,L,b2,lr,x,ls,R,S,rfl,hlr⟩ := exists_parts hsize hR
    obtain ⟨hn,rfl,hL,rfl,hshortR,rfl,hls,hshortS⟩ := (isValidDERSignatureEncoding_parts hlr).mp h
    have hlen : (0x30::L::0x02::lr::(R++0x02::ls::S)).length = R.length+S.length+6 := by
      simp
      omega
    rw [StrictDER,hlen]
    exact ⟨hn.1,hn.2,L,lr,ls,R,S,rfl,hL,hlr,hls,hshortR,hshortS⟩
  · rintro ⟨hlow,hhigh,L,lr,ls,R,S,rfl,hL,hlr,hls,hshortR,hshortS⟩
    simp only [length_cons,length_append] at hlow hhigh hL
    exact (isValidDERSignatureEncoding_parts hlr).mpr ⟨by omega,rfl,by omega,rfl,hshortR,rfl,hls,hshortS⟩
end Encodings
end BitfiniteCore
