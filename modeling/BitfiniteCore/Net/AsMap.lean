import BitfiniteCore.Primitives.Amount
import Mathlib.Data.List.Infix

/-! # Maps from addresses to autonomous systems -/

namespace BitfiniteCore
open List

def asmapInvalid : UInt32 := 0xffffffff

def decodeMantissa (val : UInt32) : Nat → List Bool → UInt32 × List Bool
  | 0, bitpos => (val,bitpos)
  | _+1, [] => (asmapInvalid,[])
  | b+1, bit::bitpos => decodeMantissa (val+(if bit then 1 else 0) <<< UInt32.ofNat b) b bitpos

/-- The last size has no exponent bit in front of its mantissa. -/
def decodeBits (val : UInt32) : List Nat → List Bool → UInt32 × List Bool
  | [], bitpos => (asmapInvalid,bitpos)
  | [size], bitpos => decodeMantissa val size bitpos
  | _::_::_, [] => (asmapInvalid,[])
  | size::size'::sizes, bit::bitpos =>
    if bit then decodeBits (val+1 <<< UInt32.ofNat size) (size'::sizes) bitpos
    else decodeMantissa val size bitpos

inductive Instruction where
  | RETURN
  | JUMP
  | MATCH
  | DEFAULT
deriving DecidableEq, Repr

/-- The cast to the enumeration; `none` is a value outside of it. -/
def Instruction.ofValue (v : UInt32) : Option Instruction :=
  if v = 0 then some RETURN
  else if v = 1 then some JUMP
  else if v = 2 then some MATCH
  else if v = 3 then some DEFAULT
  else none

def decodeType (bitpos : List Bool) : Option Instruction × List Bool :=
  let r := decodeBits 0 [0,0,1] bitpos
  (Instruction.ofValue r.1,r.2)

def decodeASN (bitpos : List Bool) : UInt32 × List Bool := decodeBits 1 [15,16,17,18,19,20,21,22,23,24] bitpos

def decodeMatch (bitpos : List Bool) : UInt32 × List Bool := decodeBits 2 [1,2,3,4,5,6,7,8] bitpos

def decodeJump (bitpos : List Bool) : UInt32 × List Bool :=
  decodeBits 17 [5,6,7,8,9,10,11,12,13,14,15,16,17,18,19,20,21,22,23,24,25,26,27,28,29,30] bitpos

/-- `CountBits`: the position of the highest bit, counted from one. -/
def countBits32 (x : UInt32) : UInt32 := if x = 0 then 0 else UInt32.ofNat (Nat.log2 x.toNat+1)

def matchBits (ip : List Bool) (match_ : UInt32) : Nat → Nat → Except Stop (Option Nat)
  | 0, bits => .ok (some bits)
  | left+1, bits =>
    match ip[ip.length-bits]? with
    | none => .error (.logicError "ip out of range")
    | some bit => if bit ≠ match_.toNat.testBit left then .ok none else matchBits ip match_ left (bits-1)

/-- The loop of `Interpret`; every break leads to the assertion behind the loop. -/
def interpretLoop (ip : List Bool) : Nat → List Bool → Nat → UInt32 → Except Stop UInt32
  | 0, _, _, _ => .error (.runtimeError "rounds")
  | rounds+1, pos, bits, default_asn =>
    if pos = [] then .error (.assertion "false")
    else
      match decodeType pos with
      | (some .RETURN,pos) =>
        let r := decodeASN pos
        if r.1 = asmapInvalid then .error (.assertion "false") else .ok r.1
      | (some .JUMP,pos) =>
        let r := decodeJump pos
        if r.1 = asmapInvalid then .error (.assertion "false")
        else if bits = 0 then .error (.assertion "false")
        else if r.1.toNat ≥ r.2.length then .error (.assertion "false")
        else
          match ip[ip.length-bits]? with
          | none => .error (.logicError "ip out of range")
          | some bit => interpretLoop ip rounds (if bit then r.2.drop r.1.toNat else r.2) (bits-1) default_asn
      | (some .MATCH,pos) =>
        let r := decodeMatch pos
        if r.1 = asmapInvalid then .error (.assertion "false")
        else
          let matchlen := countBits32 r.1-1
          if bits < matchlen.toNat then .error (.assertion "false")
          else
            match matchBits ip r.1 matchlen.toNat bits with
            | .error e => .error e
            | .ok none => .ok default_asn
            | .ok (some bits) => interpretLoop ip rounds r.2 bits default_asn
      | (some .DEFAULT,pos) =>
        let r := decodeASN pos
        if r.1 = asmapInvalid then .error (.assertion "false") else interpretLoop ip rounds r.2 bits r.1
      | (none,_) => .error (.assertion "false")

def interpret (asmap ip : List Bool) : Except Stop UInt32 := interpretLoop ip (asmap.length+1) asmap (ip.length%2^8) 0

structure AsMapCheck where
  pos : List Bool
  jumps : List (Nat × Nat)
  bits : Nat
  prevopcode : Instruction
  had_incomplete_match : Bool

def reachesJump (offset : Nat) (jumps : List (Nat × Nat)) : Bool :=
  match jumps with
  | [] => false
  | j::_ => decide (j.1 ≤ offset)

def AsMapCheck.offset (asmap pos : List Bool) : Nat := (asmap.length-pos.length)%2^32

def AsMapCheck.step (asmap : List Bool) (s : AsMapCheck) : Bool ⊕ AsMapCheck :=
  if s.pos = [] then .inl false
  else if reachesJump (offset asmap s.pos) s.jumps then .inl false
  else
    match decodeType s.pos with
    | (some .RETURN,pos) =>
      if s.prevopcode = .DEFAULT then .inl false
      else
        let r := decodeASN pos
        if r.1 = asmapInvalid then .inl false
        else
          match s.jumps with
          | [] => .inl (decide (r.2.length ≤ 7) && r.2.all (fun bit => !bit))
          | j::jumps =>
            if offset asmap r.2 ≠ j.1 then .inl false
            else .inr ⟨r.2,jumps,j.2,.JUMP,s.had_incomplete_match⟩
    | (some .JUMP,pos) =>
      let r := decodeJump pos
      if r.1 = asmapInvalid then .inl false
      else if r.1.toNat > r.2.length then .inl false
      else if s.bits = 0 then .inl false
      else
        let jump_offset := (asmap.length-r.2.length+r.1.toNat)%2^32
        if reachesJump jump_offset s.jumps then .inl false
        else .inr ⟨r.2,(jump_offset,s.bits-1)::s.jumps,s.bits-1,.JUMP,s.had_incomplete_match⟩
    | (some .MATCH,pos) =>
      let r := decodeMatch pos
      if r.1 = asmapInvalid then .inl false
      else
        let matchlen := countBits32 r.1-1
        let had := if s.prevopcode ≠ .MATCH then false else s.had_incomplete_match
        if matchlen < 8 ∧ had = true then .inl false
        else if s.bits < matchlen.toNat then .inl false
        else .inr ⟨r.2,s.jumps,s.bits-matchlen.toNat,.MATCH,decide (matchlen < 8)⟩
    | (some .DEFAULT,pos) =>
      if s.prevopcode = .DEFAULT then .inl false
      else
        let r := decodeASN pos
        if r.1 = asmapInvalid then .inl false
        else .inr ⟨r.2,s.jumps,s.bits,.DEFAULT,s.had_incomplete_match⟩
    | (none,_) => .inl false

def AsMapCheck.loop (asmap : List Bool) : Nat → AsMapCheck → Bool
  | 0, _ => false
  | rounds+1, s =>
    match s.step asmap with
    | .inl result => result
    | .inr s => loop asmap rounds s

def sanityCheckASMap (asmap : List Bool) (bits : Nat) : Bool :=
  AsMapCheck.loop asmap (asmap.length+1) ⟨asmap,[],bits,.JUMP,false⟩

section Decoding

theorem decodeMantissa_suffix (val : UInt32) (b : Nat) (pos : List Bool) : (decodeMantissa val b pos).2 <:+ pos := by
  induction pos generalizing val b with
  | nil =>
    cases b with
    | zero => simp [decodeMantissa]
    | succ b => simp [decodeMantissa]
  | cons bit pos ih =>
    cases b with
    | zero => simp [decodeMantissa]
    | succ b => exact (ih _ b).trans (suffix_cons bit pos)

theorem decodeBits_suffix (val : UInt32) (sizes : List Nat) (pos : List Bool) : (decodeBits val sizes pos).2 <:+ pos := by
  induction sizes generalizing val pos with
  | nil => simp [decodeBits]
  | cons size sizes ih =>
    cases sizes with
    | nil => exact decodeMantissa_suffix val size pos
    | cons size' sizes =>
      cases pos with
      | nil => simp [decodeBits]
      | cons bit pos =>
        rw [decodeBits]
        split
        · exact (ih _ pos).trans (suffix_cons bit pos)
        · exact (decodeMantissa_suffix val size pos).trans (suffix_cons bit pos)

theorem decodeType_suffix {pos rest : List Bool} {opcode : Instruction} (h : decodeType pos = (some opcode,rest)) :
    rest <:+ pos ∧ rest.length < pos.length := by
  cases pos with
  | nil => cases h
  | cons bit pos =>
    have hrest : rest <:+ pos := by
      rw [← (Prod.mk.inj h).2]
      cases bit with
      | true => exact decodeBits_suffix _ _ pos
      | false => exact decodeMantissa_suffix _ _ pos
    have hlen := hrest.length_le
    exact ⟨hrest.trans (suffix_cons bit pos),by simp only [length_cons]; omega⟩

theorem decodeType_ne_nil {pos rest : List Bool} {opcode : Instruction} (h : decodeType pos = (some opcode,rest)) :
    pos ≠ [] := by
  intro hnil
  have := (decodeType_suffix h).2
  simp [hnil] at this
end Decoding

section Runs

/-- Every run of the interpreter from here with `bits` bits of the address left returns. -/
def Returns (pos : List Bool) (bits : Nat) : Prop :=
  ∀ (ip : List Bool) (rounds : Nat) (default_asn : UInt32), bits ≤ ip.length → pos.length < rounds →
    ∃ asn, interpretLoop ip rounds pos bits default_asn = .ok asn

variable {pos rest : List Bool} {bits : Nat}

theorem not_returns_nil (bits : Nat) : ¬Returns [] bits := by
  intro h
  obtain ⟨asn,hok⟩ := h (replicate bits false) 1 0 (by simp) (by simp)
  simp [interpretLoop] at hok

private theorem ip_bit {ip : List Bool} (hpos : 0 < bits) (hle : bits ≤ ip.length) :
    ∃ bit, ip[ip.length-bits]? = some bit :=
  ⟨_,getElem?_eq_getElem (by omega)⟩

theorem returns_return (hop : decodeType pos = (some .RETURN,rest)) (hasn : (decodeASN rest).1 ≠ asmapInvalid) :
    Returns pos bits := by
  intro ip rounds default_asn hbits hrounds
  cases rounds with
  | zero => omega
  | succ rounds =>
    refine ⟨(decodeASN rest).1,?_⟩
    simp [interpretLoop,decodeType_ne_nil hop,hop,hasn]

theorem returns_default (hop : decodeType pos = (some .DEFAULT,rest)) (hasn : (decodeASN rest).1 ≠ asmapInvalid)
    (hnext : Returns (decodeASN rest).2 bits) : Returns pos bits := by
  intro ip rounds default_asn hbits hrounds
  cases rounds with
  | zero => omega
  | succ rounds =>
    have hlen := (decodeBits_suffix 1 [15,16,17,18,19,20,21,22,23,24] rest).length_le
    rw [← decodeASN] at hlen
    have hop' := (decodeType_suffix hop).2
    obtain ⟨asn,hok⟩ := hnext ip rounds (decodeASN rest).1 hbits (by omega)
    refine ⟨asn,?_⟩
    simp [interpretLoop,decodeType_ne_nil hop,hop,hasn,hok]

theorem returns_jump (hop : decodeType pos = (some .JUMP,rest)) (hjump : (decodeJump rest).1 ≠ asmapInvalid)
    (hfall : Returns (decodeJump rest).2 bits)
    (htarget : Returns ((decodeJump rest).2.drop (decodeJump rest).1.toNat) bits) : Returns pos (bits+1) := by
  intro ip rounds default_asn hbits hrounds
  have hin : ¬(decodeJump rest).1.toNat ≥ (decodeJump rest).2.length := by
    -- a jump to the very end leads to a position that no run returns from
    intro hge
    rw [drop_eq_nil_of_le hge] at htarget
    exact not_returns_nil bits htarget
  cases rounds with
  | zero => omega
  | succ rounds =>
    have hlen : (decodeJump rest).2.length ≤ rest.length := (decodeBits_suffix 17 _ rest).length_le
    have hop' := (decodeType_suffix hop).2
    obtain ⟨bit,hbit⟩ := ip_bit (by omega) hbits
    have hnext : ∃ asn, interpretLoop ip rounds
        (if bit then (decodeJump rest).2.drop (decodeJump rest).1.toNat else (decodeJump rest).2) bits default_asn =
          .ok asn := by
      cases bit with
      | true => exact htarget ip rounds default_asn (by omega) (by simp only [length_drop]; omega)
      | false => exact hfall ip rounds default_asn (by omega) (by omega)
    obtain ⟨asn,hok⟩ := hnext
    refine ⟨asn,?_⟩
    rw [interpretLoop,if_neg (decodeType_ne_nil hop),hop]
    dsimp only
    rw [if_neg hjump,if_neg (by omega),if_neg hin,hbit]
    exact hok

private theorem matchBits_ok {ip : List Bool} (match_ : UInt32) (left bits : Nat) (hleft : left ≤ bits)
    (hbits : bits ≤ ip.length) :
    matchBits ip match_ left bits = .ok none ∨ matchBits ip match_ left bits = .ok (some (bits-left)) := by
  induction left generalizing bits with
  | zero => simp [matchBits]
  | succ left ih =>
    obtain ⟨bit,hbit⟩ := ip_bit (by omega) hbits
    rw [matchBits,hbit]
    dsimp only
    split
    · exact .inl rfl
    · have hrest := ih (bits-1) (by omega) (by omega)
      rwa [show bits-1-left = bits-(left+1) by omega] at hrest

theorem returns_match (hop : decodeType pos = (some .MATCH,rest)) (hmatch : (decodeMatch rest).1 ≠ asmapInvalid)
    (hbits : (countBits32 (decodeMatch rest).1-1).toNat ≤ bits)
    (hnext : Returns (decodeMatch rest).2 (bits-(countBits32 (decodeMatch rest).1-1).toNat)) : Returns pos bits := by
  intro ip rounds default_asn hip hrounds
  cases rounds with
  | zero => omega
  | succ rounds =>
    have hlen : (decodeMatch rest).2.length ≤ rest.length := (decodeBits_suffix 2 _ rest).length_le
    have hop' := (decodeType_suffix hop).2
    rw [interpretLoop,if_neg (decodeType_ne_nil hop),hop]
    dsimp only
    rw [if_neg hmatch,if_neg (by omega)]
    rcases matchBits_ok (decodeMatch rest).1 _ bits hbits hip with hm | hm
    · rw [hm]
      exact ⟨default_asn,rfl⟩
    · rw [hm]
      exact hnext ip rounds default_asn (by omega) (by omega)
end Runs

section Check

variable {asmap : List Bool} {s s' : AsMapCheck}

/-- Runs return from the current position and from the targets of all jumps that were seen. -/
structure AsMapCheck.Sound (asmap : List Bool) (s : AsMapCheck) : Prop where
  here : Returns s.pos s.bits
  targets : ∀ j ∈ s.jumps, Returns (asmap.drop j.1) j.2

private theorem drop_offset {pos : List Bool} (hpos : pos <:+ asmap) (hlen : asmap.length < 2^32) :
    asmap.drop (AsMapCheck.offset asmap pos) = pos := by
  rw [AsMapCheck.offset,Nat.mod_eq_of_lt (by omega)]
  exact (suffix_iff_eq_drop.mp hpos).symm

inductive AsMapCheck.Goes (asmap : List Bool) (s : AsMapCheck) : Bool ⊕ AsMapCheck → Prop where
  | refused : Goes asmap s (.inl false)
  | ended {rest : List Bool} (ok : Bool) (hop : decodeType s.pos = (some .RETURN,rest))
      (hasn : (decodeASN rest).1 ≠ asmapInvalid) (hjumps : s.jumps = []) : Goes asmap s (.inl ok)
  | returned {rest : List Bool} {j : Nat × Nat} {jumps : List (Nat × Nat)} (hop : decodeType s.pos = (some .RETURN,rest))
      (hasn : (decodeASN rest).1 ≠ asmapInvalid) (hjumps : s.jumps = j::jumps)
      (htarget : offset asmap (decodeASN rest).2 = j.1) :
      Goes asmap s (.inr ⟨(decodeASN rest).2,jumps,j.2,.JUMP,s.had_incomplete_match⟩)
  | jumped {rest : List Bool} (hop : decodeType s.pos = (some .JUMP,rest)) (hjump : (decodeJump rest).1 ≠ asmapInvalid)
      (hin : (decodeJump rest).1.toNat ≤ (decodeJump rest).2.length) (hbits : s.bits ≠ 0) :
      Goes asmap s (.inr ⟨(decodeJump rest).2,
        ((asmap.length-(decodeJump rest).2.length+(decodeJump rest).1.toNat)%2^32,s.bits-1)::s.jumps,s.bits-1,.JUMP,
        s.had_incomplete_match⟩)
  | matched {rest : List Bool} (had : Bool) (hop : decodeType s.pos = (some .MATCH,rest))
      (hmatch : (decodeMatch rest).1 ≠ asmapInvalid) (hbits : (countBits32 (decodeMatch rest).1-1).toNat ≤ s.bits) :
      Goes asmap s (.inr ⟨(decodeMatch rest).2,s.jumps,s.bits-(countBits32 (decodeMatch rest).1-1).toNat,.MATCH,had⟩)
  | defaulted {rest : List Bool} (hop : decodeType s.pos = (some .DEFAULT,rest))
      (hasn : (decodeASN rest).1 ≠ asmapInvalid) :
      Goes asmap s (.inr ⟨(decodeASN rest).2,s.jumps,s.bits,.DEFAULT,s.had_incomplete_match⟩)

theorem AsMapCheck.step_goes (asmap : List Bool) (s : AsMapCheck) : Goes asmap s (s.step asmap) := by
  rw [AsMapCheck.step]
  split
  · exact .refused
  split
  · exact .refused
  cases hop : decodeType s.pos with
  | mk opcode rest =>
    cases opcode with
    | none => exact .refused
    | some opcode =>
      cases opcode with
      | RETURN =>
        dsimp only
        split_ifs with hdefault hasn
        · exact .refused
        · exact .refused
        split
        · rename_i hjumps
          exact .ended _ hop hasn hjumps
        · rename_i j jumps hjumps
          split_ifs with htarget
          · exact .refused
          · exact .returned hop hasn hjumps (not_not.mp htarget)
      | JUMP =>
        dsimp only
        split_ifs with hjump hin hbits hreach
        · exact .refused
        · exact .refused
        · exact .refused
        · exact .refused
        · exact .jumped hop hjump (Nat.le_of_not_gt hin) hbits
      | MATCH =>
        dsimp only
        generalize (if s.prevopcode ≠ .MATCH then false else s.had_incomplete_match) = had
        split_ifs with hmatch hshort hbits
        · exact .refused
        · exact .refused
        · exact .refused
        · exact .matched _ hop hmatch (Nat.le_of_not_gt hbits)
      | DEFAULT =>
        dsimp only
        split_ifs with hdefault hasn
        · exact .refused
        · exact .refused
        · exact .defaulted hop hasn

private theorem shorter {pos rest pos' : List Bool} {opcode : Instruction} (hop : decodeType pos = (some opcode,rest))
    (hpos : pos' <:+ rest) : pos' <:+ pos ∧ pos'.length < pos.length := by
  have htype := decodeType_suffix hop
  have := hpos.length_le
  exact ⟨hpos.trans htype.1,by omega⟩

theorem AsMapCheck.step_suffix (h : s.step asmap = .inr s') : s'.pos <:+ s.pos ∧ s'.pos.length < s.pos.length := by
  have hgoes := AsMapCheck.step_goes asmap s
  rw [h] at hgoes
  cases hgoes with
  | returned hop => exact shorter hop (decodeBits_suffix ..)
  | jumped hop => exact shorter hop (decodeBits_suffix ..)
  | matched had hop => exact shorter hop (decodeBits_suffix ..)
  | defaulted hop => exact shorter hop (decodeBits_suffix ..)

theorem AsMapCheck.sound_of_done (h : s.step asmap = .inl true) : s.Sound asmap := by
  have hgoes := AsMapCheck.step_goes asmap s
  rw [h] at hgoes
  cases hgoes with
  | ended _ hop hasn hjumps => exact ⟨returns_return hop hasn,by simp [hjumps]⟩

theorem AsMapCheck.sound_of_step (hlen : asmap.length < 2^32) (hpos : s.pos <:+ asmap)
    (h : s.step asmap = .inr s') (hs : s'.Sound asmap) : s.Sound asmap := by
  have hsuffix := (AsMapCheck.step_suffix h).1.trans hpos
  have hgoes := AsMapCheck.step_goes asmap s
  rw [h] at hgoes
  cases hgoes with
  | returned hop hasn hjumps htarget =>
    refine ⟨returns_return hop hasn,?_⟩
    rw [hjumps]
    intro k hk
    rcases mem_cons.mp hk with rfl | hk
    · -- the jump at the top of the stack leads to the position right behind the RETURN
      rw [← htarget,drop_offset hsuffix hlen]
      exact hs.here
    · exact hs.targets k hk
  | @jumped rest hop hjump hin hbits =>
    have htarget := hs.targets _ (mem_cons_self ..)
    have hrest : asmap.drop (asmap.length-(decodeJump rest).2.length) = (decodeJump rest).2 :=
      (suffix_iff_eq_drop.mp hsuffix).symm
    have hle : (decodeJump rest).2.length ≤ asmap.length := hsuffix.length_le
    rw [Nat.mod_eq_of_lt (by omega),← drop_drop,hrest] at htarget
    refine ⟨?_,fun k hk => hs.targets k (mem_cons_of_mem _ hk)⟩
    have hreturns := returns_jump hop hjump hs.here htarget
    rwa [Nat.sub_add_cancel (by omega)] at hreturns
  | matched had hop hmatch hbits => exact ⟨returns_match hop hmatch hbits hs.here,hs.targets⟩
  | defaulted hop hasn => exact ⟨returns_default hop hasn hs.here,hs.targets⟩

theorem AsMapCheck.sound_of_loop (hlen : asmap.length < 2^32) {rounds : Nat} (hpos : s.pos <:+ asmap)
    (h : AsMapCheck.loop asmap rounds s = true) : s.Sound asmap := by
  induction rounds generalizing s with
  | zero => cases h
  | succ rounds ih =>
    rw [AsMapCheck.loop] at h
    cases hstep : s.step asmap with
    | inl result =>
      rw [hstep] at h
      dsimp only at h
      rw [h] at hstep
      exact AsMapCheck.sound_of_done hstep
    | inr s' =>
      rw [hstep] at h
      exact AsMapCheck.sound_of_step hlen hpos hstep (ih ((AsMapCheck.step_suffix hstep).1.trans hpos) h)

/-- Rounds beyond the length of the map change nothing. -/
theorem AsMapCheck.loop_rounds {rounds rounds' : Nat} (h : s.pos.length < rounds) (h' : s.pos.length < rounds') :
    AsMapCheck.loop asmap rounds s = AsMapCheck.loop asmap rounds' s := by
  induction rounds generalizing s rounds' with
  | zero => omega
  | succ rounds ih =>
    cases rounds' with
    | zero => omega
    | succ rounds' =>
      rw [AsMapCheck.loop,AsMapCheck.loop]
      cases hstep : s.step asmap with
      | inl result => rfl
      | inr s' =>
        have hlt := (AsMapCheck.step_suffix hstep).2
        exact ih (by omega) (by omega)
end Check

/-- A map that passes the check is interpreted without an assertion on every address of the given size. -/
theorem interpret_of_sanityCheck (asmap : List Bool) (n : Nat) (hlen : asmap.length < 2^32) (hn : n ≤ 255)
    (hcheck : sanityCheckASMap asmap n = true) (ip : List Bool) (hip : ip.length = n) :
    ∃ asn, interpret asmap ip = .ok asn := by
  have hsound := AsMapCheck.sound_of_loop hlen suffix_rfl hcheck
  rw [interpret,Nat.mod_eq_of_lt (by omega),hip]
  exact hsound.here ip (asmap.length+1) 0 (by simp [hip]) (by simp)

def jumpMap : List Bool := [true,false]++replicate 6 false++replicate 16 false++[true]++replicate 17 false

theorem interpret_of_sanityCheck_jumpMap :
    sanityCheckASMap jumpMap 1 = true ∧ ∃ asn, interpret jumpMap [true] = .ok asn :=
  ⟨by decide,interpret_of_sanityCheck jumpMap 1 (by decide) (by decide) (by decide) [true] rfl⟩
end BitfiniteCore
