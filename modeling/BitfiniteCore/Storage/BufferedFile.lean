import BitfiniteCore.Primitives.Token
import BitfiniteCore.Lib.GuardedRun
import BitfiniteCore.Lib.RingWindow

/-! # Buffered files -/

namespace BitfiniteCore
open RingWindow List

structure CBufferedFile where
  src : Bytes
  nSrcPos : Nat
  nReadPos : Nat
  nReadLimit : Nat
  nRewind : Nat
  vchBuf : Bytes
deriving DecidableEq

namespace CBufferedFile

def init (fileIn : Bytes) (nBufSize nRewindIn : Nat) : CBufferedFile :=
  ⟨fileIn,0,0,2^64-1,nRewindIn,replicate nBufSize 0⟩

/-- `fread` returns what was asked for unless the file ends before. -/
def fill (f : CBufferedFile) : Except Stop CBufferedFile :=
  let pos := f.nSrcPos%f.vchBuf.length%2^32
  let readNow := (f.vchBuf.length-pos)%2^32
  let nAvail := (((f.vchBuf.length : Int)-(f.nSrcPos-f.nReadPos)-f.nRewind)%2^32).toNat
  let readNow := if nAvail < readNow then nAvail else readNow
  if readNow = 0 then .ok f
  else
    let bytes := (f.src.drop f.nSrcPos).take readNow
    if bytes = [] then .error (.runtimeError "CBufferedFile::Fill: end of file")
    else .ok { f with nSrcPos := f.nSrcPos+bytes.length, vchBuf := write f.vchBuf pos bytes }

def fillAtEnd (f : CBufferedFile) : Except Stop CBufferedFile :=
  if f.nReadPos = f.nSrcPos then f.fill else .ok f

def chunk (f : CBufferedFile) (nSize : Nat) : Nat :=
  let pos := f.nReadPos%f.vchBuf.length%2^32
  let nNow := if nSize+pos > f.vchBuf.length then f.vchBuf.length-pos else nSize
  if nNow+f.nReadPos > f.nSrcPos then f.nSrcPos-f.nReadPos else nNow

def readLoop : Nat → Nat → CBufferedFile → Except Stop (Bytes × CBufferedFile)
  | 0, _, _ => .error (.runtimeError "rounds")
  | rounds+1, nSize, f =>
    if nSize = 0 then .ok ([],f)
    else
      match f.fillAtEnd with
      | .error e => .error e
      | .ok f =>
        let pos := f.nReadPos%f.vchBuf.length%2^32
        let nNow := f.chunk nSize
        let bytes := (f.vchBuf.drop pos).take nNow
        match readLoop rounds (nSize-nNow) { f with nReadPos := f.nReadPos+nNow } with
        | .error e => .error e
        | .ok r => .ok (bytes++r.1,r.2)

def read (f : CBufferedFile) (rounds nSize : Nat) : Except Stop (Bytes × CBufferedFile) :=
  if nSize+f.nReadPos > f.nReadLimit then .error (.runtimeError "Read attempted past buffer limit")
  else if nSize+f.nRewind > f.vchBuf.length then .error (.runtimeError "Read larger than buffer size")
  else readLoop rounds nSize f

def setPos (f : CBufferedFile) (nPos : Nat) : Bool × CBufferedFile :=
  if nPos+f.nRewind < f.nSrcPos then (false,{ f with nReadPos := f.nSrcPos-f.nRewind })
  else if nPos > f.nSrcPos then (false,{ f with nReadPos := f.nSrcPos })
  else (true,{ f with nReadPos := nPos })

def setLimit (f : CBufferedFile) (nPos : Nat) : Bool × CBufferedFile :=
  if nPos < f.nReadPos then (false,f) else (true,{ f with nReadLimit := nPos })

def findByte : Nat → UInt8 → CBufferedFile → Except Stop CBufferedFile
  | 0, _, _ => .error (.runtimeError "rounds")
  | rounds+1, ch, f =>
    match f.fillAtEnd with
    | .error e => .error e
    | .ok f =>
      if f.vchBuf[f.nReadPos%f.vchBuf.length]? = some ch then .ok f
      else findByte rounds ch { f with nReadPos := f.nReadPos+1 }

section Window

variable {file : Bytes} {B R : Nat} {f f' : CBufferedFile}

/-- The ring holds the last bytes read, with the current position among them or at their end. -/
structure Sound (file : Bytes) (B R : Nat) (f : CBufferedFile) : Prop where
  src : f.src = file
  rewind : f.nRewind = R
  size : f.vchBuf.length = B
  pos : f.nReadPos ≤ f.nSrcPos
  window : f.nSrcPos ≤ f.nReadPos+B
  holds : RingWindow.Holds f.vchBuf file f.nSrcPos

theorem init_sound (file : Bytes) (B R : Nat) : (init file B R).Sound file B R := by
  refine ⟨rfl,rfl,by simp [init],le_rfl,by simp [init],⟨Nat.zero_le _,fun i hi => ?_⟩⟩
  simp [init] at hi

/-- No more has been read ahead than one `Fill` reads. -/
def Near (f : CBufferedFile) : Prop := f.nSrcPos+f.nRewind ≤ f.nReadPos+f.vchBuf.length

section

variable (h : f.Sound file B R)

include h

/-- Reading ahead is possible only at the end of the window. -/
theorem Sound.fill (hR : R < B) (hB : B < 2^32) (hend : f.nReadPos = f.nSrcPos) :
    (f.nSrcPos < file.length ∧ ∃ f', f.fill = .ok f' ∧ f'.Sound file B R ∧ f'.nReadPos = f.nReadPos ∧
      f'.nReadLimit = f.nReadLimit ∧ f'.nReadPos < f'.nSrcPos ∧ f'.Near) ∨
    (f.nSrcPos = file.length ∧ f.fill = .error (.runtimeError "CBufferedFile::Fill: end of file")) := by
  have hmod : f.nSrcPos%B < B := Nat.mod_lt _ (by omega)
  have hle := h.holds.le
  have hpos : f.nSrcPos%B%2^32 = f.nSrcPos%B := Nat.mod_eq_of_lt (by omega)
  have hnow : (B-f.nSrcPos%B)%2^32 = B-f.nSrcPos%B := Nat.mod_eq_of_lt (by omega)
  have havail : (((B : Int)-(f.nSrcPos-f.nReadPos)-R)%2^32).toNat = B-R := by
    rw [hend]
    omega
  rw [CBufferedFile.fill]
  simp only [h.size,h.rewind,h.src,hpos,hnow,havail]
  generalize hk : (if B-R < B-f.nSrcPos%B then B-R else B-f.nSrcPos%B) = k
  have hk' : 0 < k ∧ k ≤ B-R ∧ f.nSrcPos%B+k ≤ B := by
    split at hk <;> omega
  rw [if_neg (by omega)]
  by_cases hmore : f.nSrcPos < file.length
  · left
    have hlen : ((file.drop f.nSrcPos).take k).length = min k (file.length-f.nSrcPos) := by
      rw [length_take,length_drop]
    have hne : (file.drop f.nSrcPos).take k ≠ [] := by
      intro hnil
      rw [hnil,length_nil] at hlen
      omega
    have htake : (file.drop f.nSrcPos).take k = (file.drop f.nSrcPos).take (min k (file.length-f.nSrcPos)) := by
      rw [← length_drop]
      exact take_eq_take_min
    rw [if_neg hne]
    have hwrite : (write f.vchBuf (f.nSrcPos%B) ((file.drop f.nSrcPos).take k)).length = B := by
      rw [← h.size] at hk' ⊢
      exact write_length (by omega)
    refine ⟨hmore,_,rfl,⟨rfl,rfl,hwrite,?_,?_,?_⟩,rfl,rfl,?_,?_⟩
    · exact h.pos.trans (Nat.le_add_right _ _)
    · simp only [hlen]
      omega
    · have hw := h.holds.write (k := min k (file.length-f.nSrcPos)) (by rw [h.size]; omega) (by omega)
      rw [h.size,← htake] at hw
      simpa only [hlen] using hw
    · simp only [hlen]
      omega
    · simp only [Near,hwrite,hlen]
      omega
  · right
    have hnil : (file.drop f.nSrcPos).take k = [] := by
      rw [drop_eq_nil_of_le (by omega),take_nil]
    exact ⟨by omega,by rw [if_pos hnil]⟩

theorem Sound.fillAtEnd (hR : R < B) (hB : B < 2^32) :
    (f.nReadPos < file.length ∧ ∃ f', f.fillAtEnd = .ok f' ∧ f'.Sound file B R ∧ f'.nReadPos = f.nReadPos ∧
      f'.nReadLimit = f.nReadLimit ∧ f'.nReadPos < f'.nSrcPos ∧ (f.Near → f'.Near)) ∨
    (f.nReadPos = file.length ∧ f.fillAtEnd = .error (.runtimeError "CBufferedFile::Fill: end of file")) := by
  have hpos := h.pos
  have hle := h.holds.le
  by_cases hend : f.nReadPos = f.nSrcPos
  · rw [CBufferedFile.fillAtEnd,if_pos hend,hend]
    rcases h.fill hR hB hend with ⟨hmore,f',hf',hs,hsame,hlimit,hlt,hnear⟩ | hstop
    · exact .inl ⟨hmore,f',hf',hs,hsame.trans hend,hlimit,hlt,fun _ => hnear⟩
    · exact .inr hstop
  · rw [CBufferedFile.fillAtEnd,if_neg hend]
    exact .inl ⟨by omega,f,rfl,h,rfl,rfl,by omega,id⟩

theorem Sound.advance {k : Nat} (hk : f.nReadPos+k ≤ f.nSrcPos) :
    ({ f with nReadPos := f.nReadPos+k } : CBufferedFile).Sound file B R :=
  ⟨h.src,h.rewind,h.size,hk,by have := h.window; dsimp only; omega,h.holds⟩

omit h in
theorem Near.advance (h : f.Near) (k : Nat) : ({ f with nReadPos := f.nReadPos+k } : CBufferedFile).Near := by
  rw [Near] at h ⊢
  dsimp only
  omega

private theorem Sound.chunk (hR : R < B) (hB : B < 2^32) (hmore : f.nReadPos < f.nSrcPos)
    {nSize : Nat} (hsize : 0 < nSize) :
    0 < f.chunk nSize ∧ f.chunk nSize ≤ nSize ∧ f.nReadPos+f.chunk nSize ≤ f.nSrcPos ∧
      (f.vchBuf.drop (f.nReadPos%f.vchBuf.length%2^32)).take (f.chunk nSize) =
        (file.drop f.nReadPos).take (f.chunk nSize) := by
  have hmod : f.nReadPos%B < B := Nat.mod_lt _ (by omega)
  have hpos : f.nReadPos%f.vchBuf.length%2^32 = f.nReadPos%f.vchBuf.length := by
    rw [h.size]
    exact Nat.mod_eq_of_lt (by omega)
  have hchunk : 0 < f.chunk nSize ∧ f.chunk nSize ≤ nSize ∧ f.nReadPos+f.chunk nSize ≤ f.nSrcPos ∧
      f.nReadPos%B+f.chunk nSize ≤ B := by
    rw [CBufferedFile.chunk]
    simp only [h.size]
    split <;> split <;> omega
  refine ⟨hchunk.1,hchunk.2.1,hchunk.2.2.1,?_⟩
  rw [hpos]
  exact h.holds.slice hchunk.2.2.1 (by rw [h.size]; exact h.window) (by rw [h.size]; exact hchunk.2.2.2)

omit h in
private theorem take_split (l : Bytes) (p a b : Nat) : (l.drop p).take a++(l.drop (p+a)).take b = (l.drop p).take (a+b) := by
  rw [← drop_drop,take_add]

theorem Sound.readLoop (hR : R < B) (hB : B < 2^32) {rounds nSize : Nat} {bytes : Bytes}
    (hok : readLoop rounds nSize f = .ok (bytes,f')) :
    bytes = (file.drop f.nReadPos).take nSize ∧ f'.Sound file B R ∧ f'.nReadPos = f.nReadPos+nSize ∧
      f'.nReadLimit = f.nReadLimit ∧ (f.Near → f'.Near) := by
  induction rounds generalizing nSize f bytes with
  | zero => cases hok
  | succ rounds ih =>
    rw [CBufferedFile.readLoop] at hok
    split at hok
    · rename_i hzero
      cases hok
      exact ⟨by simp [hzero],h,by omega,rfl,id⟩
    rename_i hsize
    rcases h.fillAtEnd hR hB with ⟨-,g,hg,hs,hpos,hlimit,hmore,hnear⟩ | ⟨-,he⟩
    · rw [hg] at hok
      dsimp only at hok
      obtain ⟨hc1,hc2,hc3,hc4⟩ := hs.chunk hR hB hmore (Nat.pos_of_ne_zero hsize)
      rw [hc4] at hok
      cases hrest : CBufferedFile.readLoop rounds (nSize-g.chunk nSize) { g with nReadPos := g.nReadPos+g.chunk nSize } with
      | error e =>
        rw [hrest] at hok
        cases hok
      | ok r =>
        rw [hrest] at hok
        cases hok
        obtain ⟨hbytes,hsound,hpos',hlimit',hnear'⟩ := ih (hs.advance hc3) hrest
        dsimp only at hbytes hpos' hlimit'
        refine ⟨?_,hsound,by omega,hlimit'.trans hlimit,fun hn => hnear' ((hnear hn).advance _)⟩
        rw [hbytes,hpos,take_split,Nat.add_sub_cancel' hc2]
    · rw [he] at hok
      cases hok

theorem Sound.readLoop_returns (hR : R < B) (hB : B < 2^32) {rounds : Nat} (nSize : Nat)
    (hrounds : nSize < rounds) (hin : f.nReadPos+nSize ≤ file.length) : ∃ r, CBufferedFile.readLoop rounds nSize f = .ok r := by
  induction rounds generalizing nSize f with
  | zero => omega
  | succ rounds ih =>
    rw [CBufferedFile.readLoop]
    split
    · exact ⟨_,rfl⟩
    rename_i hsize
    rcases h.fillAtEnd hR hB with ⟨-,g,hg,hs,hpos,hlimit,hmore,-⟩ | ⟨hend,-⟩
    · rw [hg]
      dsimp only
      obtain ⟨hc1,hc2,hc3,-⟩ := hs.chunk hR hB hmore (Nat.pos_of_ne_zero hsize)
      obtain ⟨r,hr⟩ := ih (hs.advance hc3) (nSize-g.chunk nSize) (by omega) (by dsimp only; omega)
      rw [hr]
      exact ⟨_,rfl⟩
    · omega

private theorem Sound.current (hmore : f.nReadPos < f.nSrcPos) :
    f.vchBuf[f.nReadPos%f.vchBuf.length]? = file[f.nReadPos]? :=
  h.holds.cell f.nReadPos hmore (by rw [h.size]; exact h.window)

theorem Sound.findByte (hR : R < B) (hB : B < 2^32) {rounds : Nat} {ch : UInt8}
    (hok : CBufferedFile.findByte rounds ch f = .ok f') :
    f'.Sound file B R ∧ f'.nReadLimit = f.nReadLimit ∧ (f.Near → f'.Near) := by
  induction rounds generalizing f with
  | zero => cases hok
  | succ rounds ih =>
    rw [CBufferedFile.findByte] at hok
    rcases h.fillAtEnd hR hB with ⟨-,g,hg,hs,hpos,hlimit,hmore,hnear⟩ | ⟨-,he⟩
    · rw [hg] at hok
      dsimp only at hok
      split at hok
      · cases hok
        exact ⟨hs,hlimit,hnear⟩
      · obtain ⟨hsound,hlimit',hnear'⟩ := ih (hs.advance (by omega)) hok
        exact ⟨hsound,hlimit'.trans hlimit,fun hn => hnear' ((hnear hn).advance 1)⟩
    · rw [he] at hok
      cases hok

theorem Sound.findByte_next (hR : R < B) (hB : B < 2^32) {rounds : Nat} {ch : UInt8} (k : Nat)
    (hk : file[f.nReadPos+k]? = some ch) (hnone : ∀ j < k, file[f.nReadPos+j]? ≠ some ch) (hrounds : k < rounds) :
    ∃ f', CBufferedFile.findByte rounds ch f = .ok f' ∧ f'.nReadPos = f.nReadPos+k := by
  induction rounds generalizing f k with
  | zero => omega
  | succ rounds ih =>
    have hin := (List.getElem?_eq_some_iff.mp hk).1
    rw [CBufferedFile.findByte]
    rcases h.fillAtEnd hR hB with ⟨-,g,hg,hs,hpos,hlimit,hmore,-⟩ | ⟨hend,-⟩
    · rw [hg]
      dsimp only
      rw [hs.current hmore]
      cases k with
      | zero =>
        rw [Nat.add_zero,← hpos] at hk
        rw [if_pos hk]
        exact ⟨g,rfl,hpos⟩
      | succ k =>
        have hfirst := hnone 0 (by omega)
        rw [Nat.add_zero,← hpos] at hfirst
        rw [if_neg hfirst]
        have hshift : ∀ j, g.nReadPos+1+j = f.nReadPos+(j+1) := by
          intro j
          omega
        obtain ⟨f',hf',hpos'⟩ := ih (hs.advance (k := 1) (by omega)) k (by rw [hshift]; exact hk)
          (by intro j hj; rw [hshift]; exact hnone (j+1) (by omega)) (by omega)
        dsimp only at hpos'
        exact ⟨f',hf',by omega⟩
    · omega

theorem Sound.findByte_end (hR : R < B) (hB : B < 2^32) {rounds : Nat} {ch : UInt8}
    (hnone : ch ∉ file.drop f.nReadPos) (hrounds : file.length < f.nReadPos+rounds) :
    CBufferedFile.findByte rounds ch f = .error (.runtimeError "CBufferedFile::Fill: end of file") := by
  induction rounds generalizing f with
  | zero =>
    have := h.pos
    have := h.holds.le
    omega
  | succ rounds ih =>
    rw [CBufferedFile.findByte]
    rcases h.fillAtEnd hR hB with ⟨hin,g,hg,hs,hpos,-,hmore,-⟩ | ⟨-,he⟩
    · rw [hg]
      dsimp only
      rw [drop_eq_getElem_cons hin,mem_cons,not_or] at hnone
      have hcurrent : g.vchBuf[g.nReadPos%g.vchBuf.length]? ≠ some ch := by
        rw [hs.current hmore,hpos,getElem?_eq_getElem hin]
        exact fun heq => hnone.1 (Option.some.inj heq).symm
      rw [if_neg hcurrent]
      exact ih (hs.advance (k := 1) (by omega)) (by rw [hpos]; exact hnone.2) (by dsimp only; omega)
    · rw [he]

theorem Sound.read_inside (hR : R < B) (hB : B < 2^32) (nSize : Nat) (hsize : nSize ≤ B-R)
    (hlimit : nSize+f.nReadPos ≤ f.nReadLimit) (hin : f.nReadPos+nSize ≤ file.length) :
    ∃ f', f.read (nSize+1) nSize = .ok ((file.drop f.nReadPos).take nSize,f') ∧ f'.Sound file B R ∧
      f'.nReadPos = f.nReadPos+nSize ∧ f'.nReadLimit = f.nReadLimit ∧ (f.Near → f'.Near) := by
  obtain ⟨⟨bytes,f'⟩,hr⟩ := h.readLoop_returns hR hB nSize (Nat.lt_succ_self nSize) hin
  obtain ⟨rfl,hrest⟩ := h.readLoop hR hB hr
  refine ⟨f',?_,hrest⟩
  rw [CBufferedFile.read,if_neg (by omega),if_neg (by rw [h.rewind,h.size]; omega)]
  exact hr

theorem Sound.setPos_self (hnear : f.Near) (hhalf : B ≤ 2*R) :
    f.setPos f.nReadPos = (true,f) := by
  have hpos := h.pos
  have hrewind := h.rewind
  have hsize := h.size
  rw [Near] at hnear
  rw [CBufferedFile.setPos,if_neg (by omega),if_neg (by omega)]

theorem Sound.setPos (hR : R < B) (q : Nat) : (f.setPos q).2.Sound file B R := by
  have hrewind := h.rewind
  rw [CBufferedFile.setPos]
  split
  · exact ⟨h.src,h.rewind,h.size,by dsimp only; omega,by dsimp only; omega,h.holds⟩
  split
  · exact ⟨h.src,h.rewind,h.size,by dsimp only; omega,by dsimp only; omega,h.holds⟩
  · exact ⟨h.src,h.rewind,h.size,by dsimp only; omega,by dsimp only; omega,h.holds⟩

theorem Sound.withLimit (n : Nat) : ({ f with nReadLimit := n } : CBufferedFile).Sound file B R :=
  ⟨h.src,h.rewind,h.size,h.pos,h.window,h.holds⟩

theorem Sound.setLimit (n : Nat) : (f.setLimit n).2.Sound file B R := by
  rw [CBufferedFile.setLimit]
  split
  · exact h
  · exact h.withLimit n
end

end Window

section Runs

inductive Call where
  | read (nSize : Nat)
  | findByte (ch : UInt8)
  | setLimit (nPos : Nat)
  | setPos (nPos : Nat)

/-- A call that returns: one that runs past the end of the file throws. -/
def Step (f : CBufferedFile) (c : Call) (f' : CBufferedFile) : Prop :=
  match c with
  | .read nSize => ∃ rounds bytes, f.read rounds nSize = .ok (bytes,f')
  | .findByte ch => ∃ rounds, findByte rounds ch f = .ok f'
  | .setLimit nPos => (f.setLimit nPos).2 = f'
  | .setPos nPos => (f.setPos nPos).2 = f'

variable {file : Bytes} {B R : Nat} {f f' : CBufferedFile}

theorem Sound.step (h : f.Sound file B R) (hR : R < B) (hB : B < 2^32) {c : Call} (hstep : f.Step c f') :
    f'.Sound file B R := by
  cases c with
  | read nSize =>
    obtain ⟨rounds,bytes,hok⟩ := hstep
    rw [read] at hok
    split at hok
    · cases hok
    split at hok
    · cases hok
    · exact (h.readLoop hR hB hok).2.1
  | findByte ch =>
    obtain ⟨rounds,hok⟩ := hstep
    exact (h.findByte hR hB hok).1
  | setLimit nPos => exact hstep ▸ h.setLimit nPos
  | setPos nPos => exact hstep ▸ h.setPos hR nPos

/-- Reads return the bytes of the file; a rewind succeeds within the last `R` bytes read from it. -/
theorem bufferedFile_is_file (file : Bytes) (B R : Nat) (hR : R < B) (hB : B < 2^32) (f : CBufferedFile)
    (run : GuardedRun.Reaches Step (fun _ _ => True) (init file B R) f) :
    (∀ rounds nSize bytes f', f.read rounds nSize = .ok (bytes,f') →
      bytes = (file.drop f.nReadPos).take nSize ∧ f'.nReadPos = f.nReadPos+nSize) ∧
    (∀ nSize, nSize+R ≤ B → nSize+f.nReadPos ≤ f.nReadLimit → f.nReadPos+nSize ≤ file.length →
      ∀ rounds > nSize, ∃ r, f.read rounds nSize = .ok r) ∧
    (∀ ch k, file[f.nReadPos+k]? = some ch → (∀ j < k, file[f.nReadPos+j]? ≠ some ch) →
      ∀ rounds > k, ∃ f', findByte rounds ch f = .ok f' ∧ f'.nReadPos = f.nReadPos+k) ∧
    ∀ q, q ≤ f.nReadPos → f.nSrcPos ≤ q+R → f.setPos q = (true,{ f with nReadPos := q }) := by
  have hs : f.Sound file B R := run.invariant (init_sound file B R) (fun h _ hstep => h.step hR hB hstep)
  refine ⟨?_,?_,?_,?_⟩
  · intro rounds nSize bytes f' hok
    rw [read] at hok
    split at hok
    · cases hok
    split at hok
    · cases hok
    · have hread := hs.readLoop hR hB hok
      exact ⟨hread.1,hread.2.2.1⟩
  · intro nSize hsize hlimit hin rounds hrounds
    rw [read,if_neg (by omega),if_neg (by rw [hs.rewind,hs.size]; omega)]
    exact hs.readLoop_returns hR hB nSize hrounds hin
  · intro ch k hk hnone rounds hrounds
    exact hs.findByte_next hR hB k hk hnone hrounds
  · intro q hq hrewind
    have hpos := hs.pos
    rw [setPos,if_neg (by rw [hs.rewind]; omega),if_neg (by omega)]

def readAhead : CBufferedFile :=
  { init (replicate 20 7) 10 6 with nSrcPos := 4, nReadPos := 1, vchBuf := [7,7,7,7,0,0,0,0,0,0] }

theorem bufferedFile_is_file_readAhead :
    (init (replicate 20 7) 10 6).Step (.read 1) readAhead ∧ readAhead.setPos 0 = (true,{ readAhead with nReadPos := 0 }) := by
  have hstep : (init (replicate 20 7) 10 6).Step (.read 1) readAhead := ⟨2,[7],by decide⟩
  exact ⟨hstep,(bufferedFile_is_file (replicate 20 7) 10 6 (by decide) (by decide) readAhead
    (.tail .refl trivial hstep)).2.2.2 0 (by decide) (by decide)⟩

def readFarAhead : CBufferedFile :=
  { init (replicate 20 7) 10 1 with nSrcPos := 9, nReadPos := 1, vchBuf := [7,7,7,7,7,7,7,7,7,0] }

theorem bufferedFile_refuses_rewind : (init (replicate 20 7) 10 1).Step (.read 1) readFarAhead ∧
    readFarAhead.setPos 0 = (false,{ readFarAhead with nReadPos := 8 }) :=
  ⟨⟨2,[7],by decide⟩,by decide⟩
end Runs
end CBufferedFile
end BitfiniteCore
