import BitfiniteCore.Coins.Cache
import BitfiniteCore.Lib.Decoder
import BitfiniteCore.Storage.BufferedFile
import BitfiniteCore.Storage.Reindex

/-! # Reading the block files again -/

namespace BitfiniteCore
open List

structure MessageMagic where
  bytes : Bytes
  size : bytes.length = 4

namespace CBufferedFile

/-- What a `read` that throws leaves behind. -/
def afterThrow : Nat → Nat → CBufferedFile → CBufferedFile
  | 0, _, f => f
  | rounds+1, nSize, f =>
    if nSize = 0 then f
    else
      match f.fillAtEnd with
      | .error _ => f
      | .ok f => afterThrow rounds (nSize-f.chunk nSize) { f with nReadPos := f.nReadPos+f.chunk nSize }

/-- `operator>>`.  The file is returned also when it throws. -/
def unserialize {β : Type} : Decoder UInt8 β → CBufferedFile → Except Stop β × CBufferedFile
  | .done value, f => (.ok value,f)
  | .fail what, f => (.error (.runtimeError what),f)
  | .read n next, f =>
    match f.read (n+1) n with
    | .error e =>
      (.error e,if n+f.nReadPos > f.nReadLimit ∨ n+f.nRewind > f.vchBuf.length then f else afterThrow (n+1) n f)
    | .ok r => unserialize (next r.1) r.2

/-- `feof` can be clear although everything has been read. -/
def eof (f : CBufferedFile) (feof : Bool) : Prop := f.nReadPos = f.nSrcPos ∧ f.nSrcPos = f.src.length ∧ feof = true

instance (f : CBufferedFile) (feof : Bool) : Decidable (f.eof feof) := inferInstanceAs (Decidable (_ ∧ _))

def findHeader (diskMagic : MessageMagic) (f : CBufferedFile) : Except Stop (Nat × Option Nat × CBufferedFile) :=
  match findByte (f.src.length+1) (diskMagic.bytes.headD 0) f with
  | .error e => .error e
  | .ok f =>
    let nRewind := f.nReadPos+1
    match f.read 5 4 with
    | .error e => .error e
    | .ok (buf,f) =>
      if buf ≠ diskMagic.bytes then .ok (nRewind,none,f)
      else
        match f.read 5 4 with
        | .error e => .error e
        | .ok (bytes,f) =>
          let nSize := leNat bytes
          .ok (nRewind,if nSize < blockHeaderSize then none else some nSize,f)

variable {file : Bytes} {B R : Nat} {f : CBufferedFile} {β : Type}

theorem Sound.unserialize (h : f.Sound file B R) (hnear : f.Near) (hR : R < B) (hB : B < 2^32) {d : Decoder UInt8 β}
    {s rest : Bytes} {value : β} (hrun : d.run (B-R) s = some (value,rest)) {more : Bytes}
    (hs : file.drop f.nReadPos = s++more) (hlimit : f.nReadPos+s.length ≤ f.nReadLimit) :
    ∃ f', CBufferedFile.unserialize d f = (.ok value,f') ∧ f'.Sound file B R ∧ f'.Near ∧
      f'.nReadPos+rest.length = f.nReadPos+s.length := by
  induction d generalizing f s with
  | done v =>
    cases hrun
    exact ⟨f,rfl,h,hnear,rfl⟩
  | fail what => cases hrun
  | read n next ih =>
    rw [Decoder.run] at hrun
    split at hrun
    · rename_i hn
      have hlen : (file.drop f.nReadPos).length = s.length+more.length := by
        rw [hs,length_append]
      rw [length_drop] at hlen
      by_cases hzero : f.nReadPos ≤ file.length
      · obtain ⟨f',hf',hs',hpos,hlim,hnear'⟩ := h.read_inside hR hB n hn.1 (by omega) (by omega)
        rw [hs,take_append_of_le_length hn.2] at hf'
        have hdrop : file.drop f'.nReadPos = s.drop n++more := by
          rw [hpos,← drop_drop,hs,drop_append_of_le_length hn.2]
        have hlen' : (s.drop n).length = s.length-n := length_drop
        obtain ⟨g,hg,hgs,hgn,hgpos⟩ := ih _ hs' (hnear' hnear) hrun hdrop (by omega)
        rw [CBufferedFile.unserialize,hf']
        exact ⟨g,hg,hgs,hgn,by omega⟩
      · have := h.pos
        have := h.holds.le
        omega
    · cases hrun

theorem setLimit_eq {n : Nat} (hn : f.nReadPos ≤ n) : (f.setLimit n).2 = { f with nReadLimit := n } := by
  rw [CBufferedFile.setLimit,if_neg (by omega)]

theorem MessageMagic.cons (diskMagic : MessageMagic) : ∃ rest, diskMagic.bytes = diskMagic.bytes.headD 0::rest := by
  cases hm : diskMagic.bytes with
  | nil =>
    have hsize := diskMagic.size
    rw [hm] at hsize
    cases hsize
  | cons a rest => exact ⟨rest,rfl⟩

theorem Sound.findHeader (h : f.Sound file B R) (hnear : f.Near) (hR : R < B) (hB : B < 2^32) (hfour : 4 ≤ B-R)
    (hlimit : file.length ≤ f.nReadLimit) {diskMagic : MessageMagic} {padding more : Bytes} {nSize : Nat}
    (hpadding : diskMagic.bytes.headD 0 ∉ padding) (hsize : nSize < 2^32)
    (hs : file.drop f.nReadPos = padding++(diskMagic.bytes++(leBytes 4 nSize++more))) :
    ∃ f', CBufferedFile.findHeader diskMagic f = .ok (f.nReadPos+padding.length+1,
        if nSize < blockHeaderSize then none else some nSize,f') ∧
      f'.Sound file B R ∧ f'.Near ∧ f'.nReadPos = f.nReadPos+padding.length+8 ∧ file.drop f'.nReadPos = more := by
  obtain ⟨tail,htail⟩ := MessageMagic.cons diskMagic
  have hlen : (file.drop f.nReadPos).length = padding.length+(4+(4+more.length)) := by
    rw [hs]
    simp only [length_append,diskMagic.size,leBytes_length]
  rw [length_drop] at hlen
  have hat : ∀ j, file[f.nReadPos+j]? = (file.drop f.nReadPos)[j]? := fun j => getElem?_drop.symm
  have hfirst : file[f.nReadPos+padding.length]? = some (diskMagic.bytes.headD 0) := by
    rw [hat,hs,getElem?_append_right le_rfl,Nat.sub_self,htail]
    rfl
  have hbefore : ∀ j < padding.length, file[f.nReadPos+j]? ≠ some (diskMagic.bytes.headD 0) := by
    intro j hj heq
    rw [hat,hs,getElem?_append_left hj] at heq
    exact hpadding (mem_of_getElem? heq)
  have hnext : ∃ f1, CBufferedFile.findByte (f.src.length+1) (diskMagic.bytes.headD 0) f = .ok f1 ∧
      f1.nReadPos = f.nReadPos+padding.length :=
    h.findByte_next hR hB padding.length hfirst hbefore (by rw [h.src]; omega)
  obtain ⟨f1,hf1,hpos1⟩ := hnext
  obtain ⟨hs1,hlim1,hnear1⟩ := h.findByte hR hB hf1
  have hdrop1 : file.drop f1.nReadPos = diskMagic.bytes++(leBytes 4 nSize++more) := by
    rw [hpos1,← drop_drop,hs,drop_left]
  obtain ⟨f2,hf2,hs2,hpos2,hlim2,hnear2⟩ := hs1.read_inside hR hB 4 hfour (by omega) (by omega)
  rw [hdrop1,take_left' diskMagic.size] at hf2
  have hdrop2 : file.drop f2.nReadPos = leBytes 4 nSize++more := by
    rw [hpos2,← drop_drop,hdrop1,drop_left' diskMagic.size]
  obtain ⟨f3,hf3,hs3,hpos3,-,hnear3⟩ := hs2.read_inside hR hB 4 hfour (by omega) (by omega)
  rw [hdrop2,take_left' (leBytes_length 4 nSize)] at hf3
  have hdrop3 : file.drop f3.nReadPos = more := by
    rw [hpos3,← drop_drop,hdrop2,drop_left' (leBytes_length 4 nSize)]
  refine ⟨f3,?_,hs3,hnear3 (hnear2 (hnear1 hnear)),by omega,hdrop3⟩
  rw [CBufferedFile.findHeader,hf1]
  dsimp only
  rw [hf2]
  dsimp only
  rw [if_neg (not_not_intro rfl),hf3]
  dsimp only
  rw [leNat_leBytes,Nat.mod_eq_of_lt (by simpa using hsize),hpos1]
end CBufferedFile

/-- One record of a block file with the padding before it.  `body` is the serialized block. -/
structure BlockRecord (β : Type) where
  padding : Bytes
  body : Bytes
  block : β

structure BlockFile (β : Type) where
  records : List (BlockRecord β)
  padding : Bytes

section Files

variable {β H : Type} (diskMagic : MessageMagic)

def BlockRecord.bytes (r : BlockRecord β) : Bytes := r.padding++(diskMagic.bytes++(leBytes 4 r.body.length++r.body))

def recordsBytes (rs : List (BlockRecord β)) (padding : Bytes) : Bytes := rs.flatMap (BlockRecord.bytes diskMagic)++padding

def BlockFile.bytes (file : BlockFile β) : Bytes := recordsBytes diskMagic file.records file.padding

def recordsAt (nFile : Nat) : Nat → List (BlockRecord β) → List (β × FlatFilePos)
  | _, [] => []
  | start, r::rs =>
    let nPos := start+r.padding.length+8
    (r.block,⟨nFile,nPos⟩)::recordsAt nFile (nPos+r.body.length) rs

/-- `dbp->nPos` is an `unsigned int`. -/
def truncatePos (e : β × FlatFilePos) : β × FlatFilePos := (e.1,⟨e.2.nFile,e.2.nPos%2^32⟩)

def filesRecords : Nat → List (BlockFile β) → List (β × FlatFilePos)
  | _, [] => []
  | nFile, file::files => recordsAt nFile 0 file.records++filesRecords (nFile+1) files

/-- A record holds a block that can be read with reads of the size that the buffer allows. -/
structure BlockRecord.WellFormed (decodeBlock : Decoder UInt8 β) (r : BlockRecord β) : Prop where
  padding : diskMagic.bytes.headD 0 ∉ r.padding
  header : blockHeaderSize ≤ r.body.length
  size : r.body.length < 2^32
  body : decodeBlock.run (maxTxSize-8) r.body = some (r.block,[])

structure BlockFile.WellFormed (decodeBlock : Decoder UInt8 β) (file : BlockFile β) : Prop where
  records : ∀ r ∈ file.records, r.WellFormed diskMagic decodeBlock
  padding : diskMagic.bytes.headD 0 ∉ file.padding
  size : (file.bytes diskMagic).length < 2^32

variable (params : ReindexParams β H) (decodeBlock : Decoder UInt8 β)

def readBlockFromDisk (files : List Bytes) (pos : FlatFilePos) : Option β :=
  match files[pos.nFile]? with
  | none => none
  | some file =>
    match decodeBlock.run file.length (file.drop pos.nPos) with
    | none => none
    | some r => if params.checkProofOfWork r.1 then some r.1 else none

open CBufferedFile ReindexState

section Layout

variable {diskMagic params decodeBlock} {nFile : Nat}

theorem length_le_recordsBytes (diskMagic : MessageMagic) (rs : List (BlockRecord β)) (padding : Bytes) :
    rs.length ≤ (recordsBytes diskMagic rs padding).length := by
  induction rs with
  | nil => exact Nat.zero_le _
  | cons r rs ih =>
    simp only [recordsBytes,flatMap_cons,BlockRecord.bytes,length_append,length_cons,leBytes_length]
      at ih ⊢
    omega

theorem mem_recordsAt (file : Bytes) {padding : Bytes} {start : Nat} {rs : List (BlockRecord β)}
    (hfile : file.drop start = recordsBytes diskMagic rs padding) {e : β × FlatFilePos} (he : e ∈ recordsAt nFile start rs) :
    e.2.nFile = nFile ∧ ∃ r ∈ rs, r.block = e.1 ∧ ∃ more, file.drop e.2.nPos = r.body++more := by
  induction rs generalizing start with
  | nil => cases he
  | cons r rs ih =>
    have hpos : file.drop (start+r.padding.length+8) = r.body++recordsBytes diskMagic rs padding := by
      have hhead : file.drop start =
          (r.padding++diskMagic.bytes++leBytes 4 r.body.length)++(r.body++recordsBytes diskMagic rs padding) := by
        rw [hfile]
        simp only [recordsBytes,flatMap_cons,BlockRecord.bytes,append_assoc]
      rw [Nat.add_assoc,← drop_drop,hhead]
      exact drop_left' (by simp only [length_append,diskMagic.size,leBytes_length])
    rw [recordsAt] at he
    obtain rfl | he := mem_cons.mp he
    · exact ⟨rfl,r,mem_cons_self,rfl,_,hpos⟩
    · have hnext : file.drop (start+r.padding.length+8+r.body.length) = recordsBytes diskMagic rs padding := by
        rw [← drop_drop,hpos,drop_left]
      obtain ⟨hn,r',hr',hrest⟩ := ih hnext he
      exact ⟨hn,r',mem_cons_of_mem _ hr',hrest⟩

theorem BlockFile.WellFormed.truncate {file : BlockFile β} (h : file.WellFormed diskMagic decodeBlock) (nFile : Nat) :
    (recordsAt nFile 0 file.records).map truncatePos = recordsAt nFile 0 file.records := by
  have hsame : ∀ e ∈ recordsAt nFile 0 file.records, truncatePos e = e := by
    intro e he
    obtain ⟨-,r,hr,-,more,hdrop⟩ := mem_recordsAt (file.bytes diskMagic) rfl he
    have hlen := congrArg length hdrop
    rw [length_drop,length_append] at hlen
    have hheader := (h.records r hr).header
    have hsize := h.size
    rw [blockHeaderSize] at hheader
    rw [truncatePos,Nat.mod_eq_of_lt (by omega)]
  exact (map_congr_left hsame).trans (map_id' _)

theorem mem_filesRecords {files : List (BlockFile β)} {nFile : Nat} {e : β × FlatFilePos}
    (he : e ∈ filesRecords nFile files) :
    ∃ k file, files[k]? = some file ∧ e ∈ recordsAt (nFile+k) 0 file.records := by
  induction files generalizing nFile with
  | nil => cases he
  | cons file files ih =>
    rw [filesRecords] at he
    obtain he | he := mem_append.mp he
    · exact ⟨0,file,rfl,he⟩
    · obtain ⟨k,file',hk,hmem⟩ := ih he
      exact ⟨k+1,file',hk,by rwa [Nat.add_right_comm,Nat.add_assoc] at hmem⟩

theorem readsBack_files {files : List (BlockFile β)} (hwf : ∀ file ∈ files, file.WellFormed diskMagic decodeBlock) :
    ReadsBack params (filesRecords 0 files)
      (readBlockFromDisk params decodeBlock (files.map (BlockFile.bytes diskMagic))) := by
  intro e he
  obtain ⟨k,file,hk,hmem⟩ := mem_filesRecords he
  have hfile := hwf file (mem_of_getElem? hk)
  obtain ⟨hn,r,hr,hblock,more,hdrop⟩ := mem_recordsAt (file.bytes diskMagic) rfl hmem
  have hlen : r.body.length ≤ (file.bytes diskMagic).length := by
    have hlen := congrArg length hdrop
    rw [length_drop,length_append] at hlen
    omega
  rw [Nat.zero_add] at hn
  rw [readBlockFromDisk,hn,getElem?_map,hk]
  dsimp only [Option.map_some]
  rw [hdrop,Decoder.run_append (hfile.records r hr).body hlen,hblock]
end Layout

variable [DecidableEq H]

variable (readBlock : FlatFilePos → Option β) (feof : Nat → Bool) (nFile : Nat)

/-- The loop of `LoadExternalBlockFile`.  `feof` is the indicator of the file in each iteration. -/
def loadLoop : Nat → Nat → CBufferedFile → ReindexState β H → Except Stop (ReindexState β H)
  | 0, _, _, _ => .error (.runtimeError "rounds")
  | rounds+1, nRewind, f, s =>
    if f.eof (feof rounds) then .ok s
    else
      let f := (f.setPos nRewind).2
      let f := (f.setLimit (2^64-1)).2
      match findHeader diskMagic f with
      -- no valid header was found, unless the search itself was cut short
      | .error e => if e = .runtimeError "rounds" then .error e else .ok s
      | .ok (nRewind,none,f) => loadLoop rounds nRewind f s
      | .ok (nRewind,some nSize,f) =>
        let nBlockPos := f.nReadPos
        let dbp : FlatFilePos := ⟨nFile,nBlockPos%2^32⟩
        let f := (f.setLimit (nBlockPos+nSize)).2
        let f := (f.setPos nBlockPos).2
        match unserialize decodeBlock f with
        | (.error _,f) => loadLoop rounds nRewind f s
        | (.ok block,f) =>
          match processBlock params readBlock block dbp s with
          | .error e => .error e
          | .ok s => loadLoop rounds f.nReadPos f s

def loadExternalBlockFile (fileIn : Bytes) (s : ReindexState β H) : Except Stop (ReindexState β H) :=
  loadLoop diskMagic params decodeBlock readBlock feof nFile (fileIn.length+2) 0
    (CBufferedFile.init fileIn (2*maxTxSize) (maxTxSize+8)) s

variable {diskMagic params decodeBlock readBlock feof nFile}

private theorem buffer_sizes : maxTxSize+8 < 2*maxTxSize ∧ 2*maxTxSize < 2^32 ∧ 4 ≤ 2*maxTxSize-(maxTxSize+8) ∧
    2*maxTxSize ≤ 2*(maxTxSize+8) ∧ 2*maxTxSize-(maxTxSize+8) = maxTxSize-8 := by
  decide

theorem loadLoop_end {file : Bytes} {f : CBufferedFile} (hsound : f.Sound file (2*maxTxSize) (maxTxSize+8))
    (hsize : file.length < 2^64) {q : Nat} (hq : f.setPos q = (true,{ f with nReadPos := q }))
    (hnone : diskMagic.bytes.headD 0 ∉ file.drop q) (rounds : Nat) (s : ReindexState β H) :
    loadLoop diskMagic params decodeBlock readBlock feof nFile (rounds+1) q f s = .ok s := by
  obtain ⟨hR,hB,-⟩ := buffer_sizes
  have hsound' := hsound.setPos hR q
  rw [hq] at hsound'
  have hin : q ≤ file.length := hsound'.pos.trans hsound'.holds.le
  have hend : findHeader diskMagic { f with nReadPos := q, nReadLimit := 2^64-1 } =
      .error (.runtimeError "CBufferedFile::Fill: end of file") := by
    rw [findHeader,(hsound'.withLimit _).findByte_end hR hB hnone (by rw [hsound.src]; omega)]
  rw [loadLoop]
  split
  · rfl
  rw [hq]
  dsimp only
  rw [setLimit_eq (by dsimp only; omega),hend]
  rfl

variable (params decodeBlock readBlock feof nFile) in
theorem loadLoop_header {file padding more : Bytes} {f : CBufferedFile} {nSize : Nat}
    (hsound : f.Sound file (2*maxTxSize) (maxTxSize+8)) (hnear : f.Near) (hsize : file.length < 2^64)
    (hpadding : diskMagic.bytes.headD 0 ∉ padding) (hheader : blockHeaderSize ≤ nSize) (hn : nSize < 2^32)
    (hfile : file.drop f.nReadPos = padding++(diskMagic.bytes++(leBytes 4 nSize++more))) (rounds : Nat)
    (s : ReindexState β H) :
    ∃ g : CBufferedFile, g.Sound file (2*maxTxSize) (maxTxSize+8) ∧ g.Near ∧ g.nReadPos = f.nReadPos+padding.length+8 ∧
      g.nReadLimit = g.nReadPos+nSize ∧ file.drop g.nReadPos = more ∧
      loadLoop diskMagic params decodeBlock readBlock feof nFile (rounds+1) f.nReadPos f s =
        match unserialize decodeBlock g with
        | (.error _,f') =>
          loadLoop diskMagic params decodeBlock readBlock feof nFile rounds (f.nReadPos+padding.length+1) f' s
        | (.ok block,f') =>
          match processBlock params readBlock block ⟨nFile,g.nReadPos%2^32⟩ s with
          | .error e => .error e
          | .ok s => loadLoop diskMagic params decodeBlock readBlock feof nFile rounds f'.nReadPos f' s := by
  obtain ⟨hR,hB,hfour,hhalf,-⟩ := buffer_sizes
  have hlen : (file.drop f.nReadPos).length = padding.length+(4+(4+more.length)) := by
    rw [hfile]
    simp only [length_append,diskMagic.size,leBytes_length]
  rw [length_drop] at hlen
  have hmore : ¬ f.eof (feof rounds) := by
    rintro ⟨hend,hsrc,-⟩
    rw [hsound.src] at hsrc
    omega
  obtain ⟨f1,hf1,hs1,hnear1,hpos1,hdrop1⟩ := (hsound.withLimit (2^64-1)).findHeader hnear hR hB hfour
    (by dsimp only; omega) hpadding hn hfile
  dsimp only at hf1 hpos1
  have hs2 := hs1.withLimit (f1.nReadPos+nSize)
  refine ⟨_,hs2,hnear1,hpos1,rfl,hdrop1,?_⟩
  rw [loadLoop,if_neg hmore,hsound.setPos_self hnear hhalf]
  dsimp only
  rw [setLimit_eq (by omega),hf1,if_neg (by omega)]
  dsimp only
  rw [setLimit_eq (Nat.le_add_right _ _),hs2.setPos_self hnear1 hhalf]

theorem loadLoop_records {file padding : Bytes} {f : CBufferedFile} {rs : List (BlockRecord β)} {rounds : Nat}
    (hsound : f.Sound file (2*maxTxSize) (maxTxSize+8)) (hnear : f.Near) (hsize : file.length < 2^64)
    (hfile : file.drop f.nReadPos = recordsBytes diskMagic rs padding)
    (hrs : ∀ r ∈ rs, r.WellFormed diskMagic decodeBlock) (hpadding : diskMagic.bytes.headD 0 ∉ padding)
    (hrounds : rs.length < rounds) (s : ReindexState β H) :
    loadLoop diskMagic params decodeBlock readBlock feof nFile rounds f.nReadPos f s =
      processBlocks params readBlock ((recordsAt nFile f.nReadPos rs).map truncatePos) s := by
  obtain ⟨hR,hB,hfour,hhalf,hread⟩ := buffer_sizes
  induction rs generalizing f s rounds with
  | nil =>
    obtain ⟨rounds,rfl⟩ := Nat.exists_eq_add_one.mpr (Nat.zero_lt_of_lt hrounds)
    exact loadLoop_end hsound hsize (hsound.setPos_self hnear hhalf) (by rw [hfile]; exact hpadding) rounds s
  | cons r rs ih =>
    obtain ⟨rounds,rfl⟩ := Nat.exists_eq_add_one.mpr (Nat.zero_lt_of_lt hrounds)
    obtain ⟨hr,hrs⟩ := forall_mem_cons.mp hrs
    have hfile' : file.drop f.nReadPos =
        r.padding++(diskMagic.bytes++(leBytes 4 r.body.length++(r.body++recordsBytes diskMagic rs padding))) := by
      rw [hfile]
      simp only [recordsBytes,flatMap_cons,BlockRecord.bytes,append_assoc]
    obtain ⟨g,hg,hgnear,hgpos,hglimit,hgdrop,hloop⟩ := loadLoop_header params decodeBlock readBlock feof nFile hsound hnear
      hsize hr.padding hr.header hr.size hfile' rounds s
    have hbody := hr.body
    rw [← hread] at hbody
    obtain ⟨f',hf',hs',hnear',hpos'⟩ := hg.unserialize hgnear hR hB hbody hgdrop hglimit.ge
    rw [length_nil,Nat.add_zero] at hpos'
    have hdrop' : file.drop f'.nReadPos = recordsBytes diskMagic rs padding := by
      rw [hpos',← drop_drop,hgdrop,drop_left]
    rw [hloop,hf',recordsAt,map_cons,processBlocks,truncatePos,← hgpos]
    dsimp only
    cases processBlock params readBlock r.block ⟨nFile,g.nReadPos%2^32⟩ s with
    | error e => rfl
    | ok s' =>
      dsimp only
      rw [ih hs' hnear' hdrop' hrs (by simp only [length_cons] at hrounds; omega) s',hpos']

theorem initial_near (file : Bytes) : (CBufferedFile.init file (2*maxTxSize) (maxTxSize+8)).Near := by
  have hsizes := buffer_sizes
  simp only [Near,CBufferedFile.init,length_replicate]
  omega

/-- A block read with one read of more than `MAX_TX_SIZE-8` bytes is not found. -/
theorem loadExternalBlockFile_read_too_large {body : Bytes} (hheader : blockHeaderSize ≤ body.length)
    (hbody : body.length < 2^32) {n : Nat} {next : Bytes → Decoder UInt8 β} (hn : maxTxSize-8 < n)
    (hquiet : diskMagic.bytes.headD 0 ∉ diskMagic.bytes.tail++(leBytes 4 body.length++body)) (s : ReindexState β H) :
    loadExternalBlockFile diskMagic params (.read n next) readBlock feof nFile
      (diskMagic.bytes++(leBytes 4 body.length++body)) s = .ok s := by
  generalize hfile : diskMagic.bytes++(leBytes 4 body.length++body) = file
  have hlen : file.length = 8+body.length := by
    rw [← hfile]
    simp only [length_append,diskMagic.size,leBytes_length]
    omega
  have hinit : (CBufferedFile.init file (2*maxTxSize) (maxTxSize+8)).nReadPos = 0 := rfl
  obtain ⟨g,hg,hgnear,hgpos,-,-,hloop⟩ := loadLoop_header params (.read n next) readBlock feof nFile
    (CBufferedFile.init_sound file _ _) (initial_near file) (by omega) not_mem_nil hheader hbody
    (by rw [hfile]; rfl) (file.length+1) s
  rw [hinit] at hgpos hloop
  rw [length_nil] at hgpos hloop
  have hlarge : n+g.nRewind > g.vchBuf.length := by
    rw [hg.rewind,hg.size]
    omega
  have hrefused : ∃ e, g.unserialize (.read n next) = (.error e,g) := by
    have hthrows : ∃ e, g.read (n+1) n = .error e := by
      rw [CBufferedFile.read,if_pos hlarge]
      split
      · exact ⟨_,rfl⟩
      · exact ⟨_,rfl⟩
    obtain ⟨e,he⟩ := hthrows
    refine ⟨e,?_⟩
    rw [CBufferedFile.unserialize,he]
    rw [if_pos (.inr hlarge)]
  obtain ⟨e,he⟩ := hrefused
  have hback : g.setPos (0+0+1) = (true,{ g with nReadPos := 0+0+1 }) := by
    have hpos := hg.pos
    have hrewind := hg.rewind
    have hsize := hg.size
    rw [Near] at hgnear
    rw [CBufferedFile.setPos,if_neg (by omega),if_neg (by omega)]
  have hrest : file.drop (0+0+1) = diskMagic.bytes.tail++(leBytes 4 body.length++body) := by
    obtain ⟨tail,htail⟩ := MessageMagic.cons diskMagic
    rw [← hfile,htail]
    rfl
  rw [loadExternalBlockFile,hloop,he]
  exact loadLoop_end hg (by omega) hback (by rw [hrest]; exact hquiet) file.length s

theorem loadExternalBlockFile_records {file : BlockFile β} (hrs : ∀ r ∈ file.records, r.WellFormed diskMagic decodeBlock)
    (hpadding : diskMagic.bytes.headD 0 ∉ file.padding) (hsize : (file.bytes diskMagic).length < 2^64)
    (s : ReindexState β H) :
    loadExternalBlockFile diskMagic params decodeBlock readBlock feof nFile (file.bytes diskMagic) s =
      processBlocks params readBlock ((recordsAt nFile 0 file.records).map truncatePos) s := by
  have hcount := length_le_recordsBytes diskMagic file.records file.padding
  exact loadLoop_records (CBufferedFile.init_sound ..) (initial_near _) hsize rfl hrs hpadding (by rw [BlockFile.bytes]; omega) s

theorem processBlocks_append (es es' : List (β × FlatFilePos)) (s : ReindexState β H) :
    processBlocks params readBlock (es++es') s = match processBlocks params readBlock es s with
      | .error e => .error e
      | .ok s => processBlocks params readBlock es' s := by
  induction es generalizing s with
  | nil => rfl
  | cons e es ih =>
    rw [cons_append,processBlocks,processBlocks]
    cases processBlock params readBlock e.1 e.2 s with
    | error e => rfl
    | ok s => exact ih s

variable (diskMagic params decodeBlock)

/-- `LoadExternalBlockFile` on file after file. -/
def loadFiles (readBlock : FlatFilePos → Option β) (feof : Nat → Nat → Bool) :
    Nat → List Bytes → ReindexState β H → Except Stop (ReindexState β H)
  | _, [], s => .ok s
  | nFile, file::files, s =>
    match loadExternalBlockFile diskMagic params decodeBlock readBlock (feof nFile) nFile file s with
    | .error e => .error e
    | .ok s => loadFiles readBlock feof (nFile+1) files s

/-- The block files in order, from an index that holds only genesis. -/
def reindex (hasData : Bool) (feof : Nat → Nat → Bool) (files : List Bytes) : Except Stop (ReindexState β H) :=
  loadFiles diskMagic params decodeBlock (readBlockFromDisk params decodeBlock files) feof 0 files
    (reindexInit params hasData)

variable {diskMagic params decodeBlock}

theorem loadFiles_records {feof : Nat → Nat → Bool} {files : List (BlockFile β)}
    (hwf : ∀ file ∈ files, file.WellFormed diskMagic decodeBlock) (nFile : Nat) (s : ReindexState β H) :
    loadFiles diskMagic params decodeBlock readBlock feof nFile (files.map (BlockFile.bytes diskMagic)) s =
      processBlocks params readBlock (filesRecords nFile files) s := by
  induction files generalizing nFile s with
  | nil => rfl
  | cons file files ih =>
    obtain ⟨hfile,hfiles⟩ := forall_mem_cons.mp hwf
    have hsize := hfile.size
    rw [map_cons,loadFiles,filesRecords,processBlocks_append,
      loadExternalBlockFile_records hfile.records hfile.padding (by omega),hfile.truncate]
    cases processBlocks params readBlock (recordsAt nFile 0 file.records) s with
    | error e => rfl
    | ok s => exact ih hfiles (nFile+1) s

/-- A reindex calls `AcceptBlock` on every block with proof of work whose ancestors are all accepted. -/
theorem reindex_finds_connectable (files : List (BlockFile β)) (hasData : Bool) (feof : Nat → Nat → Bool)
    (hwf : ∀ file ∈ files, file.WellFormed diskMagic decodeBlock)
    (hfree : CollisionFree params (filesRecords 0 files)) :
    ∃ s, reindex diskMagic params decodeBlock hasData feof (files.map (BlockFile.bytes diskMagic)) = .ok s ∧
      ∀ e ∈ filesRecords 0 files, params.getHash e.1 ≠ params.hashGenesisBlock →
        params.checkProofOfWork e.1 = true → Connectable params (filesRecords 0 files) e.1 →
        Called params (filesRecords 0 files) s.calls e.1 := by
  obtain ⟨s,hs,hwait⟩ := (reindexInit_waiting params hasData (filesRecords 0 files)).processBlocks
    (readsBack_files hwf) hfree (nil_subset _) (List.Subset.refl _)
  rw [nil_append] at hwait
  refine ⟨s,?_,?_⟩
  · rw [reindex,loadFiles_records hwf]
    exact hs
  · intro e he hgenesis hpow hconn
    exact hwait.called hfree hconn e.2 he hgenesis hpow
end Files

section Examples

open ReindexState

def smallBlock : Decoder UInt8 (UInt8 × UInt8) := .read 80 fun bytes => .done (bytes.headD 0,bytes.tail.headD 0)

def smallRecord (block : UInt8 × UInt8) : BlockRecord (UInt8 × UInt8) := ⟨[],block.1::block.2::replicate 78 0,block⟩

def smallParams (checkProofOfWork : UInt8 × UInt8 → Bool) : ReindexParams (UInt8 × UInt8) UInt8 :=
  ⟨Prod.fst,Prod.snd,0,checkProofOfWork,fun _ => true,fun _ => false⟩

def smallMagic : MessageMagic := ⟨[0xe3,0xe1,0xf3,0xe8],by decide⟩

def childFirst : List (BlockFile (UInt8 × UInt8)) := [⟨[smallRecord (2,1)],[]⟩,⟨[smallRecord (1,0)],[0]⟩]

theorem smallRecord_wellFormed (block : UInt8 × UInt8) : (smallRecord block).WellFormed smallMagic smallBlock := by
  have hlength : (smallRecord block).body.length = 80 := rfl
  refine ⟨not_mem_nil,hlength.ge,by rw [hlength]; decide,?_⟩
  rw [smallBlock,Decoder.run,if_pos ⟨by decide,hlength.ge⟩]
  rfl

theorem childFirst_wellFormed : ∀ file ∈ childFirst, file.WellFormed smallMagic smallBlock := by
  intro file hfile
  obtain rfl | hfile := mem_cons.mp hfile
  · exact ⟨fun r hr => mem_singleton.mp hr ▸ smallRecord_wellFormed _,by decide,by decide⟩
  · obtain rfl := mem_singleton.mp hfile
    exact ⟨fun r hr => mem_singleton.mp hr ▸ smallRecord_wellFormed _,by decide,by decide⟩

theorem childFirst_collisionFree (checkProofOfWork : UInt8 × UInt8 → Bool) :
    CollisionFree (smallParams checkProofOfWork) (filesRecords 0 childFirst) := by
  simp [CollisionFree,filesRecords,childFirst,recordsAt,smallRecord,smallParams]

theorem childFirst_connectable {checkProofOfWork : UInt8 × UInt8 → Bool} (hpow : checkProofOfWork (1,0) = true) :
    Connectable (smallParams checkProofOfWork) (filesRecords 0 childFirst) (2,1) := by
  have hparent : (((1,0),⟨1,8⟩) : (UInt8 × UInt8) × FlatFilePos) ∈ filesRecords 0 childFirst := by
    simp [filesRecords,childFirst,recordsAt,smallRecord]
  exact .child hparent rfl (by simp [smallParams]) rfl hpow (.genesis rfl)

theorem reindex_finds_connectable_childFirst :
    ∃ s, reindex smallMagic (smallParams fun _ => true) smallBlock true (fun _ _ => false)
        (childFirst.map (BlockFile.bytes smallMagic)) = .ok s ∧
      Called (smallParams fun _ => true) (filesRecords 0 childFirst) s.calls (2,1) := by
  obtain ⟨s,hs,hcalled⟩ := reindex_finds_connectable childFirst true (fun _ _ => false) childFirst_wellFormed
    (childFirst_collisionFree fun _ => true)
  exact ⟨s,hs,hcalled ((2,1),⟨0,8⟩) mem_cons_self (by decide) rfl (childFirst_connectable rfl)⟩

theorem reindex_drops_bad_proof_of_work : (∀ file ∈ childFirst, file.WellFormed smallMagic smallBlock) ∧
    CollisionFree (smallParams fun block => block.1 == 1) (filesRecords 0 childFirst) ∧
    Connectable (smallParams fun block => block.1 == 1) (filesRecords 0 childFirst) (2,1) ∧
    ∃ s, reindex smallMagic (smallParams fun block => block.1 == 1) smallBlock true (fun _ _ => false)
        (childFirst.map (BlockFile.bytes smallMagic)) = .ok s ∧
      s.mapBlocksUnknownParent.length = 0 ∧ s.calls.map AcceptCall.block = [(1,0)] := by
  refine ⟨childFirst_wellFormed,childFirst_collisionFree _,childFirst_connectable rfl,?_⟩
  rw [reindex,loadFiles_records childFirst_wellFormed]
  exact ⟨_,rfl,rfl,rfl⟩
end Examples
end BitfiniteCore
