import Mathlib.Logic.Function.Basic
import BitfiniteCore.Storage.BlockFiles

/-! # Blocks out of order -/

namespace BitfiniteCore
open List

/-- `verdict` is what `AcceptBlock` says; `keepsHeader` whether a rejected block stays in the index. -/
structure ReindexParams (β H : Type) where
  getHash : β → H
  hashPrevBlock : β → H
  hashGenesisBlock : H
  checkProofOfWork : β → Bool
  verdict : β → Bool
  keepsHeader : β → Bool

structure AcceptCall (β : Type) where
  block : β
  dbp : FlatFilePos
  accepted : Bool

/-- The index tells for each hash in it whether the data of the block is there. -/
structure ReindexState (β H : Type) where
  mapBlockIndex : H → Option Bool
  mapBlocksUnknownParent : List (H × FlatFilePos)
  calls : List (AcceptCall β)

namespace ReindexState

section Definitions

variable {β H : Type} [DecidableEq H] (params : ReindexParams β H)

def acceptBlock (block : β) (dbp : FlatFilePos) (s : ReindexState β H) : Bool × ReindexState β H :=
  let hash := params.getHash block
  if hash ≠ params.hashGenesisBlock ∧ s.mapBlockIndex (params.hashPrevBlock block) = none then
    (false,{ s with calls := s.calls++[⟨block,dbp,false⟩] })
  else if params.verdict block then
    (true,{ s with mapBlockIndex := Function.update s.mapBlockIndex hash (some true), calls := s.calls++[⟨block,dbp,true⟩] })
  else if params.keepsHeader block ∧ s.mapBlockIndex hash = none then
    (false,{ s with mapBlockIndex := Function.update s.mapBlockIndex hash (some false), calls := s.calls++[⟨block,dbp,false⟩] })
  else (false,{ s with calls := s.calls++[⟨block,dbp,false⟩] })

variable (readBlockFromDisk : FlatFilePos → Option β)

def processRange : List FlatFilePos → ReindexState β H → List H × ReindexState β H
  | [], s => ([],s)
  | pos::range, s =>
    match readBlockFromDisk pos with
    | none => processRange range s
    | some block =>
      let r := acceptBlock params block pos s
      let rest := processRange range r.2
      (if r.1 then params.getHash block::rest.1 else rest.1,rest.2)

/-- `equal_range`, in the order of insertion. -/
def equalRange (m : List (H × FlatFilePos)) (head : H) : List FlatFilePos :=
  (m.filter fun e => decide (e.1 = head)).map Prod.snd

def processQueue : Nat → List H → ReindexState β H → Except Stop (ReindexState β H)
  | 0, _, _ => .error (.runtimeError "rounds")
  | _+1, [], s => .ok s
  | rounds+1, head::queue, s =>
    let r := processRange params readBlockFromDisk (equalRange s.mapBlocksUnknownParent head) s
    -- every entry of the range has been erased
    processQueue rounds (queue++r.1)
      { r.2 with mapBlocksUnknownParent := r.2.mapBlocksUnknownParent.filter fun e => decide (e.1 ≠ head) }

def processBlock (block : β) (dbp : FlatFilePos) (s : ReindexState β H) : Except Stop (ReindexState β H) :=
  let hash := params.getHash block
  if hash ≠ params.hashGenesisBlock ∧ s.mapBlockIndex (params.hashPrevBlock block) = none then
    .ok { s with mapBlocksUnknownParent := s.mapBlocksUnknownParent++[(params.hashPrevBlock block,dbp)] }
  else
    let s := if s.mapBlockIndex hash = some true then s else (acceptBlock params block dbp s).2
    processQueue params readBlockFromDisk (s.mapBlocksUnknownParent.length+2) [hash] s

def processBlocks : List (β × FlatFilePos) → ReindexState β H → Except Stop (ReindexState β H)
  | [], s => .ok s
  | e::es, s =>
    match processBlock params readBlockFromDisk e.1 e.2 s with
    | .error e => .error e
    | .ok s => processBlocks es s
end Definitions

section Decisions

variable {β H : Type} {params : ReindexParams β H} {records : List (β × FlatFilePos)} {s : ReindexState β H}
  {calls : List (AcceptCall β)}

def Accepted (params : ReindexParams β H) (calls : List (AcceptCall β)) (h : H) : Prop :=
  ∃ c ∈ calls, c.accepted = true ∧ params.getHash c.block = h

def Rejected (params : ReindexParams β H) (records : List (β × FlatFilePos)) (h : H) : Prop :=
  h ≠ params.hashGenesisBlock ∧ ∃ e ∈ records, params.getHash e.1 = h ∧ params.verdict e.1 = false

def Called (params : ReindexParams β H) (records : List (β × FlatFilePos)) (calls : List (AcceptCall β)) (block : β) :
    Prop :=
  ∃ before c after, calls = before++c::after ∧ c.block = block ∧ (block,c.dbp) ∈ records ∧
    (params.hashPrevBlock block = params.hashGenesisBlock ∨ Accepted params before (params.hashPrevBlock block)) ∧
    c.accepted = params.verdict block

def Settled (params : ReindexParams β H) (records : List (β × FlatFilePos)) (calls : List (AcceptCall β)) (block : β) :
    Prop :=
  params.getHash block = params.hashGenesisBlock ∨ Called params records calls block ∨
    Rejected params records (params.hashPrevBlock block) ∨ params.checkProofOfWork block = false

theorem Accepted.append {h : H} (ha : Accepted params calls h) (more : List (AcceptCall β)) :
    Accepted params (calls++more) h := by
  obtain ⟨c,hc,hacc⟩ := ha
  exact ⟨c,mem_append_left _ hc,hacc⟩

theorem accepted_snoc {c : AcceptCall β} {h : H} :
    Accepted params (calls++[c]) h ↔ Accepted params calls h ∨ (c.accepted = true ∧ params.getHash c.block = h) := by
  simp [Accepted,or_and_right,exists_or]

theorem Settled.append {block : β} (hs : Settled params records calls block) (more : List (AcceptCall β)) :
    Settled params records (calls++more) block := by
  obtain h | ⟨before,c,after,rfl,hc⟩ | h := hs
  · exact .inl h
  · exact .inr (.inl ⟨before,c,after++more,by simp,hc⟩)
  · exact .inr (.inr h)

structure Consistent (params : ReindexParams β H) (records : List (β × FlatFilePos)) (s : ReindexState β H) : Prop where
  genesis : s.mapBlockIndex params.hashGenesisBlock ≠ none
  known : ∀ h, s.mapBlockIndex h ≠ none → h = params.hashGenesisBlock ∨ Accepted params s.calls h ∨ Rejected params records h
  indexed : ∀ h, Accepted params s.calls h → s.mapBlockIndex h ≠ none
  data : ∀ h, s.mapBlockIndex h = some true → h = params.hashGenesisBlock ∨ Accepted params s.calls h
  settled : ∀ c ∈ s.calls, (c.block,c.dbp) ∈ records ∧ Settled params records s.calls c.block

theorem Consistent.withParked (h : s.Consistent params records) (m : List (H × FlatFilePos)) :
    ({ s with mapBlocksUnknownParent := m } : ReindexState β H).Consistent params records :=
  ⟨h.genesis,h.known,h.indexed,h.data,h.settled⟩

/-- What is known of the parent when `AcceptBlock` is called. -/
def Decided (params : ReindexParams β H) (records : List (β × FlatFilePos)) (s : ReindexState β H) (h : H) : Prop :=
  h = params.hashGenesisBlock ∨ Accepted params s.calls h ∨ Rejected params records h

theorem Called.accepted {block : β} (h : Called params records calls block)
    (hverdict : params.verdict block = true) : Accepted params calls (params.getHash block) := by
  obtain ⟨before,c,after,rfl,rfl,-,-,hacc⟩ := h
  exact ⟨c,by simp,hacc.trans hverdict,rfl⟩

/-- Hashes are free of collisions among the blocks of the files. -/
def CollisionFree (params : ReindexParams β H) (records : List (β × FlatFilePos)) : Prop :=
  ∀ e ∈ records, ∀ e' ∈ records, params.getHash e.1 = params.getHash e'.1 → e.1 = e'.1

theorem Consistent.settled_of_data (h : s.Consistent params records) (hfree : CollisionFree params records)
    {e : β × FlatFilePos} (hrec : e ∈ records) (hdata : s.mapBlockIndex (params.getHash e.1) = some true) :
    Settled params records s.calls e.1 := by
  obtain hg | ⟨c,hc,-,hhash⟩ := h.data _ hdata
  · exact .inl hg
  · have hsettled := h.settled c hc
    exact hfree _ hsettled.1 e hrec hhash ▸ hsettled.2

variable [DecidableEq H]

theorem acceptBlock_cases (params : ReindexParams β H) (block : β) (dbp : FlatFilePos) (s : ReindexState β H) :
    ∃ m ok, acceptBlock params block dbp s = (ok,{ s with mapBlockIndex := m, calls := s.calls++[⟨block,dbp,ok⟩] }) ∧
    (∀ h, s.mapBlockIndex h ≠ none → m h ≠ none) ∧
    (ok = true → params.verdict block = true ∧ m (params.getHash block) = some true) ∧
    (ok = false → params.verdict block = true →
      params.getHash block ≠ params.hashGenesisBlock ∧ s.mapBlockIndex (params.hashPrevBlock block) = none) ∧
    (∀ h, m h ≠ s.mapBlockIndex h → h = params.getHash block ∧ (ok = true ∨ (params.verdict block = false ∧ m h = some false))) := by
  have hkeep : ∀ v h, s.mapBlockIndex h ≠ none → Function.update s.mapBlockIndex (params.getHash block) (some v) h ≠ none := by
    intro v h hh
    rw [Function.update_apply]
    split
    · exact Option.some_ne_none v
    · exact hh
  have hself : ∀ v h, Function.update s.mapBlockIndex (params.getHash block) (some v) h ≠ s.mapBlockIndex h →
      h = params.getHash block := by
    intro v h hne
    by_contra hh
    exact hne (Function.update_of_ne hh _ _)
  rw [acceptBlock]
  split_ifs with hparent hverdict hheader
  · exact ⟨s.mapBlockIndex,false,rfl,fun _ h => h,nofun,fun _ _ => hparent,fun h hne => absurd rfl hne⟩
  · exact ⟨_,true,rfl,hkeep true,fun _ => ⟨hverdict,Function.update_self ..⟩,nofun,fun h hne => ⟨hself true h hne,.inl rfl⟩⟩
  · refine ⟨_,false,rfl,hkeep false,nofun,fun _ hv => absurd hv hverdict,fun h hne => ?_⟩
    obtain rfl := hself false h hne
    exact ⟨rfl,.inr ⟨by simpa using hverdict,Function.update_self ..⟩⟩
  · exact ⟨s.mapBlockIndex,false,rfl,fun _ h => h,nofun,fun _ hv => absurd hv hverdict,fun h hne => absurd rfl hne⟩

theorem Consistent.acceptBlock (h : s.Consistent params records) {block : β} {dbp : FlatFilePos}
    (hrec : (block,dbp) ∈ records)
    (hparent : params.getHash block = params.hashGenesisBlock ∨ Decided params records s (params.hashPrevBlock block)) :
    ∃ m ok, ReindexState.acceptBlock params block dbp s = (ok,{ s with mapBlockIndex := m, calls := s.calls++[⟨block,dbp,ok⟩] }) ∧
      ({ s with mapBlockIndex := m, calls := s.calls++[⟨block,dbp,ok⟩] } : ReindexState β H).Consistent params records ∧
      Settled params records (s.calls++[⟨block,dbp,ok⟩]) block ∧
      (ok = false → params.verdict block = true →
        params.getHash block ≠ params.hashGenesisBlock ∧ s.mapBlockIndex (params.hashPrevBlock block) = none) := by
  obtain ⟨m,ok,heq,hkeep,htrue,hfalse,hnew⟩ := acceptBlock_cases params block dbp s
  have hsettled : Settled params records (s.calls++[⟨block,dbp,ok⟩]) block := by
    by_cases hg : params.getHash block = params.hashGenesisBlock
    · exact .inl hg
    have hd := hparent.resolve_left hg
    by_cases hr : Rejected params records (params.hashPrevBlock block)
    · exact .inr (.inr (.inl hr))
    have hprev : params.hashPrevBlock block = params.hashGenesisBlock ∨ Accepted params s.calls (params.hashPrevBlock block) :=
      hd.imp_right fun ha => ha.resolve_right hr
    have hin : s.mapBlockIndex (params.hashPrevBlock block) ≠ none := by
      obtain hgen | ha := hprev
      · rw [hgen]
        exact h.genesis
      · exact h.indexed _ ha
    have hok : ok = params.verdict block := by
      cases hok : ok with
      | true => exact (htrue hok).1.symm
      | false =>
        by_contra hv
        exact hin (hfalse hok (by simpa using Ne.symm hv)).2
    exact .inr (.inl ⟨s.calls,_,[],rfl,rfl,hrec,hprev,hok⟩)
  refine ⟨m,ok,heq,⟨hkeep _ h.genesis,?_,?_,?_,?_⟩,hsettled,hfalse⟩
  · intro k hk
    by_cases hsame : m k = s.mapBlockIndex k
    · obtain hg | ha | hr := h.known k (hsame ▸ hk)
      · exact .inl hg
      · exact .inr (.inl (ha.append _))
      · exact .inr (.inr hr)
    obtain ⟨rfl,hok | ⟨hv,-⟩⟩ := hnew k hsame
    · exact .inr (.inl (accepted_snoc.mpr (.inr ⟨hok,rfl⟩)))
    by_cases hg : params.getHash block = params.hashGenesisBlock
    · exact .inl hg
    · exact .inr (.inr ⟨hg,(block,dbp),hrec,rfl,hv⟩)
  · intro k hk
    obtain ha | ⟨hok,rfl⟩ := accepted_snoc.mp hk
    · exact hkeep k (h.indexed k ha)
    · simp [(htrue hok).2]
  · intro k hk
    by_cases hsame : m k = s.mapBlockIndex k
    · exact (h.data k (hsame ▸ hk)).imp_right fun ha => ha.append _
    obtain ⟨rfl,hok | ⟨-,hm⟩⟩ := hnew k hsame
    · exact .inr (accepted_snoc.mpr (.inr ⟨hok,rfl⟩))
    · cases hm.symm.trans hk
  · intro c hc
    obtain hc | hc := mem_append.mp hc
    · exact ⟨(h.settled c hc).1,(h.settled c hc).2.append _⟩
    · obtain rfl := mem_singleton.mp hc
      exact ⟨hrec,hsettled⟩
end Decisions

section Waiting

variable {β H : Type} {params : ReindexParams β H} {records seen : List (β × FlatFilePos)} {s : ReindexState β H}

/-- A block that is not settled waits under its parent, at most while its hash is in the queue. -/
structure Waiting (params : ReindexParams β H) (records seen : List (β × FlatFilePos)) (queue : List H)
    (s : ReindexState β H) : Prop where
  consistent : s.Consistent params records
  parked : ∀ e ∈ s.mapBlocksUnknownParent, e.1 ≠ params.hashGenesisBlock ∧
    ∃ block, (block,e.2) ∈ records ∧ params.hashPrevBlock block = e.1
  covers : ∀ e ∈ seen, Settled params records s.calls e.1 ∨ (params.hashPrevBlock e.1,e.2) ∈ s.mapBlocksUnknownParent
  pending : ∀ e ∈ s.mapBlocksUnknownParent, Accepted params s.calls e.1 → e.1 ∈ queue
  queued : ∀ h ∈ queue, Decided params records s h

/-- The proper ancestors occur in the files, are accepted and pass the check of their work. -/
inductive Connectable (params : ReindexParams β H) (records : List (β × FlatFilePos)) : β → Prop where
  | genesis {block : β} (hprev : params.hashPrevBlock block = params.hashGenesisBlock) : Connectable params records block
  | child {block : β} {parent : β × FlatFilePos} (hrec : parent ∈ records)
      (hhash : params.getHash parent.1 = params.hashPrevBlock block)
      (hgenesis : params.getHash parent.1 ≠ params.hashGenesisBlock) (hverdict : params.verdict parent.1 = true)
      (hpow : params.checkProofOfWork parent.1 = true) (hparent : Connectable params records parent.1) :
      Connectable params records block

theorem Waiting.called (h : s.Waiting params records records []) (hfree : CollisionFree params records) {block : β}
    (hc : Connectable params records block) : ∀ dbp, (block,dbp) ∈ records →
    params.getHash block ≠ params.hashGenesisBlock → params.checkProofOfWork block = true →
    Called params records s.calls block := by
  -- by induction on the chain of ancestors: the parent was accepted, so the block does not wait for it
  induction hc with
  | @genesis block hprev =>
    intro dbp hrec hgenesis hpow
    obtain (hg | hcalled | ⟨hne,-⟩ | hbad) | hparked := h.covers _ hrec
    · exact absurd hg hgenesis
    · exact hcalled
    · exact absurd hprev hne
    · exact absurd hpow (by simp [hbad])
    · exact absurd hprev (h.parked _ hparked).1
  | @child block parent hparent hhash hparentGenesis hverdict hparentPow _ ih =>
    intro dbp hrec hgenesis hpow
    have hacc := (ih parent.2 hparent hparentGenesis hparentPow).accepted hverdict
    obtain (hg | hcalled | ⟨-,e,he,hsame,hrej⟩ | hbad) | hparked := h.covers _ hrec
    · exact absurd hg hgenesis
    · exact hcalled
    · have heq := hfree e he parent hparent (hsame.trans hhash.symm)
      rw [heq,hverdict] at hrej
      cases hrej
    · exact absurd hpow (by simp [hbad])
    · exact absurd (h.pending _ hparked (hhash ▸ hacc)) not_mem_nil

/-- What is read back at the position of a record is its block, if its proof of work holds. -/
def ReadsBack (params : ReindexParams β H) (records : List (β × FlatFilePos)) (readBlockFromDisk : FlatFilePos → Option β) :
    Prop :=
  ∀ e ∈ records, readBlockFromDisk e.2 = if params.checkProofOfWork e.1 then some e.1 else none

theorem Decided.append {h : H} (hd : Decided params records s h) {s' : ReindexState β H} {more : List (AcceptCall β)}
    (hcalls : s'.calls = s.calls++more) : Decided params records s' h := by
  rw [Decided,hcalls]
  exact hd.imp_right fun ha => ha.imp_left fun ha => ha.append more

/-- The children that waited for one block have been tried. -/
structure RangeDone (params : ReindexParams β H) (records : List (β × FlatFilePos)) (range : List FlatFilePos)
    (s : ReindexState β H) (r : List H × ReindexState β H) : Prop where
  consistent : r.2.Consistent params records
  parked : r.2.mapBlocksUnknownParent = s.mapBlocksUnknownParent
  calls : ∃ more, r.2.calls = s.calls++more
  length : r.1.length ≤ range.length
  pushed : ∀ h ∈ r.1, Accepted params r.2.calls h
  accepted : ∀ h, Accepted params r.2.calls h → Accepted params s.calls h ∨ h ∈ r.1
  settled : ∀ e ∈ records, e.2 ∈ range → Settled params records r.2.calls e.1

variable [DecidableEq H] {readBlockFromDisk : FlatFilePos → Option β}

theorem Consistent.processRange (h : s.Consistent params records) (hread : ReadsBack params records readBlockFromDisk)
    {head : H} (hhead : Decided params records s head) {range : List FlatFilePos}
    (hrange : ∀ pos ∈ range, ∃ block, (block,pos) ∈ records ∧ params.hashPrevBlock block = head) :
    RangeDone params records range s (ReindexState.processRange params readBlockFromDisk range s) := by
  induction range generalizing s with
  | nil => exact ⟨h,rfl,⟨[],by simp [ReindexState.processRange]⟩,le_rfl,nofun,fun _ ha => .inl ha,fun _ _ hpos => nomatch hpos⟩
  | cons pos range ih =>
    obtain ⟨block,hrec,hprev⟩ := hrange pos mem_cons_self
    have hrest := fun p hp => hrange p (mem_cons_of_mem _ hp)
    have hpos := hread _ hrec
    rw [ReindexState.processRange,hpos]
    cases hpow : params.checkProofOfWork block with
    | false =>
      have hdone := ih h hhead hrest
      refine ⟨hdone.consistent,hdone.parked,hdone.calls,hdone.length.trans (by simp),hdone.pushed,hdone.accepted,?_⟩
      intro e he hmem
      obtain heq | hmem := mem_cons.mp hmem
      · -- another block cannot be read back at this position
        have hother := hread e he
        rw [heq,hpos,hpow] at hother
        exact .inr (.inr (.inr (by simpa using hother)))
      · exact hdone.settled e he hmem
    | true =>
      obtain ⟨m,ok,heq,hcons,hsettled,-⟩ := h.acceptBlock hrec (.inr (hprev ▸ hhead))
      have hdone := ih hcons (hhead.append rfl) hrest
      obtain ⟨more,hmore⟩ := hdone.calls
      have hself : ok = true → Accepted params (s.calls++[⟨block,pos,ok⟩]) (params.getHash block) := fun hok =>
        accepted_snoc.mpr (.inr ⟨hok,rfl⟩)
      simp only [if_true,heq]
      refine ⟨hdone.consistent,hdone.parked,⟨_,hmore.trans (append_assoc ..)⟩,?_,?_,?_,?_⟩
      · have := hdone.length
        split <;> simp only [length_cons] <;> omega
      · intro k hk
        split at hk
        · rename_i hok
          obtain rfl | hk := mem_cons.mp hk
          · rw [hmore]
            exact (hself hok).append more
          · exact hdone.pushed k hk
        · exact hdone.pushed k hk
      · intro k hk
        obtain ha | hk := hdone.accepted k hk
        · obtain ha | ⟨hok,rfl⟩ := accepted_snoc.mp ha
          · exact .inl ha
          · rw [if_pos hok]
            exact .inr mem_cons_self
        · right
          split
          · exact mem_cons_of_mem _ hk
          · exact hk
      · intro e he hmem
        obtain hsame | hmem := mem_cons.mp hmem
        · have hother := hread e he
          rw [hsame,hpos,hpow,if_pos rfl] at hother
          split at hother
          · cases hother
            rw [hmore]
            exact hsettled.append more
          · cases hother
        · exact hdone.settled e he hmem

theorem mem_equalRange {m : List (H × FlatFilePos)} {head : H} {pos : FlatFilePos} :
    pos ∈ equalRange m head ↔ (head,pos) ∈ m := by
  simp [equalRange]

theorem equalRange_length (m : List (H × FlatFilePos)) (head : H) :
    (equalRange m head).length+(m.filter fun e => decide (e.1 ≠ head)).length = m.length := by
  have hsplit := length_eq_length_filter_add (l := m) fun e => decide (e.1 = head)
  simp only [equalRange,length_map,decide_not]
  exact hsplit.symm

theorem Waiting.processQueue {queue : List H} (h : s.Waiting params records seen queue)
    (hread : ReadsBack params records readBlockFromDisk) (hseen : seen ⊆ records) {rounds : Nat}
    (hrounds : queue.length+s.mapBlocksUnknownParent.length < rounds) :
    ∃ s', ReindexState.processQueue params readBlockFromDisk rounds queue s = .ok s' ∧
      s'.Waiting params records seen [] := by
  induction rounds generalizing queue s with
  | zero => omega
  | succ rounds ih =>
    cases queue with
    | nil => exact ⟨s,rfl,h⟩
    | cons head queue =>
      have hdone : RangeDone params records (equalRange s.mapBlocksUnknownParent head) s
          (ReindexState.processRange params readBlockFromDisk (equalRange s.mapBlocksUnknownParent head) s) := by
        refine h.consistent.processRange hread (h.queued head mem_cons_self) fun pos hpos => ?_
        exact (h.parked _ (mem_equalRange.mp hpos)).2
      rw [ReindexState.processQueue]
      generalize ReindexState.processRange params readBlockFromDisk (equalRange s.mapBlocksUnknownParent head) s = r
        at hdone ⊢
      obtain ⟨more,hmore⟩ := hdone.calls
      have hlen := equalRange_length s.mapBlocksUnknownParent head
      have hpush := hdone.length
      refine ih ⟨hdone.consistent.withParked _,?_,?_,?_,?_⟩ ?_
      · intro e he
        rw [hdone.parked] at he
        exact h.parked e (mem_filter.mp he).1
      · intro e he
        obtain hs | hp := h.covers e he
        · rw [hmore]
          exact .inl (hs.append more)
        by_cases hhead : params.hashPrevBlock e.1 = head
        · exact .inl (hdone.settled e (hseen he) (mem_equalRange.mpr (hhead ▸ hp)))
        · rw [hdone.parked]
          exact .inr (mem_filter.mpr ⟨hp,decide_eq_true hhead⟩)
      · intro e he ha
        rw [hdone.parked] at he
        obtain ⟨he,hne⟩ := mem_filter.mp he
        obtain ha | hp := hdone.accepted _ ha
        · exact mem_append_left _ ((mem_cons.mp (h.pending e he ha)).resolve_left (of_decide_eq_true hne))
        · exact mem_append_right _ hp
      · intro k hk
        obtain hk | hk := mem_append.mp hk
        · exact (h.queued k (mem_cons_of_mem _ hk)).append hmore
        · exact .inr (.inl (hdone.pushed k hk))
      · dsimp only
        rw [hdone.parked,length_append]
        simp only [length_cons] at hrounds
        omega

theorem Waiting.processBlock (h : s.Waiting params records seen []) (hread : ReadsBack params records readBlockFromDisk)
    (hfree : CollisionFree params records) (hseen : seen ⊆ records) {e : β × FlatFilePos} (hrec : e ∈ records) :
    ∃ s', ReindexState.processBlock params readBlockFromDisk e.1 e.2 s = .ok s' ∧
      s'.Waiting params records (seen++[e]) [] := by
  have hseen' : seen++[e] ⊆ records := append_subset.mpr ⟨hseen,cons_subset.mpr ⟨hrec,nil_subset _⟩⟩
  rw [ReindexState.processBlock]
  by_cases hunknown : params.getHash e.1 ≠ params.hashGenesisBlock ∧ s.mapBlockIndex (params.hashPrevBlock e.1) = none
  · rw [if_pos hunknown]
    refine ⟨_,rfl,h.consistent.withParked _,?_,?_,?_,nofun⟩
    · intro p hp
      obtain hp | hp := mem_append.mp hp
      · exact h.parked p hp
      · obtain rfl := mem_singleton.mp hp
        exact ⟨fun hg => h.consistent.genesis (hg ▸ hunknown.2),e.1,hrec,rfl⟩
    · intro p hp
      obtain hp | hp := mem_append.mp hp
      · exact (h.covers p hp).imp_right (mem_append_left _)
      · obtain rfl := mem_singleton.mp hp
        exact .inr (mem_append_right _ mem_cons_self)
    · intro p hp ha
      obtain hp | hp := mem_append.mp hp
      · exact h.pending p hp ha
      · obtain rfl := mem_singleton.mp hp
        exact absurd hunknown.2 (h.consistent.indexed _ ha)
  rw [if_neg hunknown]
  by_cases hdata : s.mapBlockIndex (params.getHash e.1) = some true
  · rw [if_pos hdata]
    refine Waiting.processQueue ⟨h.consistent,h.parked,?_,?_,?_⟩ hread hseen' (by simp only [length_singleton]; omega)
    · intro p hp
      obtain hp | hp := mem_append.mp hp
      · exact h.covers p hp
      · obtain rfl := mem_singleton.mp hp
        exact .inl (h.consistent.settled_of_data hfree hrec hdata)
    · exact fun p hp ha => absurd (h.pending p hp ha) not_mem_nil
    · intro k hk
      obtain rfl := mem_singleton.mp hk
      exact h.consistent.known _ (by simp [hdata])
  · rw [if_neg hdata]
    have hparent : params.getHash e.1 = params.hashGenesisBlock ∨ Decided params records s (params.hashPrevBlock e.1) := by
      by_cases hg : params.getHash e.1 = params.hashGenesisBlock
      · exact .inl hg
      · exact .inr (h.consistent.known _ fun hnone => hunknown ⟨hg,hnone⟩)
    obtain ⟨m,ok,heq,hcons,hsettled,hrejected⟩ := h.consistent.acceptBlock hrec hparent
    rw [heq]
    refine Waiting.processQueue ⟨hcons,h.parked,?_,?_,?_⟩ hread hseen' (by simp only [length_singleton]; omega)
    · intro p hp
      obtain hp | hp := mem_append.mp hp
      · exact (h.covers p hp).imp_left fun hs => hs.append _
      · obtain rfl := mem_singleton.mp hp
        exact .inl hsettled
    · intro p hp ha
      obtain ha | ⟨-,hhash⟩ := accepted_snoc.mp ha
      · exact absurd (h.pending p hp ha) not_mem_nil
      · exact hhash ▸ mem_cons_self
    · intro k hk
      obtain rfl := mem_singleton.mp hk
      by_cases hg : params.getHash e.1 = params.hashGenesisBlock
      · exact .inl hg
      right
      cases hv : params.verdict e.1 with
      | false => exact .inr ⟨hg,e,hrec,rfl,hv⟩
      | true =>
        cases hok : ok with
        | true => exact .inl (accepted_snoc.mpr (.inr ⟨rfl,rfl⟩))
        | false => exact absurd (hrejected hok hv) hunknown

theorem Waiting.processBlocks (h : s.Waiting params records seen []) (hread : ReadsBack params records readBlockFromDisk)
    (hfree : CollisionFree params records) (hseen : seen ⊆ records) {es : List (β × FlatFilePos)} (hrec : es ⊆ records) :
    ∃ s', ReindexState.processBlocks params readBlockFromDisk es s = .ok s' ∧
      s'.Waiting params records (seen++es) [] := by
  induction es generalizing s seen with
  | nil => exact ⟨s,rfl,by rwa [append_nil]⟩
  | cons e es ih =>
    obtain ⟨he,hes⟩ := cons_subset.mp hrec
    obtain ⟨s1,hs1,h1⟩ := h.processBlock hread hfree hseen he
    have hseen1 : seen++[e] ⊆ records := append_subset.mpr ⟨hseen,cons_subset.mpr ⟨he,nil_subset _⟩⟩
    obtain ⟨s2,hs2,h2⟩ := ih h1 hseen1 hes
    refine ⟨s2,?_,by simpa using h2⟩
    rw [ReindexState.processBlocks,hs1]
    exact hs2

def reindexInit (params : ReindexParams β H) (hasData : Bool) : ReindexState β H :=
  ⟨fun h => if h = params.hashGenesisBlock then some hasData else none,[],[]⟩

theorem reindexInit_waiting (params : ReindexParams β H) (hasData : Bool) (records : List (β × FlatFilePos)) :
    (reindexInit params hasData).Waiting params records [] [] := by
  refine ⟨⟨?_,?_,?_,?_,nofun⟩,nofun,nofun,nofun,nofun⟩
  · simp [reindexInit]
  · intro h hh
    left
    by_contra hne
    exact hh (if_neg hne)
  · rintro h ⟨c,hc,-⟩
    cases hc
  · intro h hh
    left
    by_contra hne
    have hnone : (reindexInit params hasData).mapBlockIndex h = none := if_neg hne
    rw [hnone] at hh
    cases hh
end Waiting
end ReindexState
end BitfiniteCore
