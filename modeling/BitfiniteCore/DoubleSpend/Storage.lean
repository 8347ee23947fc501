import BitfiniteCore.DoubleSpend.Create
import BitfiniteCore.Lib.ExceptPost
import BitfiniteCore.Lib.KeyedList

/-! # The storage of double-spend proofs -/

namespace BitfiniteCore
open KeyedList List

abbrev DspId := Uint256

namespace DoubleSpendProofStorage

structure Entry where
  orphan : Bool
  proof : DoubleSpendProof
  nodeId : Int
  timeStamp : Int
deriving DecidableEq, Repr

def Entry.id (e : Entry) : DspId := e.proof.hash

def Entry.new (proof : DoubleSpendProof) : Entry := ⟨false,proof,-1,-1⟩

def defaultSecondsToKeepOrphans : Int := 90

def defaultMaxOrphans : Nat := 65535
end DoubleSpendProofStorage

open DoubleSpendProofStorage in
/-- The entries, indexed by the id of their proof, and the orphan counter with its limits. -/
structure DoubleSpendProofStorage where
  proofs : List Entry
  secondsToKeepOrphans : Int
  maxOrphans : Nat
  numOrphans : Nat
  unique : UniqueKeys Entry.id proofs

namespace DoubleSpendProofStorage

def empty : DoubleSpendProofStorage := ⟨[],defaultSecondsToKeepOrphans,defaultMaxOrphans,0,List.nodup_nil⟩

variable (st : DoubleSpendProofStorage)

def modifyEntry (hash : DspId) (f : Entry → Entry) (hf : ∀ e, (f e).id = e.id) : DoubleSpendProofStorage :=
  { st with proofs := modify Entry.id hash f st.proofs, unique := st.unique.modify hash hf }

def eraseEntry (hash : DspId) : DoubleSpendProofStorage :=
  { st with proofs := erase Entry.id hash st.proofs, unique := st.unique.erase hash }

/-- The index by time stamp; entries with one time stamp keep their order. -/
def byTimeStamp : List Entry := st.proofs.mergeSort fun a b => a.timeStamp ≤ b.timeStamp

def decrementOrphans (n : Nat) : Except Stop DoubleSpendProofStorage :=
  if n = 0 then .ok st
  else if st.numOrphans < n then
    .error (.runtimeError "Internal error in DSProof decrementOrphans: Orphan counter not as expected.")
  else .ok { st with numOrphans := st.numOrphans-n }

def eraseOrphans (more : DoubleSpendProofStorage → Bool) (spared : Entry → Bool) :
    List Entry → DoubleSpendProofStorage → Except Stop DoubleSpendProofStorage
  | [], st => .ok st
  | e::rest, st =>
    if !more st then .ok st
    else if e.orphan && !spared e then
      ((st.eraseEntry e.id).decrementOrphans 1).bind (eraseOrphans more spared rest)
    else eraseOrphans more spared rest st

/-- `size_t(m_maxOrphans * 1.25)`; the product of doubles is exact below 2^51 orphans. -/
def highWaterMark : Nat := st.maxOrphans*5/4

def checkOrphanLimit (dontDeleteHash : DspId) : Except Stop DoubleSpendProofStorage :=
  if st.numOrphans > st.highWaterMark then
    eraseOrphans (fun s => decide (s.numOrphans > st.maxOrphans)) (fun e => dontDeleteHash == e.id)
      st.byTimeStamp st
  else .ok st

def incrementOrphans (n : Nat) (dontDeleteHash : DspId) : Except Stop DoubleSpendProofStorage :=
  if n = 0 then .ok st
  else checkOrphanLimit { st with numOrphans := st.numOrphans+n } dontDeleteHash

def add (proof : DoubleSpendProof) : Except Stop (Bool × DoubleSpendProofStorage) :=
  if proof.isEmpty then .error (.logicError "add: DSProof is empty")
  else match h : find Entry.id proof.hash st.proofs with
    | some e =>
      if e.orphan then (st.decrementOrphans 1).map fun st =>
        (false,st.modifyEntry proof.hash (fun e => { e with orphan := false, nodeId := -1 }) fun _ => rfl)
      else .ok (false,st)
    | none => .ok (true,{ st with proofs := st.proofs++[Entry.new proof], unique := st.unique.concat h })

def markOrphan (now nodeId : Int) (e : Entry) : Entry :=
  { e with
    nodeId := if e.nodeId < 0 ∧ nodeId > -1 then nodeId else e.nodeId
    timeStamp := if e.timeStamp < 0 then now else e.timeStamp
    orphan := true }

def addOrphan (now : Int) (proof : DoubleSpendProof) (nodeId : Int) (onlyIfNotExists : Bool) :
    Except Stop (Bool × DoubleSpendProofStorage) :=
  if onlyIfNotExists && (find Entry.id proof.hash st.proofs).isSome then .ok (false,st)
  else (st.add proof).bind fun r =>
    match find Entry.id proof.hash r.2.proofs with
    | none => .error (.assertion "it != m_proofs.end()")
    | some e => (r.2.incrementOrphans (if e.orphan then 0 else 1) proof.hash).map fun st =>
        (true,st.modifyEntry proof.hash (markOrphan now nodeId) fun _ => rfl)

def claimOrphan (hash : DspId) : Except Stop DoubleSpendProofStorage :=
  match find Entry.id hash st.proofs with
  | some e => if e.orphan then (st.decrementOrphans 1).map fun st =>
      st.modifyEntry hash (fun e => { e with orphan := false }) fun _ => rfl
    else .ok st
  | none => .ok st

def stampOrphan (now : Int) (e : Entry) : Entry := { e with orphan := true, timeStamp := now }

def orphanExisting (now : Int) (hash : DspId) : Except Stop DoubleSpendProofStorage :=
  match find Entry.id hash st.proofs with
  | some e => if !e.orphan then (st.incrementOrphans 1 hash).map fun st =>
      st.modifyEntry hash (stampOrphan now) fun _ => rfl
    else .ok st
  | none => .ok st

def remove (hash : DspId) : Except Stop (Bool × DoubleSpendProofStorage) :=
  match find Entry.id hash st.proofs with
  | some e => (st.decrementOrphans (if e.orphan then 1 else 0)).map fun st => (true,st.eraseEntry hash)
  | none => .ok (false,st)

def clear (clearOrphans : Bool) : DoubleSpendProofStorage :=
  if clearOrphans then { st with proofs := [], numOrphans := 0, unique := List.nodup_nil }
  else { st with proofs := st.proofs.filter fun e => e.orphan, unique := st.unique.filter _ }

def orphanEach (now : Int) (size : Nat) : Nat → List Entry → List Entry × Nat
  | incrementCtr, [] => ([],incrementCtr)
  | incrementCtr, e::rest =>
    if st.numOrphans+incrementCtr < size then
      let r := orphanEach now size (if e.orphan then incrementCtr else incrementCtr+1) rest
      ((if e.orphan then e else stampOrphan now e)::r.1,r.2)
    else (e::rest,incrementCtr)

theorem orphanEach_keys (now : Int) (size incrementCtr : Nat) (l : List Entry) :
    (st.orphanEach now size incrementCtr l).1.map Entry.id = l.map Entry.id := by
  induction l generalizing incrementCtr with
  | nil => rfl
  | cons e l ih =>
    simp only [orphanEach]
    split_ifs <;> simp [ih,stampOrphan,Entry.id]

def orphanAll (now : Int) : Except Stop DoubleSpendProofStorage :=
  let r := st.orphanEach now st.proofs.length 0 st.proofs
  incrementOrphans { st with
    proofs := r.1
    unique := by rw [UniqueKeys,orphanEach_keys]; exact st.unique } r.2 0

def setMaxOrphans (max : Nat) : DoubleSpendProofStorage := { st with maxOrphans := max }

def setSecondsToKeepOrphans (secs : Int) : DoubleSpendProofStorage :=
  if secs ≥ 0 then { st with secondsToKeepOrphans := secs } else st

/-- The clean-up erases the expired orphans; the peers to punish are not part of the storage. -/
def periodicCleanup (now : Int) : Except Stop DoubleSpendProofStorage := eraseOrphans (fun _ => true) (fun _ => false)
    (st.byTimeStamp.takeWhile fun e => e.timeStamp ≤ now-st.secondsToKeepOrphans) st

inductive Call where
  | add (proof : DoubleSpendProof)
  | addOrphan (proof : DoubleSpendProof) (nodeId : Int) (onlyIfNotExists : Bool)
  | claimOrphan (hash : DspId)
  | orphanExisting (hash : DspId)
  | orphanAll
  | remove (hash : DspId)
  | clear (clearOrphans : Bool)
  | setMaxOrphans (max : Nat)
  | setSecondsToKeepOrphans (secs : Int)
  | periodicCleanup

def exec (now : Int) : Call → Except Stop DoubleSpendProofStorage
  | .add proof => (st.add proof).map Prod.snd
  | .addOrphan proof nodeId onlyIfNotExists => (st.addOrphan now proof nodeId onlyIfNotExists).map Prod.snd
  | .claimOrphan hash => st.claimOrphan hash
  | .orphanExisting hash => st.orphanExisting now hash
  | .orphanAll => st.orphanAll now
  | .remove hash => (st.remove hash).map Prod.snd
  | .clear clearOrphans => .ok (st.clear clearOrphans)
  | .setMaxOrphans max => .ok (st.setMaxOrphans max)
  | .setSecondsToKeepOrphans secs => .ok (st.setSecondsToKeepOrphans secs)
  | .periodicCleanup => st.periodicCleanup now

def execAll : DoubleSpendProofStorage → List (Int × Call) → DoubleSpendProofStorage
  | st, [] => st
  | st, c::rest => execAll ((st.exec c.1 c.2).toOption.getD st) rest

def countOrphans : Nat := st.proofs.countP Entry.orphan

/-- The counter is `k` ahead of the entries. -/
def Counts (k : Nat) : Prop := st.numOrphans = st.countOrphans+k

section Spec

variable {st : DoubleSpendProofStorage} {k : Nat}

theorem byTimeStamp_perm (st : DoubleSpendProofStorage) : st.byTimeStamp.Perm st.proofs := mergeSort_perm ..

theorem decrementOrphans_ok {n : Nat} (h : n ≤ st.numOrphans) :
    st.decrementOrphans n = .ok { st with numOrphans := st.numOrphans-n } := by
  unfold decrementOrphans
  by_cases hn : n = 0
  · subst hn
    simp
  · rw [if_neg hn,if_neg (by omega)]

/-- What erasing along an index leaves of the counter and the entries. -/
structure Reaped (more : DoubleSpendProofStorage → Bool) (spared : Entry → Bool) (index : List Entry) (k : Nat)
    (st st' : DoubleSpendProofStorage) : Prop where
  counts : st'.Counts k
  maxOrphans : st'.maxOrphans = st.maxOrphans
  sublist : st'.proofs.Sublist st.proofs
  kept : ∀ e ∈ st.proofs, (e.orphan = false ∨ spared e = true) → e ∈ st'.proofs
  done : more st' = false ∨ ∀ e ∈ index, e.orphan = true → spared e = false → e ∉ st'.proofs

theorem eraseEntry_counts {e : Entry} (hc : st.Counts k) (he : e ∈ st.proofs) (ho : e.orphan = true) :
    1 ≤ st.numOrphans ∧ Counts { st.eraseEntry e.id with numOrphans := (st.eraseEntry e.id).numOrphans-1 } k := by
  have herase := countP_erase st.unique (find_of_mem st.unique he) Entry.orphan
  rw [if_pos ho] at herase
  simp only [Counts,countOrphans,eraseEntry] at hc ⊢
  omega

theorem eraseOrphans_reaped (more : DoubleSpendProofStorage → Bool) (spared : Entry → Bool) {index : List Entry}
    (hu : UniqueKeys Entry.id index) (hsub : ∀ e ∈ index, e ∈ st.proofs) (hc : st.Counts k) :
    ∃ st', eraseOrphans more spared index st = .ok st' ∧ Reaped more spared index k st st' := by
  induction index generalizing st with
  | nil => exact ⟨st,rfl,hc,rfl,List.Sublist.refl _,fun e he _ => he,.inr (by simp)⟩
  | cons e rest ih =>
    have hrest : UniqueKeys Entry.id rest := (nodup_cons.mp hu).2
    have hid : ∀ x ∈ rest, x.id ≠ e.id :=
      fun x hx he => (nodup_cons.mp hu).1 (mem_map.mpr ⟨x,hx,he⟩)
    simp only [eraseOrphans]
    by_cases hmore : more st
    · simp only [hmore,Bool.not_true,Bool.false_eq_true,if_false]
      by_cases hsel : e.orphan && !spared e
      · obtain ⟨ho,hs⟩ : e.orphan = true ∧ spared e = false := by simpa using hsel
        obtain ⟨hpos,hcounts⟩ := eraseEntry_counts hc (hsub e (mem_cons_self ..)) ho
        obtain ⟨st',hst',hr⟩ := ih hrest
          (fun x hx => mem_erase.mpr ⟨hsub x (mem_cons_of_mem _ hx),hid x hx⟩) hcounts
        refine ⟨st',?_,hr.counts,hr.maxOrphans,hr.sublist.trans filter_sublist,?_,?_⟩
        · have hdec : (st.eraseEntry e.id).decrementOrphans 1 = _ := decrementOrphans_ok hpos
          rw [if_pos hsel,hdec]
          exact hst'
        · intro x hx hkeep
          refine hr.kept x (mem_erase.mpr ⟨hx,?_⟩) hkeep
          intro he
          have hxe : x = e := inj_on_of_nodup_map st.unique hx (hsub e (mem_cons_self ..)) he
          rw [hxe,ho,hs] at hkeep
          simp at hkeep
        · refine hr.done.imp_right fun hdone x hx hxo hxs => ?_
          rcases mem_cons.mp hx with rfl | hx
          · exact fun hm => (mem_erase.mp (hr.sublist.subset hm)).2 rfl
          · exact hdone x hx hxo hxs
      · obtain ⟨st',hst',hr⟩ := ih hrest (fun x hx => hsub x (mem_cons_of_mem _ hx)) hc
        rw [if_neg hsel]
        refine ⟨st',hst',hr.counts,hr.maxOrphans,hr.sublist,hr.kept,hr.done.imp_right fun hdone x hx hxo hxs => ?_⟩
        rcases mem_cons.mp hx with rfl | hx
        · simp [hxo,hxs] at hsel
        · exact hdone x hx hxo hxs
    · have hstop : more st = false := by simpa using hmore
      simp only [hstop,Bool.not_false,if_true]
      exact ⟨st,rfl,hc,rfl,List.Sublist.refl _,fun e he _ => he,.inl hstop⟩

theorem checkOrphanLimit_spec (hash : DspId) (hc : st.Counts k) :
    ∃ st', st.checkOrphanLimit hash = .ok st' ∧ st'.Counts k ∧ st'.maxOrphans = st.maxOrphans ∧
      st'.proofs.Sublist st.proofs ∧
      (∀ e ∈ st.proofs, (e.orphan = false ∨ e.id = hash) → e ∈ st'.proofs) ∧
      (st'.numOrphans ≤ st.highWaterMark ∨ ∀ e ∈ st'.proofs, e.orphan = true → e.id = hash) := by
  unfold checkOrphanLimit
  by_cases hhigh : st.numOrphans > st.highWaterMark
  · rw [if_pos hhigh]
    obtain ⟨st',hst',hr⟩ := eraseOrphans_reaped (fun s => decide (s.numOrphans > st.maxOrphans))
      (fun e => hash == e.id) ((byTimeStamp_perm st).map Entry.id |>.nodup_iff.mpr st.unique)
      (fun e he => (byTimeStamp_perm st).mem_iff.mp he) hc
    refine ⟨st',hst',hr.counts,hr.maxOrphans,hr.sublist,?_,?_⟩
    · intro e he hkeep
      exact hr.kept e he (hkeep.imp_right fun h => by simp [h])
    · rcases hr.done with hdone | hdone
      · have hlow : st'.numOrphans ≤ st.maxOrphans := by simpa using hdone
        exact .inl (hlow.trans (by unfold highWaterMark; omega))
      · right
        intro e he ho
        by_contra hne
        exact hdone e ((byTimeStamp_perm st).mem_iff.mpr (hr.sublist.subset he)) ho
          (by simpa using Ne.symm hne) he
  · rw [if_neg hhigh]
    exact ⟨st,rfl,hc,rfl,List.Sublist.refl _,fun e he _ => he,.inl (by omega)⟩

theorem countOrphans_modify {hash : DspId} {e : Entry} (hf : find Entry.id hash st.proofs = some e)
    {f : Entry → Entry} (hid : ∀ e, (f e).id = e.id) :
    (st.modifyEntry hash f hid).countOrphans+(if e.orphan then 1 else 0) =
      st.countOrphans+(if (f e).orphan then 1 else 0) :=
  countP_modify st.unique hf Entry.orphan

theorem decrement_modify {hash : DspId} {e : Entry} (hc : st.Counts 0)
    (hf : find Entry.id hash st.proofs = some e) (ho : e.orphan = true) {f : Entry → Entry}
    (hid : ∀ e, (f e).id = e.id) (hoff : (f e).orphan = false) :
    st.decrementOrphans 1 = .ok { st with numOrphans := st.numOrphans-1 } ∧
      Counts (modifyEntry { st with numOrphans := st.numOrphans-1 } hash f hid) 0 := by
  have hcount := countOrphans_modify hf hid
  have herase := countP_erase st.unique hf Entry.orphan
  rw [if_pos ho,hoff] at hcount
  rw [if_pos ho] at herase
  simp only [Counts,countOrphans,modifyEntry] at hc hcount ⊢
  refine ⟨decrementOrphans_ok (by omega),?_⟩
  simp only [Bool.false_eq_true,if_false] at hcount
  omega

/-- An entry that is no orphan becomes one, within the high-water mark. -/
theorem increment_modify {hash : DspId} {e : Entry} (hc : st.Counts 0)
    (hf : find Entry.id hash st.proofs = some e) (ho : e.orphan = false) {f : Entry → Entry}
    (hid : ∀ e, (f e).id = e.id) (hon : (f e).orphan = true) :
    ∃ st', (st.incrementOrphans 1 hash).map (fun s => s.modifyEntry hash f hid) = .ok st' ∧
      st'.Counts 0 ∧ st'.maxOrphans = st.maxOrphans ∧ f e ∈ st'.proofs ∧
      st'.countOrphans ≤ max 1 st.highWaterMark := by
  have hc1 : Counts { st with numOrphans := st.numOrphans+1 } 1 := by
    simp only [Counts,countOrphans] at hc ⊢
    omega
  obtain ⟨st1,hst1,hcounts,hmax,hsub,hkept,hlimit⟩ := checkOrphanLimit_spec hash hc1
  have he : e ∈ st1.proofs := hkept e (find_mem hf) (.inl ho)
  have hf1 : find Entry.id hash st1.proofs = some e := find_key hf ▸ find_of_mem st1.unique he
  have hcount := countOrphans_modify hf1 hid
  rw [ho,hon] at hcount
  simp only [Bool.false_eq_true,if_false,if_true,Nat.add_zero] at hcount
  refine ⟨st1.modifyEntry hash f hid,?_,?_,hmax,modify_mem he (find_key hf),?_⟩
  · simp [incrementOrphans,hst1,Except.map]
  · unfold Counts at hcounts ⊢
    rw [Nat.add_zero,hcount,← hcounts]
    rfl
  · rw [hcount,← hcounts]
    rcases hlimit with hlow | hnone
    · exact hlow.trans (le_max_right ..)
    · have hzero : st1.countOrphans = 0 := by
        rw [countOrphans,countP_eq_zero]
        intro x hx hxo
        have hxe : x = e :=
          inj_on_of_nodup_map st1.unique hx he ((hnone x hx hxo).trans (find_key hf).symm)
        rw [hxe,ho] at hxo
        cases hxo
      rw [hcounts,hzero]
      exact le_max_left ..

theorem add_spec {proof : DoubleSpendProof} (hne : proof.isEmpty = false) (hc : st.Counts 0) :
    ∃ b st' e, st.add proof = .ok (b,st') ∧ st'.Counts 0 ∧ st'.maxOrphans = st.maxOrphans ∧
      find Entry.id proof.hash st'.proofs = some e ∧ e.orphan = false := by
  unfold add
  simp only [hne,Bool.false_eq_true,if_false]
  split
  · rename_i e hf
    have hk : e.id = proof.hash := find_key hf
    by_cases ho : e.orphan
    · obtain ⟨hdec,hcounts⟩ := decrement_modify hc hf ho
        (f := fun e => { e with orphan := false, nodeId := -1 }) (fun _ => rfl) rfl
      have hmem := modify_mem (f := fun e : Entry => { e with orphan := false, nodeId := -1 })
        (find_mem hf) hk
      refine ⟨false,_,{ e with orphan := false, nodeId := -1 },by rw [if_pos ho,hdec]; rfl,hcounts,rfl,?_,rfl⟩
      have hfind := find_of_mem (modifyEntry st proof.hash
        (fun e => { e with orphan := false, nodeId := -1 }) fun _ => rfl).unique hmem
      rwa [show Entry.id { e with orphan := false, nodeId := -1 } = proof.hash from hk] at hfind
    · exact ⟨false,st,e,by rw [if_neg ho],hc,rfl,hf,by simpa using ho⟩
  · rename_i hf
    refine ⟨true,_,Entry.new proof,rfl,?_,rfl,?_,rfl⟩
    · simp only [Counts,countOrphans] at hc ⊢
      rw [countP_append,hc]
      rfl
    · exact find_of_mem (e := Entry.new proof) (st.unique.concat hf) (mem_append_right _ (mem_singleton_self _))

theorem addOrphan_spec (now nodeId : Int) {proof : DoubleSpendProof} (hne : proof.isEmpty = false)
    (hc : st.Counts 0) {onlyIfNotExists : Bool}
    (hnew : ¬(onlyIfNotExists = true ∧ (find Entry.id proof.hash st.proofs).isSome = true)) :
    ∃ st', st.addOrphan now proof nodeId onlyIfNotExists = .ok (true,st') ∧ st'.Counts 0 ∧
      (∃ e ∈ st'.proofs, e.id = proof.hash ∧ e.orphan = true) ∧
      st'.countOrphans ≤ max 1 st'.highWaterMark := by
  obtain ⟨b,st1,e,hadd,hc1,hmax1,hf,ho⟩ := add_spec hne hc
  obtain ⟨st',hst',hcounts,hmax,hmem,hbound⟩ := increment_modify hc1 hf ho
    (f := markOrphan now nodeId) (fun _ => rfl) rfl
  have hk : e.id = proof.hash := find_key hf
  refine ⟨st',?_,hcounts,⟨markOrphan now nodeId e,hmem,hk,rfl⟩,?_⟩
  · unfold addOrphan
    rw [if_neg (by simpa using hnew),hadd]
    simp only [Except.bind,hf,ho,Bool.false_eq_true,if_false]
    cases hi : st1.incrementOrphans 1 proof.hash with
    | error err => rw [hi] at hst'; cases hst'
    | ok s =>
      rw [hi] at hst'
      simp only [Except.map,Except.ok.injEq] at hst' ⊢
      rw [hst']
  · rwa [highWaterMark,hmax]

theorem orphanEach_spec (now : Int) (size ctr : Nat) (l : List Entry)
    (h : st.numOrphans+ctr+l.countP (fun e => !e.orphan) = size) :
    st.orphanEach now size ctr l =
      (l.map fun e => if e.orphan then e else stampOrphan now e,ctr+l.countP fun e => !e.orphan) := by
  induction l generalizing ctr with
  | nil => rfl
  | cons e l ih =>
    rw [countP_cons] at h
    simp only [orphanEach,map_cons,countP_cons]
    by_cases hlt : st.numOrphans+ctr < size
    · rw [if_pos hlt]
      cases ho : e.orphan with
      | true =>
        simp only [ho,Bool.not_true,Bool.false_eq_true,if_false,Nat.add_zero] at h
        simp [ih ctr h]
      | false =>
        simp only [ho,Bool.not_false,if_true] at h
        simp only [Bool.false_eq_true,if_false,Bool.not_false,if_true]
        rw [ih (ctr+1) (by omega)]
        simp only [Prod.mk.injEq,true_and]
        omega
    · -- the loop has seen that all are orphans
      have hrest : l.countP (fun e => !e.orphan) = 0 := by omega
      have he : e.orphan = true := by
        by_contra hf
        rw [if_pos (by simpa using hf)] at h
        omega
      have hid : l.map (fun e => if e.orphan then e else stampOrphan now e) = l := by
        nth_rewrite 2 [← map_id l]
        refine map_congr_left fun x hx => ?_
        have hx := countP_eq_zero.mp hrest x hx
        rw [if_pos (by simpa using hx)]
        rfl
      rw [if_neg hlt,hid,hrest,he]
      rfl

theorem orphanAll_spec (now : Int) (hc : st.Counts 0) : ∃ st', st.orphanAll now = .ok st' ∧ st'.Counts 0 ∧
      ((∃ e ∈ st.proofs, e.orphan = false) → st'.countOrphans ≤ max 1 st'.highWaterMark) := by
  have hlen : st.proofs.length = st.proofs.countP Entry.orphan+st.proofs.countP fun e => !e.orphan := by
    simpa using length_eq_countP_add_countP Entry.orphan (l := st.proofs)
  have heach : st.orphanEach now st.proofs.length 0 st.proofs = _ :=
    orphanEach_spec now st.proofs.length 0 st.proofs (by
      simp only [Counts,countOrphans] at hc
      omega)
  have hall : ((st.orphanEach now st.proofs.length 0 st.proofs).1).countP Entry.orphan = st.proofs.length := by
    rw [heach,countP_map,countP_eq_length.mpr]
    intro e _
    cases ho : e.orphan <;> simp [ho,stampOrphan]
  have hctr : (st.orphanEach now st.proofs.length 0 st.proofs).2 = st.proofs.countP fun e => !e.orphan := by
    rw [heach,Nat.zero_add]
  unfold orphanAll incrementOrphans
  simp only [hctr]
  by_cases hz : st.proofs.countP (fun e => !e.orphan) = 0
  · rw [if_pos hz]
    refine ⟨_,rfl,?_,?_⟩
    · simp only [Counts,countOrphans] at hc ⊢
      rw [hall]
      omega
    · rintro ⟨e,he,ho⟩
      exact absurd (by simp [ho]) (countP_eq_zero.mp hz e he)
  · rw [if_neg hz]
    have hmarked : Counts {
        st with
        proofs := (st.orphanEach now st.proofs.length 0 st.proofs).1
        unique := by rw [UniqueKeys,orphanEach_keys]; exact st.unique
        numOrphans := st.numOrphans+st.proofs.countP fun e => !e.orphan } 0 := by
      simp only [Counts,countOrphans] at hc ⊢
      rw [hall]
      omega
    obtain ⟨st',hst',hcounts,hmax,hsub,-,hlimit⟩ := checkOrphanLimit_spec 0 hmarked
    refine ⟨st',hst',hcounts,fun _ => ?_⟩
    rcases hlimit with hlow | hnone
    · rw [highWaterMark,hmax]
      rw [Counts,Nat.add_zero] at hcounts
      exact (hcounts ▸ hlow).trans (le_max_right ..)
    · exact (countP_key_le_one st'.unique hnone).trans (le_max_left ..)

theorem claimOrphan_spec (hash : DspId) (hc : st.Counts 0) : ∃ st', st.claimOrphan hash = .ok st' ∧ st'.Counts 0 := by
  unfold claimOrphan
  split
  · rename_i e hf
    by_cases ho : e.orphan
    · obtain ⟨hdec,hcounts⟩ := decrement_modify hc hf ho
        (f := fun e => { e with orphan := false }) (fun _ => rfl) rfl
      exact ⟨_,by rw [if_pos ho,hdec]; rfl,hcounts⟩
    · exact ⟨st,by rw [if_neg ho],hc⟩
  · exact ⟨st,rfl,hc⟩

theorem orphanExisting_spec (now : Int) (hash : DspId) (hc : st.Counts 0) :
    ∃ st', st.orphanExisting now hash = .ok st' ∧ st'.Counts 0 ∧
      ((∃ e ∈ st.proofs, e.id = hash) → ∃ e ∈ st'.proofs, e.id = hash) ∧
      ((∃ e, find Entry.id hash st.proofs = some e ∧ e.orphan = false) →
        st'.countOrphans ≤ max 1 st'.highWaterMark) := by
  unfold orphanExisting
  split
  · rename_i e hf
    have hk : e.id = hash := find_key hf
    by_cases ho : e.orphan
    · refine ⟨st,by simp [ho],hc,id,?_⟩
      rintro ⟨x,hx,hxo⟩
      rw [hf] at hx
      cases hx
      rw [ho] at hxo
      cases hxo
    · have ho : e.orphan = false := by simpa using ho
      obtain ⟨st',hst',hcounts,hmax,hmem,hbound⟩ := increment_modify hc hf ho
        (f := stampOrphan now) (fun _ => rfl) rfl
      refine ⟨st',by rw [if_pos (by simp [ho])]; exact hst',hcounts,fun _ => ⟨_,hmem,hk⟩,fun _ => ?_⟩
      rwa [highWaterMark,hmax]
  · rename_i hf
    exact ⟨st,rfl,hc,id,fun ⟨x,hx,_⟩ => absurd hx (by simp [hf])⟩

theorem remove_spec (hash : DspId) (hc : st.Counts 0) : ∃ b st', st.remove hash = .ok (b,st') ∧ st'.Counts 0 := by
  unfold remove
  split
  · rename_i e hf
    have herase := countP_erase st.unique hf Entry.orphan
    simp only [Counts,countOrphans] at hc
    have hdec : st.decrementOrphans (if e.orphan then 1 else 0) = _ := decrementOrphans_ok (by omega)
    refine ⟨true,_,by rw [hdec]; rfl,?_⟩
    simp only [Counts,countOrphans,eraseEntry]
    omega
  · exact ⟨false,st,rfl,hc⟩

theorem clear_spec (clearOrphans : Bool) (hc : st.Counts 0) : (st.clear clearOrphans).Counts 0 := by
  unfold clear
  cases clearOrphans with
  | true => rfl
  | false =>
    simp only [Counts,countOrphans,Bool.false_eq_true,if_false] at hc ⊢
    rw [countP_filter,hc]
    simp

theorem periodicCleanup_spec (now : Int) (hc : st.Counts 0) :
    ∃ st', st.periodicCleanup now = .ok st' ∧ st'.Counts 0 := by
  have hunique : UniqueKeys Entry.id st.byTimeStamp := (byTimeStamp_perm st).map Entry.id |>.nodup_iff.mpr st.unique
  have hpre := takeWhile_prefix (l := st.byTimeStamp)
    fun e => decide (e.timeStamp ≤ now-st.secondsToKeepOrphans)
  obtain ⟨st',hst',hr⟩ := eraseOrphans_reaped (fun _ => true) (fun _ => false)
    (hunique.sublist (hpre.sublist.map Entry.id))
    (fun e he => (byTimeStamp_perm st).mem_iff.mp (hpre.subset he)) hc
  exact ⟨st',hst',hr.counts⟩
end Spec

def Call.emptyProof : Call → Bool
  | .add proof | .addOrphan proof _ _ => proof.isEmpty
  | _ => false

def Call.Orphans (st : DoubleSpendProofStorage) : Call → Prop
  | .addOrphan proof _ onlyIfNotExists =>
    ¬(onlyIfNotExists = true ∧ (find Entry.id proof.hash st.proofs).isSome = true)
  | .orphanExisting hash => ∃ e, find Entry.id hash st.proofs = some e ∧ e.orphan = false
  | .orphanAll => ∃ e ∈ st.proofs, e.orphan = false
  | _ => False

def Call.Keeps (st st' : DoubleSpendProofStorage) : Call → Prop
  | .addOrphan proof _ _ => ∃ e ∈ st'.proofs, e.id = proof.hash
  | .orphanExisting hash => (∃ e ∈ st.proofs, e.id = hash) → ∃ e ∈ st'.proofs, e.id = hash
  | _ => True

theorem exec_spec {st : DoubleSpendProofStorage} (hc : st.Counts 0) (now : Int) (call : Call) :
    ExceptPost (fun err => err = .logicError "add: DSProof is empty" ∧ call.emptyProof = true)
      (fun st' => st'.Counts 0 ∧ (call.Orphans st → st'.countOrphans ≤ max 1 st'.highWaterMark) ∧
        call.Keeps st st') (st.exec now call) := by
  cases call with
  | add proof =>
    by_cases hne : proof.isEmpty
    · simp only [exec,add,hne,if_true]
      exact ⟨rfl,hne⟩
    · obtain ⟨b,st',e,hadd,hcounts,-⟩ := add_spec (by simpa using hne) hc
      simp only [exec,hadd]
      exact ⟨hcounts,False.elim,trivial⟩
  | addOrphan proof nodeId onlyIfNotExists =>
    by_cases hnew : onlyIfNotExists = true ∧ (find Entry.id proof.hash st.proofs).isSome = true
    · obtain ⟨e,he⟩ := Option.isSome_iff_exists.mp hnew.2
      simp only [exec,addOrphan,hnew.1,hnew.2,Bool.and_self,if_true]
      exact ⟨hc,fun h => absurd ⟨rfl,hnew.2⟩ h,e,find_mem he,find_key he⟩
    · by_cases hne : proof.isEmpty
      · simp only [exec,addOrphan,add,hne,if_true,if_neg (by simpa using hnew : ¬(onlyIfNotExists &&
          (find Entry.id proof.hash st.proofs).isSome) = true)]
        exact ⟨rfl,hne⟩
      · obtain ⟨st',hadd,hcounts,⟨e,he,hid,-⟩,hbound⟩ := addOrphan_spec now nodeId (by simpa using hne) hc hnew
        simp only [exec,hadd]
        exact ⟨hcounts,fun _ => hbound,e,he,hid⟩
  | claimOrphan hash =>
    obtain ⟨st',hst',hcounts⟩ := claimOrphan_spec hash hc
    simp only [exec,hst']
    exact ⟨hcounts,False.elim,trivial⟩
  | orphanExisting hash =>
    obtain ⟨st',hst',hcounts,hkeep,hbound⟩ := orphanExisting_spec now hash hc
    simp only [exec,hst']
    exact ⟨hcounts,hbound,hkeep⟩
  | orphanAll =>
    obtain ⟨st',hst',hcounts,hbound⟩ := orphanAll_spec now hc
    simp only [exec,hst']
    exact ⟨hcounts,hbound,trivial⟩
  | remove hash =>
    obtain ⟨b,st',hst',hcounts⟩ := remove_spec hash hc
    simp only [exec,hst']
    exact ⟨hcounts,False.elim,trivial⟩
  | clear clearOrphans => exact ⟨clear_spec clearOrphans hc,False.elim,trivial⟩
  | setMaxOrphans max => exact ⟨hc,False.elim,trivial⟩
  | setSecondsToKeepOrphans secs =>
    refine ⟨?_,False.elim,trivial⟩
    unfold setSecondsToKeepOrphans
    split_ifs
    · exact hc
    · exact hc
  | periodicCleanup =>
    obtain ⟨st',hst',hcounts⟩ := periodicCleanup_spec now hc
    simp only [exec,hst']
    exact ⟨hcounts,False.elim,trivial⟩

theorem execAll_counts (calls : List (Int × Call)) {st : DoubleSpendProofStorage} (hc : st.Counts 0) :
    (execAll st calls).Counts 0 := by
  induction calls generalizing st with
  | nil => exact hc
  | cons c rest ih =>
    refine ih ?_
    have hspec := exec_spec hc c.1 c.2
    cases he : st.exec c.1 c.2 with
    | error err => exact hc
    | ok st' =>
      rw [he] at hspec
      exact hspec.1

/-- After every sequence of calls the counter is exact, and a call that makes orphans keeps to the limit. -/
theorem numOrphans_exact (calls : List (Int × Call)) (now : Int) (call : Call) :
    (execAll empty calls).numOrphans = (execAll empty calls).countOrphans ∧
    ExceptPost (fun err => err = .logicError "add: DSProof is empty" ∧ call.emptyProof = true)
      (fun st' => st'.numOrphans = st'.countOrphans ∧
        (call.Orphans (execAll empty calls) → st'.countOrphans ≤ max 1 (st'.maxOrphans*5/4)) ∧
        call.Keeps (execAll empty calls) st') ((execAll empty calls).exec now call) := by
  have hc : (execAll empty calls).Counts 0 := execAll_counts calls rfl
  exact ⟨hc,exec_spec hc now call⟩
end DoubleSpendProofStorage
end BitfiniteCore
