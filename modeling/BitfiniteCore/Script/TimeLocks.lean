import BitfiniteCore.Chain.Abla
import BitfiniteCore.Script.FlagMonotone
import Mathlib.Data.Nat.Bitwise

/-! # Time locks -/

namespace BitfiniteCore
open ScriptFlags Relation

section Locks

def lockTimeThreshold : Nat := 500000000

def sequenceFinal : Nat := 0xffffffff

def sequenceLockTimeTypeFlag : Nat := 2^22

def sequenceLockTimeMask : Nat := 0xffff

def sequenceLockTimeGranularity : Nat := 9

def locktimeVerifySequence : Nat := 1

def isFinalTx (tx : CTransaction) (nBlockHeight nBlockTime : Nat) : Bool :=
  if tx.nLockTime = 0 then true
  else if tx.nLockTime < (if tx.nLockTime < lockTimeThreshold then nBlockHeight else nBlockTime) then true
  else tx.vin.all fun txin => txin.nSequence == sequenceFinal

/-- The version is signed, and relative locks read it as unsigned. -/
def CTransaction.unsignedVersion (tx : CTransaction) : Int := tx.nVersion%2^32

variable (n : AblaNode) (block : BlockHash)

def lockInput (txin : CTxIn) (nCoinHeight : Nat) (locks : Int × Int) : Except Stop (Int × Int) :=
  if txin.nSequence &&& sequenceLockTimeTypeFlag ≠ 0 then
    match n.tree.getAncestor block (nCoinHeight-1) with
    | none => .error (.assertion "block.GetAncestor(std::max(nCoinHeight - 1, 0))")
    | some ancestor => .ok (locks.1,max locks.2 ((n.getMedianTimePast ancestor : Int)+
        ((txin.nSequence &&& sequenceLockTimeMask) <<< sequenceLockTimeGranularity : Nat)-1))
  else .ok (max locks.1 ((nCoinHeight : Int)+(txin.nSequence &&& sequenceLockTimeMask : Nat)-1),locks.2)

/-- The heights of the inputs without a lock are cleared. -/
def lockInputs : List (CTxIn × Nat) → Int × Int → Except Stop ((Int × Int) × List Nat)
  | [], locks => .ok (locks,[])
  | (txin,nCoinHeight)::inputs, locks =>
    if txin.nSequence &&& sequenceLockTimeDisableFlag ≠ 0 then
      (lockInputs inputs locks).map fun r => (r.1,0::r.2)
    else (lockInput n block txin nCoinHeight locks).bind fun locks =>
      (lockInputs inputs locks).map fun r => (r.1,nCoinHeight::r.2)

def calculateSequenceLocks (tx : CTransaction) (flags : Nat) (prevHeights : List Nat) :
    Except Stop ((Int × Int) × List Nat) :=
  if prevHeights.length ≠ tx.vin.length then .error (.assertion "prevHeights->size() == tx.vin.size()")
  else if 2 ≤ tx.unsignedVersion ∧ flags &&& locktimeVerifySequence ≠ 0 then
    lockInputs n block (tx.vin.zip prevHeights) (-1,-1)
  else .ok ((-1,-1),prevHeights)

def evaluateSequenceLocks (lockPair : Int × Int) : Except Stop Bool :=
  match n.tree.parent block with
  | none => .error (.assertion "block.pprev")
  | some prev => .ok (!(decide ((n.tree.height block : Int) ≤ lockPair.1) ||
      decide ((n.getMedianTimePast prev : Int) ≤ lockPair.2)))

def sequenceLocks (tx : CTransaction) (flags : Nat) (prevHeights : List Nat) : Except Stop Bool :=
  (calculateSequenceLocks n block tx flags prevHeights).bind fun r => evaluateSequenceLocks n block r.1
end Locks

section Checker

variable (tx : CTransaction) (nIn : Nat)

/-- The sequence number of the input; a context always has its input. -/
def inputSequence : Nat := ((tx.vin[nIn]?).map CTxIn.nSequence).getD sequenceFinal

def CTransaction.checkLockTime (nLockTime : Int) : Bool :=
  if !((decide (tx.nLockTime < lockTimeThreshold) && decide (nLockTime < lockTimeThreshold)) ||
      (decide (lockTimeThreshold ≤ tx.nLockTime) && decide ((lockTimeThreshold : Int) ≤ nLockTime))) then false
  else if (tx.nLockTime : Int) < nLockTime then false
  else inputSequence tx nIn != sequenceFinal

/-- Only called with operands that are not negative. -/
def CTransaction.checkSequence (nSequence : Int) : Bool :=
  let nLockTimeMask := sequenceLockTimeTypeFlag ||| sequenceLockTimeMask
  let txToSequenceMasked := inputSequence tx nIn &&& nLockTimeMask
  let nSequenceMasked := nSequence.toNat &&& nLockTimeMask
  if tx.unsignedVersion < 2 then false
  else if inputSequence tx nIn &&& sequenceLockTimeDisableFlag ≠ 0 then false
  else if !((decide (txToSequenceMasked < sequenceLockTimeTypeFlag) &&
        decide (nSequenceMasked < sequenceLockTimeTypeFlag)) ||
      (decide (sequenceLockTimeTypeFlag ≤ txToSequenceMasked) &&
        decide (sequenceLockTimeTypeFlag ≤ nSequenceMasked))) then false
  else decide (nSequenceMasked ≤ txToSequenceMasked)

def SignatureChecker.forInput (checker : SignatureChecker) : SignatureChecker :=
  { checker with checkLockTime := tx.checkLockTime nIn, checkSequence := tx.checkSequence nIn }
end Checker

section Masks

private theorem and_mask (x : Nat) : x &&& sequenceLockTimeMask = x%2^16 := Nat.and_two_pow_sub_one_eq_mod x 16

private theorem and_typeFlag (x : Nat) : x &&& sequenceLockTimeTypeFlag = 2^22*(x.testBit 22).toNat := by
  rw [sequenceLockTimeTypeFlag,Nat.and_two_pow,Nat.mul_comm]

private theorem and_bothMasks (x : Nat) :
    x &&& (sequenceLockTimeTypeFlag ||| sequenceLockTimeMask) = 2^22*(x.testBit 22).toNat+x%2^16 := by
  have hlt : x%2^16 < 2^22 := (Nat.mod_lt x (by decide)).trans (by decide)
  rw [Nat.and_or_distrib_left,and_mask,and_typeFlag,Nat.two_pow_add_eq_or_of_lt hlt]

theorem checkSequence_spec {tx : CTransaction} {nIn : Nat} {nSequence : Int}
    (h : tx.checkSequence nIn nSequence = true) :
    2 ≤ tx.unsignedVersion ∧ inputSequence tx nIn &&& sequenceLockTimeDisableFlag = 0 ∧
      inputSequence tx nIn &&& sequenceLockTimeTypeFlag = nSequence.toNat &&& sequenceLockTimeTypeFlag ∧
      nSequence.toNat &&& sequenceLockTimeMask ≤ inputSequence tx nIn &&& sequenceLockTimeMask := by
  unfold CTransaction.checkSequence at h
  dsimp only at h
  split_ifs at h with hversion hdisable hkind
  rw [and_bothMasks,and_bothMasks,sequenceLockTimeTypeFlag] at hkind
  rw [and_bothMasks,and_bothMasks,decide_eq_true_eq] at h
  rw [and_typeFlag,and_typeFlag,and_mask,and_mask]
  refine ⟨not_lt.mp hversion,not_not.mp hdisable,?_,?_⟩
  · cases hb : (inputSequence tx nIn).testBit 22 <;> cases hc : nSequence.toNat.testBit 22 <;>
      simp [hb,hc] at hkind ⊢ <;> omega
  · cases hb : (inputSequence tx nIn).testBit 22 <;> cases hc : nSequence.toNat.testBit 22 <;>
      simp [hb,hc] at hkind h ⊢ <;> omega

theorem checkLockTime_spec {tx : CTransaction} {nIn : Nat} {nLockTime : Int}
    (h : tx.checkLockTime nIn nLockTime = true) :
    (nLockTime < lockTimeThreshold ↔ tx.nLockTime < lockTimeThreshold) ∧ nLockTime ≤ tx.nLockTime ∧
      inputSequence tx nIn ≠ sequenceFinal := by
  unfold CTransaction.checkLockTime at h
  split_ifs at h with hkind hlt
  refine ⟨?_,not_lt.mp hlt,bne_iff_ne.mp h⟩
  simp at hkind
  omega
end Masks

section Bounds

variable {n : AblaNode} {block : BlockHash} {tx : CTransaction}

theorem isFinalTx_spec {nBlockHeight nBlockTime nIn : Nat} (h : isFinalTx tx nBlockHeight nBlockTime = true)
    (hin : inputSequence tx nIn ≠ sequenceFinal) :
    tx.nLockTime = 0 ∨ tx.nLockTime < (if tx.nLockTime < lockTimeThreshold then nBlockHeight else nBlockTime) := by
  by_contra hnot
  rw [not_or] at hnot
  unfold isFinalTx at h
  rw [if_neg hnot.1,if_neg hnot.2,List.all_eq_true] at h
  apply hin
  unfold inputSequence
  cases hi : tx.vin[nIn]? with
  | none => rfl
  | some txin => exact beq_iff_eq.mp (h txin (List.mem_of_getElem? hi))

/-- What a pair of last invalid height and time says of an input. -/
def LockedBy (n : AblaNode) (block : BlockHash) (locks : Int × Int) (txin : CTxIn) (nCoinHeight : Nat) : Prop :=
  txin.nSequence &&& sequenceLockTimeDisableFlag = 0 → (txin.nSequence &&& sequenceLockTimeTypeFlag = 0 →
      (nCoinHeight : Int)+(txin.nSequence &&& sequenceLockTimeMask : Nat)-1 ≤ locks.1) ∧
    (txin.nSequence &&& sequenceLockTimeTypeFlag ≠ 0 →
      ∃ ancestor, n.tree.getAncestor block (nCoinHeight-1) = some ancestor ∧
        (n.getMedianTimePast ancestor : Int)+512*(txin.nSequence &&& sequenceLockTimeMask : Nat)-1 ≤ locks.2)

theorem LockedBy.mono {locks locks' : Int × Int} {txin : CTxIn} {nCoinHeight : Nat}
    (h : LockedBy n block locks txin nCoinHeight) (hle : locks ≤ locks') :
    LockedBy n block locks' txin nCoinHeight := by
  intro hdisable
  constructor
  · exact fun htype => ((h hdisable).1 htype).trans hle.1
  · intro htype
    obtain ⟨ancestor,ha,hbound⟩ := (h hdisable).2 htype
    exact ⟨ancestor,ha,hbound.trans hle.2⟩

theorem lockInput_post (txin : CTxIn) (nCoinHeight : Nat) (locks : Int × Int) :
    ExceptPost (fun _ => True) (fun locks' => locks ≤ locks' ∧ LockedBy n block locks' txin nCoinHeight)
      (lockInput n block txin nCoinHeight locks) := by
  apply ExceptPost.ite
  · intro htype
    split
    · trivial
    · rename_i ancestor ha
      refine ⟨⟨le_rfl,le_max_left _ _⟩,fun _ => ⟨fun h => absurd h htype,fun _ => ⟨ancestor,ha,?_⟩⟩⟩
      rw [Nat.shiftLeft_eq,sequenceLockTimeGranularity,Nat.mul_comm]
      exact le_max_right _ _
  · intro htype
    exact ⟨⟨le_max_left _ _,le_rfl⟩,fun _ => ⟨fun _ => le_max_right _ _,fun h => absurd h htype⟩⟩

theorem lockInputs_post (inputs : List (CTxIn × Nat)) (locks : Int × Int) :
    ExceptPost (fun _ => True) (fun r => locks ≤ r.1 ∧ ∀ input ∈ inputs, LockedBy n block r.1 input.1 input.2)
      (lockInputs n block inputs locks) := by
  induction inputs generalizing locks with
  | nil => exact ⟨le_rfl,fun _ h => nomatch h⟩
  | cons input inputs ih =>
    obtain ⟨txin,nCoinHeight⟩ := input
    apply ExceptPost.ite
    · intro hdisable
      apply (ih locks).map
      exact fun r h => ⟨h.1,List.forall_mem_cons.mpr ⟨fun h0 => absurd h0 hdisable,h.2⟩⟩
    · intro _
      apply (lockInput_post txin nCoinHeight locks).bind
      intro locks' h'
      apply (ih locks').map
      exact fun r h => ⟨h'.1.trans h.1,List.forall_mem_cons.mpr ⟨h'.2.mono h.1,h.2⟩⟩

theorem sequenceLocks_spec {flags nIn nCoinHeight : Nat} {prevHeights : List Nat} {txin : CTxIn} {prev : BlockHash}
    (h : sequenceLocks n block tx flags prevHeights = .ok true) (hflags : flags &&& locktimeVerifySequence ≠ 0)
    (hversion : 2 ≤ tx.unsignedVersion) (hprev : n.tree.parent block = some prev)
    (hin : tx.vin[nIn]? = some txin) (hcoin : prevHeights[nIn]? = some nCoinHeight)
    (hdisable : txin.nSequence &&& sequenceLockTimeDisableFlag = 0) :
    (txin.nSequence &&& sequenceLockTimeTypeFlag = 0 →
      nCoinHeight+(txin.nSequence &&& sequenceLockTimeMask) ≤ n.tree.height block) ∧
    (txin.nSequence &&& sequenceLockTimeTypeFlag ≠ 0 →
      ∃ ancestor, n.tree.getAncestor block (nCoinHeight-1) = some ancestor ∧
        n.getMedianTimePast ancestor+512*(txin.nSequence &&& sequenceLockTimeMask) ≤ n.getMedianTimePast prev) := by
  have hmem : (txin,nCoinHeight) ∈ tx.vin.zip prevHeights := by
    apply List.mem_of_getElem? (i := nIn)
    rw [List.getElem?_zip_eq_some]
    exact ⟨hin,hcoin⟩
  have hpost : ExceptPost (fun _ => True) (fun r => LockedBy n block r.1 txin nCoinHeight)
      (calculateSequenceLocks n block tx flags prevHeights) := by
    unfold calculateSequenceLocks
    rw [if_pos (And.intro hversion hflags)]
    apply ExceptPost.ite
    · exact fun _ => trivial
    · intro _
      apply (lockInputs_post _ _).mono
      exact fun r h => h.2 _ hmem
  have heval : ExceptPost (fun _ => True) (fun ok => ok = true → ∃ locks : Int × Int,
      LockedBy n block locks txin nCoinHeight ∧ locks.1 < n.tree.height block ∧
        locks.2 < n.getMedianTimePast prev) (sequenceLocks n block tx flags prevHeights) := by
    apply hpost.bind
    intro r hr
    unfold evaluateSequenceLocks
    rw [hprev]
    intro hok
    simp only [Bool.not_eq_true',Bool.or_eq_false_iff,decide_eq_false_iff_not,not_le] at hok
    exact ⟨r.1,hr,hok⟩
  obtain ⟨locks,hlocked,hheight,htime⟩ := heval.result h rfl
  constructor
  · intro htype
    have := (hlocked hdisable).1 htype
    omega
  · intro htype
    obtain ⟨ancestor,ha,hbound⟩ := (hlocked hdisable).2 htype
    exact ⟨ancestor,ha,by omega⟩
end Bounds

section Execution

variable (ops : CryptoOps) (checker : SignatureChecker) (flags : UInt32)

def StepsTo (st st' : EvalState) : Prop := st.pc ≠ [] ∧ evalStep ops checker flags st = .ok st'

/-- The scripts that `VerifyScript` evaluates, each with the stack and the count it starts from. -/
inductive Evaluates (scriptSig scriptPubKey : CScript) : List Bytes → CScript → Nat → Prop
  | scriptSig : Evaluates scriptSig scriptPubKey [] scriptSig 0
  | scriptPubKey {r} (hsig : evalScript ops checker flags [] scriptSig 0 = .ok r) :
      Evaluates scriptSig scriptPubKey r.1 scriptPubKey r.2
  | redeemScript {pubKey2 stack nSig s p2sh32}
      (hsig : evalScript ops checker flags [] scriptSig 0 = .ok (pubKey2::stack,nSig))
      (hpub : evalScript ops checker flags (pubKey2::stack) scriptPubKey nSig = .ok s)
      (hp2sh : hasFlag flags verifyP2SH = true)
      (hhash : isPayToScriptHashOf scriptPubKey flags = some p2sh32)
      (hrecovery : (!hasFlag flags disallowSegwitRecovery && !p2sh32 && stack.isEmpty &&
        CScript.isWitnessProgram pubKey2) = false) :
      Evaluates scriptSig scriptPubKey stack pubKey2 s.2

def Executing (opcode : UInt8) (st : EvalState) : Prop :=
  st.vfExec.allTrue = true ∧ ∃ vch rest, getScriptOp st.pc = (some (opcode,vch),rest)

def lockOperand (st : EvalState) : Eval Int :=
  (stacktop st.stack 1).bind fun vch => CScriptNum.fromBytes vch (fRequireMinimal flags) 5

variable {ops checker flags}

theorem evalLoop_stepsTo {fuel : Nat} {st st' r : EvalState} (h : evalLoop ops checker flags fuel st = .ok r)
    (hstep : StepsTo ops checker flags st st') : ∃ fuel', evalLoop ops checker flags fuel' st' = .ok r := by
  have hpc : ¬st.pc.isEmpty := by simpa using hstep.1
  cases fuel with
  | zero =>
    rw [evalLoop,if_neg hpc] at h
    cases h
  | succ fuel =>
    rw [evalLoop,if_neg hpc,hstep.2] at h
    exact ⟨fuel,h⟩

theorem evalStep_of_evalLoop {fuel : Nat} {st r : EvalState} (h : evalLoop ops checker flags fuel st = .ok r)
    (hpc : st.pc ≠ []) : ∃ st', evalStep ops checker flags st = .ok st' := by
  have hpc' : ¬st.pc.isEmpty := by simpa using hpc
  cases fuel with
  | zero =>
    rw [evalLoop,if_neg hpc'] at h
    cases h
  | succ fuel =>
    rw [evalLoop,if_neg hpc'] at h
    cases hs : evalStep ops checker flags st with
    | error e => rw [hs] at h; cases h
    | ok st' => exact ⟨st',rfl⟩

theorem evalStep_of_evalScript {stack : List Bytes} {script : CScript} {nSigChecks : Nat} {r : List Bytes × Nat}
    {st : EvalState} (h : evalScript ops checker flags stack script nSigChecks = .ok r)
    (hreach : ReflTransGen (StepsTo ops checker flags) (evalStart stack script nSigChecks) st) (hpc : st.pc ≠ []) :
    ∃ st', evalStep ops checker flags st = .ok st' := by
  have hloop : ∃ fuel r, evalLoop ops checker flags fuel st = .ok r := by
    induction hreach with
    | refl =>
      cases hl : evalLoop ops checker flags script.length (evalStart stack script nSigChecks) with
      | ok r => exact ⟨_,r,hl⟩
      | error e =>
        unfold evalScript at h
        rw [hl] at h
        cases hr : require (script.length ≤ maxScriptSize) .scriptSize <;> rw [hr] at h <;> cases h
    | tail _ hstep ih =>
      obtain ⟨fuel,r,hr⟩ := ih hstep.1
      obtain ⟨fuel',h'⟩ := evalLoop_stepsTo hr hstep
      exact ⟨fuel',r,h'⟩
  obtain ⟨fuel,r,hr⟩ := hloop
  exact evalStep_of_evalLoop hr hpc

theorem evalScript_of_verifyScript {scriptSig scriptPubKey script : CScript} {stack : List Bytes} {k nSigChecks : Nat}
    (h : verifyScript ops checker scriptSig scriptPubKey flags = .ok nSigChecks)
    (he : Evaluates ops checker (verifyFlags flags) scriptSig scriptPubKey stack script k) :
    ∃ r, evalScript ops checker (verifyFlags flags) stack script k = .ok r := by
  obtain ⟨-,-,h⟩ := except_bind_ok.mp h
  obtain ⟨r,hr,h⟩ := except_bind_ok.mp h
  obtain ⟨s,hs,h⟩ := except_bind_ok.mp h
  obtain ⟨-,-,h⟩ := except_bind_ok.mp h
  cases he with
  | scriptSig => exact ⟨r,hr⟩
  | scriptPubKey hsig =>
    cases hr.symm.trans hsig
    exact ⟨s,hs⟩
  | redeemScript hsig hpub hp2sh hhash hrecovery =>
    cases hr.symm.trans hsig
    cases hs.symm.trans hpub
    rw [if_pos hp2sh,hhash] at h
    obtain ⟨-,-,h⟩ := except_bind_ok.mp h
    dsimp only at h
    rw [hrecovery,if_neg (by decide)] at h
    obtain ⟨r',hr',-⟩ := except_bind_ok.mp h
    exact ⟨r',hr'⟩

theorem require_post {E : ScriptStop → Prop} {c : Bool} {e : ScriptError} (he : E (.error e)) :
    ExceptPost E (fun _ => c = true) (require c e) := by
  unfold require
  split
  · assumption
  · exact he

theorem checkLockTimeVerify_post (hflag : hasFlag flags verifyCheckLockTimeVerify = true) (st : EvalState) :
    ExceptPost (fun _ => True) (fun _ => ∃ num, lockOperand flags st = .ok num ∧ 0 ≤ num ∧
      checker.checkLockTime num = true) (checkLockTimeVerify checker flags st) := by
  unfold checkLockTimeVerify lockOperand
  rw [hflag]
  refine .bind (.any _) fun _ _ => .bind (.self _) fun vch hvch => .bind (.self _) fun num hnum =>
    .bind (require_post trivial) fun _ hpos => .map (require_post trivial) fun _ hcheck =>
      ⟨num,?_,of_decide_eq_true hpos,hcheck⟩
  rw [hvch]
  exact hnum

theorem checkSequenceVerify_post (hflag : hasFlag flags verifyCheckSequenceVerify = true) (st : EvalState) :
    ExceptPost (fun _ => True) (fun _ => ∃ num, lockOperand flags st = .ok num ∧ 0 ≤ num ∧
      (num.toNat &&& sequenceLockTimeDisableFlag = 0 → checker.checkSequence num = true))
      (checkSequenceVerify checker flags st) := by
  unfold checkSequenceVerify lockOperand
  rw [hflag]
  refine .bind (.any _) fun _ _ => .bind (.self _) fun vch hvch => .bind (.self _) fun num hnum =>
    .bind (require_post trivial) fun _ hpos => ?_
  have hop : (stacktop st.stack 1).bind (fun vch => CScriptNum.fromBytes vch (fRequireMinimal flags) 5) = .ok num := by
    rw [hvch]
    exact hnum
  apply ExceptPost.ite
  · exact fun hset => ⟨num,hop,of_decide_eq_true hpos,fun h0 => absurd h0 hset⟩
  · exact fun _ => .map (require_post trivial) fun _ hcheck => ⟨num,hop,of_decide_eq_true hpos,fun _ => hcheck⟩

theorem evalStep_executing {opcode : UInt8} {st : EvalState} {Q : Prop}
    (hex : Executing opcode st) (hop : ¬opcode ≤ opPushData4)
    (hpost : ∀ pc nOpCount, ExceptPost (fun _ => True) (fun _ => Q)
      (execOp ops checker flags (decodeOp opcode) true { st with pc := pc, nOpCount := nOpCount })) :
    ExceptPost (fun _ => True) (fun _ => Q) (evalStep ops checker flags st) := by
  obtain ⟨htrue,vch,rest,hget⟩ := hex
  unfold evalStep
  rw [hget,htrue]
  refine .bind (.any _) fun _ _ => .bind (.any _) fun _ _ => .bind (.any _) fun _ _ =>
    .bind (P := fun _ => Q) ?_ fun _ hq => .map (.any _) fun _ _ => hq
  rw [if_neg (by simpa using hop),if_pos (by simp)]
  exact hpost _ _
end Execution

section EndToEnd

variable {ops : CryptoOps} {checker : SignatureChecker} {flags : UInt32} {st : EvalState}

theorem lockTime_bound {tx : CTransaction} {nIn h t : Nat} {num : Int} (hfinal : isFinalTx tx h t = true)
    (hheight : 0 < h) (hpos : 0 ≤ num) (hcheck : tx.checkLockTime nIn num = true) :
    if num < lockTimeThreshold then num < h else num < t := by
  obtain ⟨hkind,hle,hin⟩ := checkLockTime_spec hcheck
  obtain hzero | hlt := isFinalTx_spec hfinal hin
  · have hnum : num = 0 := by omega
    rw [hnum,if_pos (by decide)]
    omega
  · split_ifs at hlt ⊢ <;> omega

theorem executing_pc_ne_nil {opcode : UInt8} (h : Executing opcode st) : st.pc ≠ [] := by
  obtain ⟨-,vch,rest,hget⟩ := h
  rintro hpc
  rw [hpc] at hget
  cases hget

theorem hasFlag_verifyFlags {flag : UInt32} (h : hasFlag flags flag = true) :
    hasFlag (verifyFlags flags) flag = true := by
  unfold verifyFlags
  split
  · rw [hasFlag_or,h,Bool.true_or]
  · exact h

theorem timeLocks_bind {n : AblaNode} {block prev : BlockHash} {tx : CTransaction} {txin : CTxIn}
    {nIn lockFlags nCoinHeight k nSigChecks : Nat} {prevHeights : List Nat} {scriptPubKey script : CScript}
    {stack : List Bytes} (hprev : n.tree.parent block = some prev)
    (hfinal : isFinalTx tx (n.tree.height block) (n.getMedianTimePast prev) = true)
    (hlockFlags : lockFlags &&& locktimeVerifySequence ≠ 0)
    (hlocks : sequenceLocks n block tx lockFlags prevHeights = .ok true)
    (hin : tx.vin[nIn]? = some txin) (hcoin : prevHeights[nIn]? = some nCoinHeight)
    (hcltv : hasFlag flags verifyCheckLockTimeVerify = true)
    (hcsv : hasFlag flags verifyCheckSequenceVerify = true)
    (hverify : verifyScript ops (checker.forInput tx nIn) txin.scriptSig scriptPubKey flags = .ok nSigChecks)
    (heval : Evaluates ops (checker.forInput tx nIn) (verifyFlags flags) txin.scriptSig scriptPubKey stack script k)
    (hreach : ReflTransGen (StepsTo ops (checker.forInput tx nIn) (verifyFlags flags)) (evalStart stack script k) st) :
    (Executing 0xb1 st → ∃ num, lockOperand (verifyFlags flags) st = .ok num ∧
      if num < lockTimeThreshold then num < n.tree.height block else num < n.getMedianTimePast prev) ∧
    (Executing 0xb2 st → ∃ num, lockOperand (verifyFlags flags) st = .ok num ∧ 0 ≤ num ∧ (num.toNat &&& 2^31 = 0 →
        (num.toNat &&& 2^22 = 0 → nCoinHeight+(num.toNat &&& 0xffff) ≤ n.tree.height block) ∧
        (num.toNat &&& 2^22 ≠ 0 → ∃ ancestor, n.tree.getAncestor block (nCoinHeight-1) = some ancestor ∧
          n.getMedianTimePast ancestor+512*(num.toNat &&& 0xffff) ≤ n.getMedianTimePast prev))) := by
  obtain ⟨r,hr⟩ := evalScript_of_verifyScript hverify heval
  constructor
  · intro hex
    obtain ⟨st',hstep⟩ := evalStep_of_evalScript hr hreach (executing_pc_ne_nil hex)
    have hpost : ExceptPost (fun _ => True) (fun _ => ∃ num, lockOperand (verifyFlags flags) st = .ok num ∧
        0 ≤ num ∧ tx.checkLockTime nIn num = true) (evalStep ops (checker.forInput tx nIn) (verifyFlags flags) st) := by
      apply evalStep_executing hex (by decide)
      intro pc nOpCount
      exact checkLockTimeVerify_post (hasFlag_verifyFlags hcltv) { st with pc := pc, nOpCount := nOpCount }
    obtain ⟨num,hnum,hpos,hcheck⟩ := hpost.result hstep
    have hheight : 0 < n.tree.height block := by
      rw [n.tree.height_parent hprev]
      omega
    exact ⟨num,hnum,lockTime_bound hfinal hheight hpos hcheck⟩
  · intro hex
    obtain ⟨st',hstep⟩ := evalStep_of_evalScript hr hreach (executing_pc_ne_nil hex)
    have hpost : ExceptPost (fun _ => True) (fun _ => ∃ num, lockOperand (verifyFlags flags) st = .ok num ∧
        0 ≤ num ∧ (num.toNat &&& sequenceLockTimeDisableFlag = 0 → tx.checkSequence nIn num = true))
        (evalStep ops (checker.forInput tx nIn) (verifyFlags flags) st) := by
      apply evalStep_executing hex (by decide)
      intro pc nOpCount
      exact checkSequenceVerify_post (hasFlag_verifyFlags hcsv) { st with pc := pc, nOpCount := nOpCount }
    obtain ⟨num,hnum,hpos,hcheck⟩ := hpost.result hstep
    refine ⟨num,hnum,hpos,fun hdisable => ?_⟩
    -- the input's sequence number is of the operand's kind and at least as large
    obtain ⟨hversion,hon,hkind,hle⟩ := checkSequence_spec (hcheck hdisable)
    have hseq : inputSequence tx nIn = txin.nSequence := by rw [inputSequence,hin]; rfl
    rw [hseq] at hon hkind hle
    obtain ⟨hheight,htime⟩ := sequenceLocks_spec hlocks hlockFlags hversion hprev hin hcoin hon
    constructor
    · intro htype
      exact (Nat.add_le_add_left hle _).trans (hheight (hkind.trans htype))
    · intro htype
      obtain ⟨ancestor,ha,hbound⟩ := htime (hkind.trans_ne htype)
      exact ⟨ancestor,ha,(Nat.add_le_add_left (Nat.mul_le_mul_left 512 hle) _).trans hbound⟩

private def lockNode : AblaNode :=
  ⟨(BlockTree.ofGenesis 1 0x207fffff 0).add 2 1 1 0 (by decide) (by decide) Nat.one_pos,
    fun _ => 600000000,fun _ => none,[2,1],1⟩

private def lockTx : CTransaction := ⟨[⟨⟨7,0⟩,[],1⟩],[⟨1,[0x51],none⟩],2,500000100,61⟩

private def lockScript : CScript := [0x04,0x32,0x65,0xcd,0x1d,0xb1,0x75,0x51,0xb2]

private def lockState : EvalState := ⟨[0xb1,0x75,0x51,0xb2],lockScript,[[0x32,0x65,0xcd,0x1d]],[],⟨0,none⟩,0,0⟩

theorem timeLocks_bind_sample : ∃ num, lockOperand 0x601 lockState = .ok num ∧
    if num < lockTimeThreshold then num < lockNode.tree.height 2 else num < lockNode.getMedianTimePast 1 := by
  have hfinal : isFinalTx lockTx (lockNode.tree.height 2) (lockNode.getMedianTimePast 1) = true := by decide +kernel
  have hlocks : sequenceLocks lockNode 2 lockTx 1 [0] = .ok true := by decide +kernel
  have hverify : verifyScript plainOps (sevenChecker.forInput lockTx 0) [] lockScript 0x601 = .ok 0 := by decide +kernel
  have hsig : evalScript plainOps (sevenChecker.forInput lockTx 0) (verifyFlags 0x601) [] [] 0 = .ok ([],0) := rfl
  have hstep : StepsTo plainOps (sevenChecker.forInput lockTx 0) (verifyFlags 0x601)
      (evalStart [] lockScript 0) lockState := ⟨by decide,by decide +kernel⟩
  have hin : lockTx.vin[0]? = some ⟨⟨7,0⟩,[],1⟩ := rfl
  have hcoin : [0][0]? = some 0 := rfl
  exact (timeLocks_bind rfl hfinal (by decide) hlocks hin hcoin (by decide) (by decide) hverify
    (.scriptPubKey hsig) (.single hstep)).1 ⟨rfl,_,_,rfl⟩
end EndToEnd
end BitfiniteCore
