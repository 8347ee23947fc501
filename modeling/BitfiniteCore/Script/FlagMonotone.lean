import BitfiniteCore.Lib.ExceptPost
import BitfiniteCore.Lib.Weakens
import BitfiniteCore.Script.Interpreter

/-! # Flags that only forbid -/

namespace BitfiniteCore
open ScriptFlags

section Flags

def restrictiveFlags : UInt32 :=
  verifyStrictEnc ||| verifyDerSig ||| verifyLowS ||| verifySigPushOnly ||| verifyMinimalData |||
    verifyDiscourageUpgradableNops ||| verifyCleanStack ||| verifyCheckLockTimeVerify |||
    verifyCheckSequenceVerify ||| verifyMinimalIf ||| verifyNullFail ||| disallowSegwitRecovery |||
    verifyInputSigChecks

/-- The second set has fewer restrictive flags and otherwise the same ones. -/
structure Weaker (flags1 flags0 : UInt32) : Prop where
  sub : ∀ flag, hasFlag flags0 flag = true → hasFlag flags1 flag = true
  same : ∀ flag, flag &&& restrictiveFlags = 0 → hasFlag flags1 flag = hasFlag flags0 flag

theorem Weaker.not_of_not {flags1 flags0 : UInt32} (h : Weaker flags1 flags0) (flag : UInt32)
    (h1 : hasFlag flags1 flag = false) : hasFlag flags0 flag = false := by
  cases h0 : hasFlag flags0 flag with
  | false => rfl
  | true => rw [h.sub flag h0] at h1; cases h1

theorem Weaker.unless {flags1 flags0 : UInt32} (h : Weaker flags1 flags0) {flag : UInt32} {c : Bool}
    (h1 : (!hasFlag flags1 flag || c) = true) : (!hasFlag flags0 flag || c) = true := by
  rw [Bool.or_eq_true,Bool.not_eq_true'] at h1 ⊢
  exact h1.imp_left (h.not_of_not flag)

private theorem and_eq_of_diff {f0 f1 r s : UInt32} (hsub : f0 &&& f1 = f0) (hdiff : f1 &&& ~~~f0 &&& ~~~r = 0)
    (hs : s &&& r = 0) : f1 &&& s = f0 &&& s := by
  rw [← UInt32.toBitVec_inj] at hsub hdiff hs ⊢
  apply BitVec.eq_of_getLsbD_eq
  intro i hi
  have h1 := congrArg (fun b => b.getLsbD i) hsub
  have h2 := congrArg (fun b => b.getLsbD i) hdiff
  have h3 := congrArg (fun b => b.getLsbD i) hs
  simp [hi] at h1 h2 h3 ⊢
  cases hf0 : f0.toBitVec.getLsbD i <;> cases hf1 : f1.toBitVec.getLsbD i <;>
    cases hr : r.toBitVec.getLsbD i <;> cases hss : s.toBitVec.getLsbD i <;> simp_all

theorem weaker_of_diff {flags1 flags0 : UInt32} (hsub : flags0 &&& flags1 = flags0)
    (hdiff : flags1 &&& ~~~flags0 &&& ~~~restrictiveFlags = 0) : Weaker flags1 flags0 := by
  constructor
  · intro flag h
    rw [hasFlag,bne_iff_ne] at h ⊢
    intro h1
    apply h
    rw [← hsub,UInt32.and_assoc,h1,UInt32.and_zero]
  · intro flag hflag
    rw [hasFlag,hasFlag,and_eq_of_diff hsub hdiff hflag]

theorem Weaker.verifyFlags {flags1 flags0 : UInt32} (h : Weaker flags1 flags0) :
    Weaker (verifyFlags flags1) (verifyFlags flags0) := by
  have hfork := h.same scriptEnableSighashForkId (by decide)
  unfold BitfiniteCore.verifyFlags
  rw [hfork]
  split
  · constructor
    · intro flag hflag
      rw [hasFlag_or,Bool.or_eq_true] at hflag ⊢
      exact hflag.imp_left (h.sub flag)
    · intro flag hflag
      rw [hasFlag_or,hasFlag_or,h.same flag hflag]
  · exact h
end Flags

section Encodings

variable {ops : CryptoOps} {checker : SignatureChecker} {flags1 flags0 : UInt32} (h : Weaker flags1 flags0)

theorem require_weakens {c d : Bool} (hcd : c = true → d = true) (e : ScriptError) :
    Weakens (require c e) (require d e) := by
  intro a ha
  unfold require at ha ⊢
  split at ha
  · rename_i hc
    rw [if_pos (hcd hc)]
  · cases ha

include h

theorem fromBytes_weakens (vch : Bytes) (n : Nat) : Weakens (CScriptNum.fromBytes vch (fRequireMinimal flags1) n)
      (CScriptNum.fromBytes vch (fRequireMinimal flags0) n) := by
  apply Weakens.guard id
  apply Weakens.guard id
  apply Weakens.guard _ (Weakens.refl _)
  simp only [Bool.and_eq_true]
  exact fun hmin => ⟨h.sub _ hmin.1,hmin.2⟩

theorem maxIntegerSize_same : maxIntegerSize flags1 = maxIntegerSize flags0 := by
  rw [maxIntegerSize,maxIntegerSize,h.same _ (by decide)]

theorem scriptNum_weakens (vch : Bytes) : Weakens (scriptNum flags1 vch) (scriptNum flags0 vch) := by
  unfold scriptNum
  rw [maxIntegerSize_same h]
  exact fromBytes_weakens h vch _

theorem checkRawECDSASignatureEncoding_weakens (sig : Bytes) :
    Weakens (checkRawECDSASignatureEncoding ops sig flags1) (checkRawECDSASignatureEncoding ops sig flags0) := by
  apply Weakens.guard id
  apply Weakens.guard
  · simp only [Bool.and_eq_true,Bool.or_eq_true]
    exact fun hd => ⟨hd.1.imp (fun h' => h'.imp (h.sub _) (h.sub _)) (h.sub _),hd.2⟩
  · apply Weakens.guard _ (Weakens.refl _)
    simp only [Bool.and_eq_true]
    exact fun hd => ⟨h.sub _ hd.1,hd.2⟩

theorem checkRawSignatureEncoding_weakens (sig : Bytes) :
    Weakens (checkRawSignatureEncoding ops sig flags1) (checkRawSignatureEncoding ops sig flags0) :=
  .ite (.refl _) (checkRawECDSASignatureEncoding_weakens h sig)

theorem checkDataSignatureEncoding_weakens (sig : Bytes) :
    Weakens (checkDataSignatureEncoding ops sig flags1) (checkDataSignatureEncoding ops sig flags0) :=
  .ite (.refl _) (checkRawSignatureEncoding_weakens h sig)

theorem checkSighashEncoding_weakens (sig : Bytes) :
    Weakens (checkSighashEncoding sig flags1) (checkSighashEncoding sig flags0) := by
  unfold checkSighashEncoding
  rw [h.same scriptEnableSighashForkId (by decide),h.same scriptEnableTokens (by decide)]
  cases h1 : hasFlag flags1 verifyStrictEnc with
  | false => rw [h.not_of_not _ h1]; exact .refl _
  | true =>
    rw [if_pos rfl]
    split
    · exact .refl _
    · exact fun a ha => rfl

theorem checkTransactionSignatureEncodingWith_weakens {check : Bytes → UInt32 → Eval Unit}
    (hcheck : ∀ sig, Weakens (check sig flags1) (check sig flags0)) (sig : Bytes) :
    Weakens (checkTransactionSignatureEncodingWith check sig flags1)
      (checkTransactionSignatureEncodingWith check sig flags0) :=
  .ite (.refl _) (.bind (hcheck _) fun _ => checkSighashEncoding_weakens h sig)

theorem checkPubKeyEncoding_weakens (vchPubKey : Bytes) :
    Weakens (checkPubKeyEncoding vchPubKey flags1) (checkPubKeyEncoding vchPubKey flags0) := by
  apply Weakens.guard _ (Weakens.refl _)
  simp only [Bool.and_eq_true]
  exact fun hd => ⟨h.sub _ hd.1,hd.2⟩

theorem cleanupScriptCode_same (scriptCode : CScript) (sig : Bytes) :
    cleanupScriptCode scriptCode sig flags1 = cleanupScriptCode scriptCode sig flags0 := by
  rw [cleanupScriptCode,cleanupScriptCode,h.same _ (by decide)]

theorem checkSig_same (checker : SignatureChecker) (sig pubKey : Bytes) (code : CScript) :
    checker.checkSig sig pubKey code flags1 = checker.checkSig sig pubKey code flags0 :=
  checker.checkSig_congr sig pubKey code _ _ (h.same _ (by decide)) (h.same _ (by decide))

theorem nullFail_weakens {c : Bool} : (c || !hasFlag flags1 verifyNullFail) = true →
    (c || !hasFlag flags0 verifyNullFail) = true := by
  intro hc
  rw [Bool.or_eq_true,Bool.not_eq_true'] at hc ⊢
  exact hc.imp_right (h.not_of_not _)
end Encodings

section Opcodes

variable {ops : CryptoOps} {checker : SignatureChecker} {flags1 flags0 : UInt32} (h : Weaker flags1 flags0)
include h

theorem checkLockTimeVerify_weakens (st : EvalState) :
    Weakens (checkLockTimeVerify checker flags1 st) (checkLockTimeVerify checker flags0 st) := by
  unfold checkLockTimeVerify
  cases h0 : hasFlag flags0 verifyCheckLockTimeVerify with
  | true =>
    rw [h.sub _ h0]
    exact .same fun _ => .same fun vch => .bind (fromBytes_weakens h vch 5) fun _ => .refl _
  | false =>
    -- without the flag the opcode does nothing, and with it a success changes nothing
    cases h1 : hasFlag flags1 verifyCheckLockTimeVerify with
    | false => exact .refl _
    | true => exact .bind_ok fun _ => .bind_ok fun _ => .bind_ok fun _ => .bind_ok fun _ => .map_ok _ st

theorem checkSequenceVerify_weakens (st : EvalState) :
    Weakens (checkSequenceVerify checker flags1 st) (checkSequenceVerify checker flags0 st) := by
  unfold checkSequenceVerify
  cases h0 : hasFlag flags0 verifyCheckSequenceVerify with
  | true =>
    rw [h.sub _ h0]
    exact .same fun _ => .same fun vch => .bind (fromBytes_weakens h vch 5) fun _ => .refl _
  | false =>
    cases h1 : hasFlag flags1 verifyCheckSequenceVerify with
    | false => exact .refl _
    | true =>
      refine .bind_ok fun _ => .bind_ok fun _ => .bind_ok fun _ => .bind_ok fun _ => ?_
      split
      · exact .refl _
      · exact .map_ok _ st

theorem execIf_weakens (not fExec : Bool) (st : EvalState) :
    Weakens (execIf flags1 not fExec st) (execIf flags0 not fExec st) := by
  apply Weakens.ite (.refl _)
  exact .same fun _ => .same fun vch => .bind (require_weakens h.unless _) fun _ => .refl _

theorem execCheckSig_weakens (verify : Bool) (st : EvalState) :
    Weakens (execCheckSig ops checker flags1 verify st) (execCheckSig ops checker flags0 verify st) := by
  refine .same fun _ => .same fun vchSig => .same fun vchPubKey =>
    .bind (checkTransactionSignatureEncodingWith_weakens h (checkRawSignatureEncoding_weakens h) vchSig)
      fun _ => .bind (checkPubKeyEncoding_weakens h vchPubKey) fun _ => ?_
  dsimp only
  rw [cleanupScriptCode_same h,checkSig_same h]
  exact .bind (require_weakens (nullFail_weakens h) _) fun _ => .refl _

theorem execCheckDataSig_weakens (verify : Bool) (st : EvalState) :
    Weakens (execCheckDataSig ops checker flags1 verify st) (execCheckDataSig ops checker flags0 verify st) := by
  exact .same fun _ => .same fun vchSig => .same fun _ => .same
    fun vchPubKey => .bind (checkDataSignatureEncoding_weakens h vchSig) fun _ =>
      .bind (checkPubKeyEncoding_weakens h vchPubKey) fun _ =>
        .bind (require_weakens (nullFail_weakens h) _) fun _ => .refl _

theorem schnorrLoop_weakens (stack : List Bytes) (scriptCode : CScript)
    (checkBits nKeysCount idxBottomKey idxBottomSig n iSig iKey : Nat) :
    Weakens (schnorrLoop checker flags1 stack scriptCode checkBits nKeysCount idxBottomKey idxBottomSig n iSig iKey)
      (schnorrLoop checker flags0 stack scriptCode checkBits nKeysCount idxBottomKey idxBottomSig n iSig iKey) := by
  induction n generalizing iSig iKey with
  | zero => exact .refl _
  | succ n ih =>
    refine .same fun _ => ?_
    refine .same fun _ => .same fun vchSig => .same fun vchPubKey =>
      .bind (checkTransactionSignatureEncodingWith_weakens h (fun _ => .refl _) vchSig) fun _ =>
        .bind (checkPubKeyEncoding_weakens h vchPubKey) fun _ => ?_
    rw [checkSig_same h]
    exact .same fun _ => ih _ _

theorem cleanupMultiSig_same (stack : List Bytes) (idxTopSig n k : Nat) (scriptCode : CScript) :
    cleanupMultiSig flags1 stack idxTopSig n k scriptCode =
      cleanupMultiSig flags0 stack idxTopSig n k scriptCode := by
  induction n generalizing k scriptCode with
  | zero => rfl
  | succ n ih =>
    unfold cleanupMultiSig
    congr 1
    funext vchSig
    rw [cleanupScriptCode_same h,ih]

theorem legacyLoop_weakens (stack : List Bytes) (scriptCode : CScript)
    (idxTopSig idxTopKey nSigsCount nKeysCount keys sigs : Nat) :
    Weakens (legacyLoop ops checker flags1 stack scriptCode idxTopSig idxTopKey nSigsCount nKeysCount keys sigs)
      (legacyLoop ops checker flags0 stack scriptCode idxTopSig idxTopKey nSigsCount nKeysCount keys sigs) := by
  induction keys generalizing sigs with
  | zero => cases sigs <;> exact .refl _
  | succ keys ih =>
    cases sigs with
    | zero => exact .refl _
    | succ sigs =>
      refine .same fun vchSig => .same fun vchPubKey =>
        .bind (checkTransactionSignatureEncodingWith_weakens h (checkRawECDSASignatureEncoding_weakens h) vchSig)
          fun _ => .bind (checkPubKeyEncoding_weakens h vchPubKey) fun _ => ?_
      rw [checkSig_same h]
      exact .ite (.refl _) (ih _)

theorem execCheckMultiSig_weakens (verify : Bool) (st : EvalState) :
    Weakens (execCheckMultiSig ops checker flags1 verify st) (execCheckMultiSig ops checker flags0 verify st) := by
  unfold execCheckMultiSig
  rw [h.same enableSchnorrMultisig (by decide)]
  refine .same fun _ => .same fun vch => .bind (scriptNum_weakens h vch) fun nKeys =>
    .same fun _ => ?_
  refine .same fun _ => .same fun _ => .same fun vch =>
    .bind (scriptNum_weakens h vch) fun nSigs => .same fun _ => .same fun _ =>
      .same fun vchDummy => .bind (.ite ?_ ?_) fun _ => .refl _
  · exact .same fun _ => .same fun _ => .same fun _ =>
      .bind (schnorrLoop_weakens h _ _ _ _ _ _ _ _ _) fun _ => .refl _
  · unfold legacyMultiSig
    rw [cleanupMultiSig_same h]
    refine .same fun _ => .bind (legacyLoop_weakens h _ _ _ _ _ _ _ _) fun fSuccess => .same fun allNull =>
      .map (require_weakens ?_ _) _
    intro hc
    rw [Bool.or_right_comm] at hc ⊢
    exact nullFail_weakens h hc

theorem stackOp_weakens (op : Op) (stack : List Bytes) :
    Weakens (stackOp ops flags1 op stack) (stackOp ops flags0 op stack) := by
  have hnum := scriptNum_weakens h
  cases op with
  | pick roll =>
    exact .same fun _ => .same fun vch => .bind (hnum vch) fun _ => .refl _
  | unary k =>
    exact .same fun _ => .same fun vch => .bind (hnum vch) fun _ => .refl _
  | binary k =>
    exact .same fun _ => .same fun vch1 => .same fun vch2 =>
      .bind (hnum vch1) fun _ => .bind (hnum vch2) fun _ => .refl _
  | within =>
    exact .same fun _ => .same fun vch1 => .same fun vch2 => .same
      fun vch3 => .bind (hnum vch1) fun _ => .bind (hnum vch2) fun _ => .bind (hnum vch3) fun _ => .refl _
  | split =>
    exact .same fun _ => .same fun _ => .same fun vch => .bind (hnum vch)
      fun _ => .refl _
  | num2bin =>
    exact .same fun _ => .same fun vch => .bind (hnum vch) fun _ => .refl _
  | bin2num =>
    apply Weakens.of_eq
    unfold stackOp
    rw [maxIntegerSize_same h,h.same script64BitIntegers (by decide)]
  | _ => exact .refl _

theorem getContext_same : getContext checker flags1 = getContext checker flags0 := by
  rw [getContext,getContext,h.same _ (by decide)]

theorem indexedOp_same (k : IndexedOp) (context : ScriptExecutionContext) (index : Int) :
    indexedOp flags1 k context index = indexedOp flags0 k context index := by
  have hcode : getBytecode flags1 = getBytecode flags0 := by
    funext txout
    rw [getBytecode,getBytecode,h.same _ (by decide)]
  cases k <;> simp only [indexedOp,hcode]

theorem execOp_weakens (op : Op) (fExec : Bool) (st : EvalState) :
    Weakens (execOp ops checker flags1 op fExec st) (execOp ops checker flags0 op fExec st) := by
  cases op with
  | checkLockTimeVerify => exact checkLockTimeVerify_weakens h st
  | checkSequenceVerify => exact checkSequenceVerify_weakens h st
  | upgradableNop =>
    apply Weakens.map (require_weakens _ _)
    intro hc
    rw [Bool.not_eq_true'] at hc ⊢
    exact h.not_of_not _ hc
  | if_ not => exact execIf_weakens h not fExec st
  | checkSig verify => exact execCheckSig_weakens h verify st
  | checkDataSig verify => exact execCheckDataSig_weakens h verify st
  | checkMultiSig verify => exact execCheckMultiSig_weakens h verify st
  | nullary k =>
    apply Weakens.bind (.of_eq (getContext_same h))
    exact fun context => .refl _
  | indexed k =>
    unfold execOp
    rw [h.same scriptEnableTokens (by decide),getContext_same h]
    refine .same fun _ => .same fun context => .same fun _ => .same
      fun vch => .bind (scriptNum_weakens h vch) fun index => .same fun stack => ?_
    rw [indexedOp_same h]
    exact .refl _
  | nop | else_ | endIf | return_ | toAltStack | fromAltStack | codeSeparator => exact .refl _
  | _ =>
    unfold execOp
    exact .map (stackOp_weakens h _ _) _

theorem isOpcodeDisabled_same (opcode : UInt8) : isOpcodeDisabled opcode flags1 = isOpcodeDisabled opcode flags0 := by
  rw [isOpcodeDisabled,isOpcodeDisabled,h.same _ (by decide)]

theorem evalStep_weakens (st : EvalState) :
    Weakens (evalStep ops checker flags1 st) (evalStep ops checker flags0 st) := by
  unfold evalStep
  split
  · exact .refl _
  · rw [isOpcodeDisabled_same h]
    exact .same fun _ => .same fun _ => .same fun _ =>
      .bind (.ite (.map (require_weakens h.unless _) _) (.ite (execOp_weakens h _ _ _) (.refl _))) fun _ => .refl _

theorem evalLoop_weakens (fuel : Nat) (st : EvalState) :
    Weakens (evalLoop ops checker flags1 fuel st) (evalLoop ops checker flags0 fuel st) := by
  induction fuel generalizing st with
  | zero => exact .refl _
  | succ fuel ih => exact .ite (.refl _) (.bind (evalStep_weakens h st) ih)

theorem evalScript_weakens (stack : List Bytes) (script : CScript) (nSigChecks : Nat) :
    Weakens (evalScript ops checker flags1 stack script nSigChecks)
      (evalScript ops checker flags0 stack script nSigChecks) :=
  .same fun _ => .bind (evalLoop_weakens h _ _) fun _ => .refl _
end Opcodes

section Segwit

variable {ops : CryptoOps} {checker : SignatureChecker} {flags : UInt32}

private theorem decodeOp_small_fin : ∀ i : Fin 256, 0x4e < i.val → i.val ≤ 0x60 →
    decodeOp (UInt8.ofNat i) = .invalid ∨ decodeOp (UInt8.ofNat i) = .smallInt ((i.val : Int)-0x50) := by
  decide +kernel

theorem decodeOp_small {opcode : UInt8} (hlow : ¬opcode ≤ opPushData4) (hle : opcode ≤ op16) :
    decodeOp opcode = .invalid ∨ ∃ n, decodeOp opcode = .smallInt n := by
  have hlow' : 0x4e < opcode.toNat := by simpa [opPushData4,UInt8.le_iff_toNat_le] using hlow
  have hle' : opcode.toNat ≤ 0x60 := by simpa [op16,UInt8.le_iff_toNat_le] using hle
  have hop := decodeOp_small_fin ⟨opcode.toNat,opcode.toNat_lt⟩ hlow' hle'
  rw [UInt8.ofNat_toNat] at hop
  exact hop.imp_right fun h => ⟨_,h⟩

theorem evalStep_push {st : EvalState} {opcode : UInt8} {vch rest : Bytes}
    (hop : getScriptOp st.pc = (some (opcode,vch),rest)) (hle : opcode ≤ op16) :
    ExceptPost (fun _ => True) (fun st' => st'.pc = rest ∧ st'.nSigChecks = st.nSigChecks)
      (evalStep ops checker flags st) := by
  unfold evalStep
  rw [hop]
  refine .bind (.any _) fun _ _ => .bind (.any _) fun _ _ => .bind (.any _) fun _ _ =>
    .bind (P := fun st' => st'.pc = rest ∧ st'.nSigChecks = st.nSigChecks) ?_ fun st' h =>
      .map (.any _) fun _ _ => h
  split
  · exact .map (.any _) fun _ _ => ⟨rfl,rfl⟩
  · split
    · rename_i hpush hexec
      have hlow : ¬opcode ≤ opPushData4 := by
        intro hpd
        have hif : ¬0x63 ≤ opcode := fun h => absurd (UInt8.le_trans h hle) (by decide)
        simp [hpd,hif] at hpush hexec
        rw [hpush] at hexec
        cases hexec
      obtain hinv | ⟨n,hn⟩ := decodeOp_small hlow hle
      · rw [hinv]
        trivial
      · rw [hn]
        exact ⟨rfl,rfl⟩
    · exact ⟨rfl,rfl⟩

theorem evalLoop_push (fuel : Nat) (st : EvalState) (hpush : isPushOnlyFrom fuel st.pc = true) :
    ExceptPost (fun _ => True) (fun st' => st'.nSigChecks = st.nSigChecks)
      (evalLoop ops checker flags fuel st) := by
  induction fuel generalizing st with
  | zero =>
    unfold evalLoop
    split
    · exact rfl
    · trivial
  | succ fuel ih =>
    apply ExceptPost.ite
    · exact fun _ => rfl
    intro hpc
    unfold isPushOnlyFrom at hpush
    rw [Bool.eq_false_iff.mpr hpc,Bool.false_or] at hpush
    split at hpush
    · cases hpush
    · rename_i opcode vch rest hop
      rw [Bool.and_eq_true,decide_eq_true_eq] at hpush
      apply ExceptPost.bind (evalStep_push hop hpush.1)
      rintro st' ⟨hpc',hsig⟩
      apply (ih st' (hpc' ▸ hpush.2)).mono
      exact fun _ h => h.trans hsig

theorem evalScript_push {script : CScript} (hpush : CScript.isPushOnly script = true) (stack : List Bytes)
    (nSigChecks : Nat) : ExceptPost (fun _ => True) (fun r => r.2 = nSigChecks)
      (evalScript ops checker flags stack script nSigChecks) :=
  .bind (.any _) fun _ _ => .bind (evalLoop_push script.length (evalStart stack script nSigChecks) hpush) fun _ h => .map (.any _) fun _ _ => h

private theorem getScriptOp_version {version : UInt8} (pc : Bytes)
    (h : version = 0 ∨ (0x51 ≤ version ∧ version ≤ op16)) :
    getScriptOp (version::pc) = (some (version,[]),pc) := by
  obtain rfl | ⟨hlow,-⟩ := h
  · simp [getScriptOp,pushSize,opPushData4,opPushData1]
  · have hnot : ¬version ≤ opPushData4 := fun h => absurd (UInt8.le_trans hlow h) (by decide)
    simp [getScriptOp,hnot]

private theorem getScriptOp_program {size : UInt8} {program : Bytes} (hsize : size.toNat = program.length)
    (hle : program.length ≤ 40) : getScriptOp (size::program) = (some (size,program),[]) := by
  have hlow : size ≤ opPushData4 := by
    rw [UInt8.le_iff_toNat_le]
    exact (hsize.le.trans hle).trans (by decide)
  have hlt : size < opPushData1 := by
    rw [UInt8.lt_iff_toNat_lt]
    exact (hsize.le.trans hle).trans_lt (by decide)
  simp [getScriptOp,pushSize,hlow,hlt,hsize]

theorem isWitnessProgram_pushOnly {script : CScript} (h : CScript.isWitnessProgram script = true) :
    CScript.isPushOnly script = true := by
  unfold CScript.isWitnessProgram at h
  split at h
  · rename_i version size program
    simp only [Bool.and_eq_true,Bool.or_eq_true,decide_eq_true_eq,beq_iff_eq,List.length_cons] at h
    obtain ⟨⟨⟨h4,h42⟩,hversion⟩,hsize⟩ := h
    have hop : version ≤ op16 := by
      obtain rfl | hv := hversion
      · decide
      · exact hv.2
    have hsizeop : size ≤ op16 := by
      rw [UInt8.le_iff_toNat_le]
      exact (show size.toNat ≤ 40 by omega).trans (by decide)
    have hprogram := @getScriptOp_program size program (by omega) (by omega)
    have hend : isPushOnlyFrom program.length [] = true := by
      cases program.length <;> rfl
    simp [CScript.isPushOnly,isPushOnlyFrom,getScriptOp_version _ hversion,hprogram,hop,hsizeop,hend]
  · cases h
end Segwit

section Verify

variable {ops : CryptoOps} {checker : SignatureChecker} {flags1 flags0 : UInt32} (h : Weaker flags1 flags0)

theorem finishVerify_result (scriptSig : CScript) (flags : UInt32) (stack : List Bytes) (nSigChecks : Nat) :
    Weakens (finishVerify scriptSig flags stack nSigChecks) (.ok nSigChecks) :=
  .bind_ok fun _ => .map_ok _ _

include h

theorem finishVerify_weakens (scriptSig : CScript) (stack : List Bytes) (nSigChecks : Nat) :
    Weakens (finishVerify scriptSig flags1 stack nSigChecks) (finishVerify scriptSig flags0 stack nSigChecks) := by
  unfold finishVerify
  rw [h.same verifyP2SH (by decide)]
  apply Weakens.bind
  · cases h0 : hasFlag flags0 verifyCleanStack with
    | true =>
      rw [h.sub _ h0]
      exact .refl _
    | false => exact fun _ _ => rfl
  · exact fun _ => .map (require_weakens h.unless _) _

theorem verifyRedeemScript_weakens (scriptSig : CScript) (p2sh32 : Bool) (stackCopy : List Bytes) (nSigChecks : Nat) :
    Weakens (verifyRedeemScript ops checker scriptSig flags1 p2sh32 stackCopy nSigChecks)
      (verifyRedeemScript ops checker scriptSig flags0 p2sh32 stackCopy nSigChecks) := by
  apply Weakens.same
  intro _
  cases stackCopy with
  | nil => exact .refl _
  | cons pubKey2 stack =>
    dsimp only
    have hrun : Weakens ((evalScript ops checker flags1 stack pubKey2 nSigChecks).bind fun r =>
          (requireTrue r.1).bind fun _ => finishVerify scriptSig flags1 r.1 r.2)
        ((evalScript ops checker flags0 stack pubKey2 nSigChecks).bind fun r =>
          (requireTrue r.1).bind fun _ => finishVerify scriptSig flags0 r.1 r.2) :=
      .bind (evalScript_weakens h _ _ _) fun r => .same fun _ => finishVerify_weakens h _ _ _
    cases h0 : hasFlag flags0 disallowSegwitRecovery with
    | true =>
      rw [h.sub _ h0]
      exact hrun
    | false =>
      cases h1 : hasFlag flags1 disallowSegwitRecovery with
      | false => exact .ite (.refl _) hrun
      | true =>
        split
        · rename_i hrec
          cases hrec
        · split
          · -- the recovered program is two pushes, so the run has counted nothing either
            rename_i hprogram
            simp only [Bool.and_eq_true] at hprogram
            intro n hn
            have hpush := isWitnessProgram_pushOnly hprogram.2
            cases hr : evalScript ops checker flags1 stack pubKey2 nSigChecks with
            | error e => rw [hr] at hn; cases hn
            | ok r =>
              rw [hr] at hn
              rw [← (evalScript_push hpush stack nSigChecks).result hr]
              exact Weakens.bind_ok (fun _ => finishVerify_result _ _ _ _) n hn
          · exact hrun

theorem verifyScript_weaker (scriptSig scriptPubKey : CScript) :
    Weakens (verifyScript ops checker scriptSig scriptPubKey flags1)
      (verifyScript ops checker scriptSig scriptPubKey flags0) := by
  have hv := h.verifyFlags
  refine .bind (require_weakens hv.unless _) fun _ => .bind (evalScript_weakens hv _ _ _) fun r =>
    .bind (evalScript_weakens hv _ _ _) fun s => .same fun _ => ?_
  have hp2sh : isPayToScriptHashOf scriptPubKey (verifyFlags flags1) =
      isPayToScriptHashOf scriptPubKey (verifyFlags flags0) := by
    rw [isPayToScriptHashOf,isPayToScriptHashOf,hv.same enableP2SH32 (by decide)]
  rw [hv.same verifyP2SH (by decide),hp2sh]
  split
  · exact verifyRedeemScript_weakens hv _ _ _ _
  · exact finishVerify_weakens hv _ _ _
end Verify

section Mempool

def standardScriptVerifyFlags : UInt32 :=
  verifyP2SH ||| verifyStrictEnc ||| scriptEnableSighashForkId ||| verifyLowS ||| verifyNullFail |||
    verifyMinimalData ||| enableSchnorrMultisig ||| enforceSigChecks ||| verifyDerSig |||
    verifySigPushOnly ||| verifyDiscourageUpgradableNops ||| verifyCleanStack |||
    verifyCheckLockTimeVerify ||| verifyCheckSequenceVerify ||| disallowSegwitRecovery |||
    verifyInputSigChecks

def getMemPoolScriptFlags (nextBlockFlags : UInt32) : UInt32 := nextBlockFlags ||| standardScriptVerifyFlags

def standardEnablingFlags : UInt32 :=
  verifyP2SH ||| scriptEnableSighashForkId ||| enableSchnorrMultisig ||| enforceSigChecks

theorem getMemPoolScriptFlags_weaker {next : UInt32} (hnext : next &&& standardEnablingFlags = standardEnablingFlags) :
    Weaker (getMemPoolScriptFlags next) next := by
  constructor
  · intro flag hflag
    rw [getMemPoolScriptFlags,hasFlag_or,hflag,Bool.true_or]
  · intro flag hflag
    have hstd : standardScriptVerifyFlags =
        standardEnablingFlags ||| (standardScriptVerifyFlags &&& restrictiveFlags) := by decide
    have hzero : hasFlag (standardScriptVerifyFlags &&& restrictiveFlags) flag = false := by
      rw [hasFlag,UInt32.and_assoc,UInt32.and_comm restrictiveFlags,hflag,UInt32.and_zero]
      rfl
    have hon : hasFlag standardEnablingFlags flag = true → hasFlag next flag = true := by
      intro h
      rw [hasFlag,bne_iff_ne] at h ⊢
      intro h0
      apply h
      rw [← hnext,UInt32.and_comm next,UInt32.and_assoc,h0,UInt32.and_zero]
    rw [getMemPoolScriptFlags,hstd,hasFlag_or,hasFlag_or,hzero,Bool.or_false]
    cases h : hasFlag standardEnablingFlags flag with
    | false => rw [Bool.or_false]
    | true => rw [hon h,Bool.true_or]

theorem verifyScript_monotone (ops : CryptoOps) (checker : SignatureChecker) (scriptSig scriptPubKey : CScript) :
    (∀ flags1 flags0 : UInt32, flags0 &&& flags1 = flags0 → flags1 &&& ~~~flags0 &&& ~~~restrictiveFlags = 0 →
      ∀ nSigChecks, verifyScript ops checker scriptSig scriptPubKey flags1 = .ok nSigChecks →
        verifyScript ops checker scriptSig scriptPubKey flags0 = .ok nSigChecks) ∧
    (∀ next : UInt32, next &&& standardEnablingFlags = standardEnablingFlags →
      ∀ nSigChecks, verifyScript ops checker scriptSig scriptPubKey (getMemPoolScriptFlags next) = .ok nSigChecks →
        verifyScript ops checker scriptSig scriptPubKey next = .ok nSigChecks) :=
  ⟨fun _ _ hsub hdiff => verifyScript_weaker (weaker_of_diff hsub hdiff) scriptSig scriptPubKey,
    fun _ hnext => verifyScript_weaker (getMemPoolScriptFlags_weaker hnext) scriptSig scriptPubKey⟩

def plainOps : CryptoOps := ⟨fun _ => 0,fun _ => 0,fun _ => 0,fun _ => 0,fun _ => 0,fun _ => true⟩

/-- The hash that is signed depends on two of the flags only. -/
theorem signatureHash_congr {flags flags' : UInt32}
    (hfork : hasFlag flags scriptEnableSighashForkId = hasFlag flags' scriptEnableSighashForkId)
    (htokens : hasFlag flags scriptEnableTokens = hasFlag flags' scriptEnableTokens) (sha256d : Bytes → Uint256)
    (context : ScriptExecutionContext) (scriptCode : CScript) (sigHashType : SigHashType)
    (txdata : Option PrecomputedTransactionData) :
    signatureHash sha256d context scriptCode sigHashType txdata flags =
      signatureHash sha256d context scriptCode sigHashType txdata flags' := by
  have hiff {flag : UInt32} (h : hasFlag flags flag = hasFlag flags' flag) :
      flags &&& flag ≠ 0 ↔ flags' &&& flag ≠ 0 := by
    rw [← bne_iff_ne,← bne_iff_ne]
    exact Bool.eq_iff_iff.mp h
  unfold signatureHash forkPreimage tokenBlob
  simp only [hiff hfork,hiff htokens]

/-- `TransactionSignatureChecker`; the curve and the comparisons with the lock times are parameters. -/
def transactionSignatureChecker (sha256d : Bytes → Uint256) (context : ScriptExecutionContext)
    (txdata : Option PrecomputedTransactionData) (isValid : Bytes → Bool)
    (verifySignature : Bytes → Bytes → Uint256 → Bool) (checkLockTime checkSequence : Int → Bool) :
    SignatureChecker where
  context := some context
  checkSig vchSig vchPubKey scriptCode flags := isValid vchPubKey && !vchSig.isEmpty &&
    (signatureHash sha256d context scriptCode (getHashType vchSig) txdata flags).any
      (verifySignature vchSig.dropLast vchPubKey)
  verifySignature
  checkLockTime
  checkSequence
  checkSig_congr vchSig vchPubKey scriptCode flags flags' hfork htokens := by
    rw [signatureHash_congr hfork htokens]

/-- One input, which signs the hash 7 with any key. -/
def sevenChecker : SignatureChecker :=
  transactionSignatureChecker (fun _ => 7) ⟨0,false,[.ofOutput ⟨50,[0xac],none⟩ 1 false],
    ⟨[⟨⟨3,0⟩,[],0⟩],[⟨40,[0x51],none⟩],2,0,9⟩⟩ none (fun _ => true) (fun _ _ hash => hash == 7) (fun _ => false)
    fun _ => false

/-- A signature of 64 bytes and the key that the output asks for. -/
def sevenSig : CScript := 65::List.replicate 64 1++[0x01]

def sevenKey : CScript := 33::0x02::List.replicate 32 1++[0xac]

theorem verifyScript_monotone_sample :
    verifyScript plainOps sevenChecker sevenSig sevenKey (verifyP2SH ||| restrictiveFlags) = .ok 1 ∧
      verifyScript plainOps sevenChecker sevenSig sevenKey verifyP2SH = .ok 1 ∧
      verifyScript plainOps sevenChecker [0x51] [0x76,0x69] standardEnablingFlags = .ok 0 := by
  have hstrict : verifyScript plainOps sevenChecker sevenSig sevenKey (verifyP2SH ||| restrictiveFlags) =
    .ok 1 := by decide +kernel
  have hstandard : verifyScript plainOps sevenChecker [0x51] [0x76,0x69]
    (getMemPoolScriptFlags standardEnablingFlags) = .ok 0 := by decide +kernel
  exact ⟨hstrict,(verifyScript_monotone plainOps sevenChecker sevenSig sevenKey).1 _ _ (by decide) (by decide) 1 hstrict,
    (verifyScript_monotone plainOps sevenChecker [0x51] [0x76,0x69]).2 _ (by decide) 0 hstandard⟩
end Mempool
end BitfiniteCore
