import BitfiniteCore.Lib.SubsequenceMatch
import BitfiniteCore.Script.Safety

/-! # What a multisignature decides -/

namespace BitfiniteCore
open ScriptFlags SubsequenceMatch List

structure MultiSigCall (flags : UInt32) (st : EvalState) (keys sigs : List Bytes) (dummy : Bytes)
    (rest : List Bytes) where
  keyCount : Bytes
  sigCount : Bytes
  stack : st.stack = keyCount::(keys.reverse++sigCount::(sigs.reverse++dummy::rest))
  keyCount_num : scriptNum flags keyCount = .ok keys.length
  sigCount_num : scriptNum flags sigCount = .ok sigs.length
  keys_le : keys.length ≤ maxPubKeysPerMultisig
  sigs_le : sigs.length ≤ keys.length
  ops_le : st.nOpCount+keys.length ≤ maxOpsPerScript

section Stack

variable {stack : List Bytes} {vch : Bytes}

theorem stacktop_of_get {i : Nat} (hi : 0 < i) (h : stack[i-1]? = some vch) : stacktop stack i = .ok vch := by
  rw [stacktop,if_neg (by omega),h]

theorem popstackN_eq {n : Nat} (h : n ≤ stack.length) : popstackN n stack = .ok (stack.drop n) := by
  induction n generalizing stack with
  | zero => rfl
  | succ n ih =>
    cases stack with
    | nil => simp at h
    | cons vch stack =>
      rw [drop_succ_cons,← ih (by simpa using h)]
      rfl

theorem require_true (e : ScriptError) : require true e = .ok () := rfl
end Stack

section Layout

variable {flags : UInt32} {st : EvalState} {keys sigs rest : List Bytes} {dummy : Bytes}
  (call : MultiSigCall flags st keys sigs dummy rest)

include call

namespace MultiSigCall

theorem get_keyCount : stacktop st.stack 1 = .ok call.keyCount := stacktop_of_get (by omega) (by rw [call.stack]; rfl)

theorem get_key {i : Nat} {key : Bytes} (h : keys.reverse[i]? = some key) : stacktop st.stack (2+i) = .ok key := by
  have hi : i < keys.reverse.length := (List.getElem?_eq_some_iff.mp h).1
  refine stacktop_of_get (by omega) ?_
  rw [call.stack,show 2+i-1 = i+1 by omega,getElem?_cons_succ,getElem?_append_left hi,h]

theorem get_sigCount : stacktop st.stack (2+keys.length) = .ok call.sigCount := by
  refine stacktop_of_get (by omega) ?_
  rw [call.stack,show 2+keys.length-1 = keys.length+1 by omega,List.getElem?_cons_succ,
    List.getElem?_append_right (by simp)]
  simp

theorem get_sig {i : Nat} {sig : Bytes} (h : sigs.reverse[i]? = some sig) :
    stacktop st.stack (2+keys.length+1+i) = .ok sig := by
  have hi : i < sigs.reverse.length := (List.getElem?_eq_some_iff.mp h).1
  refine stacktop_of_get (by omega) ?_
  rw [call.stack,show 2+keys.length+1+i-1 = keys.length+(i+1)+1 by omega,getElem?_cons_succ,
    getElem?_append_right (by rw [length_reverse]; omega),length_reverse,
    show keys.length+(i+1)-keys.length = i+1 by omega,getElem?_cons_succ,getElem?_append_left hi,h]

theorem get_dummy : stacktop st.stack (2+keys.length+1+sigs.length) = .ok dummy := by
  refine stacktop_of_get (by omega) ?_
  rw [call.stack,show 2+keys.length+1+sigs.length-1 = keys.length+(sigs.length+1)+1 by omega,
    getElem?_cons_succ,getElem?_append_right (by rw [length_reverse]; omega),length_reverse,
    show keys.length+(sigs.length+1)-keys.length = sigs.length+1 by omega,getElem?_cons_succ,
    getElem?_append_right (by simp)]
  simp

theorem stack_length : 2+keys.length+1+sigs.length ≤ st.stack.length := by
  rw [call.stack]
  simp only [length_cons,length_append,length_reverse]
  omega

theorem drop_arguments : st.stack.drop (2+keys.length+1+sigs.length) = rest := by
  have hsplit : st.stack = (call.keyCount::(keys.reverse++call.sigCount::(sigs.reverse++[dummy])))++rest := by
    rw [call.stack]
    simp
  rw [hsplit,drop_left']
  simp only [length_cons,length_append,length_reverse,length_nil]
  omega

omit call in
def finish (st : EvalState) (nKeysCount : Nat) (r : Bool × Nat) (stack : List Bytes) : EvalState :=
  { st with stack := stack, nOpCount := st.nOpCount+nKeysCount, nSigChecks := st.nSigChecks+r.2 }

theorem exec_eq (ops : CryptoOps) (checker : SignatureChecker) (verify : Bool) :
    execCheckMultiSig ops checker flags verify st = (if hasFlag flags enableSchnorrMultisig && !dummy.isEmpty then
          schnorrMultiSig checker flags st.stack st.pbegincodehash 2 (2+keys.length+1)
            (2+keys.length+1+sigs.length) keys.length sigs.length
        else legacyMultiSig ops checker flags st.stack st.pbegincodehash 2 (2+keys.length+1)
          keys.length sigs.length).bind fun r =>
        (pushVerdict r.1 verify .checkMultiSigVerify rest).map (finish st keys.length r) := by
  have hlen := call.stack_length
  have hkeys := call.keys_le
  have hsigs := call.sigs_le
  have hrequire : ∀ {p : Prop} [Decidable p] {e : ScriptError}, p → require (decide p) e = .ok () :=
    fun hp => by rw [decide_eq_true hp]; rfl
  unfold execCheckMultiSig
  rw [hrequire (by omega : 1 ≤ st.stack.length)]
  simp only [Except.bind]
  rw [call.get_keyCount]
  simp only [call.keyCount_num,Int.toNat_natCast]
  rw [← Bool.decide_and,hrequire (by omega : (0 : Int) ≤ keys.length ∧ (keys.length : Int) ≤ maxPubKeysPerMultisig)]
  simp only
  rw [hrequire call.ops_le]
  simp only
  rw [hrequire (by omega : 2+keys.length ≤ st.stack.length)]
  simp only [call.get_sigCount,call.sigCount_num,Int.toNat_natCast]
  rw [← Bool.decide_and,hrequire (by omega : (0 : Int) ≤ sigs.length ∧ (sigs.length : Int) ≤ keys.length)]
  simp only
  rw [hrequire hlen]
  simp only [call.get_dummy]
  rw [popstackN_eq hlen,call.drop_arguments]
  rfl
end MultiSigCall
end Layout

section Legacy

variable {ops : CryptoOps} {checker : SignatureChecker} {flags : UInt32} {st : EvalState}
  {keys sigs rest : List Bytes} {dummy : Bytes} (call : MultiSigCall flags st keys sigs dummy rest)

/-- The script code with all signatures removed, the top one first. -/
def cleanedCode (flags : UInt32) (scriptCode : CScript) (sigs : List Bytes) : CScript :=
  sigs.reverse.foldl (fun code sig => cleanupScriptCode code sig flags) scriptCode

include call

theorem cleanupMultiSig_eq (n k : Nat) (hn : n+k = sigs.length) (scriptCode : CScript) :
    cleanupMultiSig flags st.stack (2+keys.length+1) n k scriptCode =
      .ok ((sigs.reverse.drop k).foldl (fun code sig => cleanupScriptCode code sig flags) scriptCode) := by
  induction n generalizing k scriptCode with
  | zero =>
    rw [drop_of_length_le (by rw [length_reverse]; omega)]
    rfl
  | succ n ih =>
    have hk : k < sigs.reverse.length := by rw [length_reverse]; omega
    rw [cleanupMultiSig,call.get_sig (getElem?_eq_getElem hk),drop_eq_getElem_cons hk,foldl_cons]
    exact ih (k+1) (by omega) _

theorem areAllSignaturesNull_eq (n i : Nat) (hn : n+i = sigs.length) :
    areAllSignaturesNull st.stack (2+keys.length+1) n i = .ok ((sigs.reverse.drop i).all List.isEmpty) := by
  induction n generalizing i with
  | zero =>
    rw [drop_of_length_le (by rw [length_reverse]; omega)]
    rfl
  | succ n ih =>
    have hi : i < sigs.reverse.length := by rw [length_reverse]; omega
    rw [areAllSignaturesNull,call.get_sig (getElem?_eq_getElem hi),drop_eq_getElem_cons hi,all_cons]
    simp only [Except.bind]
    cases he : (sigs.reverse[i]).isEmpty with
    | true =>
      rw [if_pos rfl,Bool.true_and]
      exact ih (i+1) (by omega)
    | false => rfl

theorem legacyLoop_eq {scriptCode : CScript} (hkeys : ∀ key ∈ keys, checkPubKeyEncoding key flags = .ok ())
    (hsigs : ∀ sig ∈ sigs, checkTransactionECDSASignatureEncoding ops sig flags = .ok ())
    (n m : Nat) (hn : n ≤ keys.length) (hm : m ≤ sigs.length) (hle : m ≤ n) :
    legacyLoop ops checker flags st.stack scriptCode (2+keys.length+1) 2 sigs.length keys.length n m =
      .ok (greedy (fun sig key => checker.checkSig sig key scriptCode flags)
        (keys.reverse.drop (keys.length-n)) (sigs.reverse.drop (sigs.length-m))) := by
  induction n generalizing m with
  | zero =>
    have hm0 : m = 0 := by omega
    subst hm0
    rw [legacyLoop,Nat.sub_zero,Nat.sub_zero,drop_of_length_le (l := sigs.reverse) (by simp)]
    cases keys.reverse.drop keys.length <;> rfl
  | succ n ih =>
    cases m with
    | zero =>
      rw [legacyLoop,Nat.sub_zero,drop_of_length_le (l := sigs.reverse) (by simp)]
      cases keys.reverse.drop (keys.length-(n+1)) <;> rfl
    | succ m =>
      have hi : sigs.length-(m+1) < sigs.reverse.length := by rw [length_reverse]; omega
      have hj : keys.length-(n+1) < keys.reverse.length := by rw [length_reverse]; omega
      have hsig := hsigs _ (mem_reverse.mp (getElem_mem hi))
      have hkey := hkeys _ (mem_reverse.mp (getElem_mem hj))
      rw [legacyLoop,call.get_sig (getElem?_eq_getElem hi),call.get_key (getElem?_eq_getElem hj),
        drop_eq_getElem_cons hi,drop_eq_getElem_cons hj,greedy,
        show sigs.length-(m+1)+1 = sigs.length-m by omega,show keys.length-(n+1)+1 = keys.length-n by omega]
      simp only [Except.bind,hsig,hkey]
      by_cases hv : checker.checkSig sigs.reverse[sigs.length-(m+1)] keys.reverse[keys.length-(n+1)] scriptCode flags
      · rw [if_pos hv,if_pos hv,if_neg (by omega)]
        exact ih m (by omega) (by omega) (by omega)
      · rw [if_neg hv,if_neg hv]
        by_cases hexit : m+1 > n
        · rw [if_pos hexit,greedy_of_length_lt]
          simp only [length_drop,length_cons,length_reverse]
          omega
        · rw [if_neg hexit,ih (m+1) (by omega) (by omega) (by omega),
            show sigs.length-m = sigs.length-(m+1)+1 by omega,← drop_eq_getElem_cons hi]

theorem legacyMultiSig_eq (hkeys : ∀ key ∈ keys, checkPubKeyEncoding key flags = .ok ())
    (hsigs : ∀ sig ∈ sigs, checkTransactionECDSASignatureEncoding ops sig flags = .ok ()) :
    legacyMultiSig ops checker flags st.stack st.pbegincodehash 2 (2+keys.length+1) keys.length sigs.length =
      let fSuccess := greedy (fun sig key =>
        checker.checkSig sig key (cleanedCode flags st.pbegincodehash sigs) flags) keys.reverse sigs.reverse
      let allNull := sigs.reverse.all List.isEmpty
      (require (fSuccess || !hasFlag flags verifyNullFail || allNull) .sigNullFail).map fun _ =>
        (fSuccess,if allNull then 0 else keys.length) := by
  have hloop : legacyLoop ops checker flags st.stack (cleanedCode flags st.pbegincodehash sigs) (2+keys.length+1) 2
      sigs.length keys.length keys.length sigs.length = _ :=
    legacyLoop_eq call hkeys hsigs keys.length sigs.length le_rfl le_rfl call.sigs_le
  rw [Nat.sub_self,Nat.sub_self,drop_zero,drop_zero] at hloop
  rw [legacyMultiSig,cleanupMultiSig_eq call sigs.length 0 rfl]
  simp only [Except.bind]
  rw [drop_zero,← cleanedCode,hloop]
  simp only [areAllSignaturesNull_eq call sigs.length 0 rfl,drop_zero]
end Legacy

section Bitfield

def selectedKeys (bits : Nat) : Nat → List Bytes → List Bytes
  | _, [] => []
  | i, key::keys => if bits.testBit i then key::selectedKeys bits (i+1) keys else selectedKeys bits (i+1) keys

variable {bits : Nat}

theorem selectedKeys_length (bits i : Nat) (keys : List Bytes) :
    (selectedKeys bits i keys).length = (range' i keys.length).countP bits.testBit := by
  induction keys generalizing i with
  | nil => rfl
  | cons key keys ih =>
    rw [selectedKeys,length_cons,range'_succ,countP_cons,← ih]
    split_ifs <;> rfl

theorem countBits_eq {keys : List Bytes} (hlen : keys.length ≤ 32) (hb : bits < 2^keys.length) :
    countBits bits = (selectedKeys bits 0 keys).length := by
  have hhigh : (range' keys.length (32-keys.length)).countP bits.testBit = 0 := by
    rw [countP_eq_zero]
    intro j hj
    have hjk : keys.length ≤ j := (mem_range'_1.mp hj).1
    rw [Nat.testBit_lt_two_pow (hb.trans_le (Nat.pow_le_pow_right (by decide) hjk))]
    decide
  rw [countBits,selectedKeys_length,range_eq_range',
    show (32 : Nat) = keys.length+(32-keys.length) by omega,← range'_append_1,countP_append,
    Nat.zero_add,hhigh,Nat.add_zero]

theorem nextKey_spec {keys : List Bytes} {key : Bytes} {ks : List Bytes} (fuel i : Nat)
    (hf : keys.length ≤ i+fuel) (h : selectedKeys bits i (keys.drop i) = key::ks) :
    i ≤ nextKey bits fuel i ∧ bits.testBit (nextKey bits fuel i) = true ∧ keys[nextKey bits fuel i]? = some key ∧
      selectedKeys bits (nextKey bits fuel i+1) (keys.drop (nextKey bits fuel i+1)) = ks := by
  induction fuel generalizing i with
  | zero =>
    rw [drop_of_length_le (by omega)] at h
    cases h
  | succ fuel ih =>
    by_cases hi : i < keys.length
    · rw [drop_eq_getElem_cons hi,selectedKeys] at h
      rw [nextKey]
      by_cases hbit : bits.testBit i
      · rw [if_pos hbit,List.cons.injEq] at h
        rw [if_pos hbit]
        exact ⟨le_rfl,hbit,by rw [getElem?_eq_getElem hi,h.1],h.2⟩
      · rw [if_neg hbit] at h
        rw [if_neg hbit]
        obtain ⟨hle,hrest⟩ := ih (i+1) (by omega) h
        exact ⟨by omega,hrest⟩
    · rw [drop_of_length_le (by omega)] at h
      cases h

theorem shifted_ne_zero {i k : Nat} (hik : i ≤ k) (hbit : bits.testBit k = true) : bits/2^i ≠ 0 := by
  intro hz
  have hlt : bits < 2^i := by simpa using Nat.div_eq_zero_iff.mp hz
  rw [Nat.testBit_lt_two_pow (hlt.trans_le (Nat.pow_le_pow_right (by decide) hik))] at hbit
  cases hbit

theorem shifted_eq_zero {keys : List Bytes} {i : Nat} (hb : bits < 2^keys.length)
    (h : selectedKeys bits i (keys.drop i) = []) : bits/2^i = 0 := by
  have hcount := selectedKeys_length bits i (keys.drop i)
  rw [h,length_nil,length_drop,eq_comm,countP_eq_zero] at hcount
  refine Nat.div_eq_of_lt (Nat.lt_pow_two_of_testBit _ fun j hj => ?_)
  by_cases hjk : j < keys.length
  · simpa using hcount j (mem_range'_1.mpr ⟨hj,by omega⟩)
  · exact Nat.testBit_lt_two_pow (hb.trans_le (Nat.pow_le_pow_right (by decide) (by omega)))
end Bitfield

section Schnorr

variable {checker : SignatureChecker} {flags : UInt32} {st : EvalState}
  {keys sigs rest : List Bytes} {dummy : Bytes} (call : MultiSigCall flags st keys sigs dummy rest)

include call

theorem schnorrLoop_spec {scriptCode : CScript} {bits : Nat} (hb : bits < 2^keys.length)
    (hkeys : ∀ key ∈ keys, checkPubKeyEncoding key flags = .ok ())
    (hsigs : ∀ sig ∈ sigs, checkTransactionSchnorrSignatureEncoding sig flags = .ok ())
    (n iSig iKey : Nat) (hn : iSig+n = sigs.length)
    (hsel : (selectedKeys bits iKey (keys.drop iKey)).length = n) :
    let r := schnorrLoop checker flags st.stack scriptCode bits keys.length (2+keys.length-1)
      (2+keys.length+1+sigs.length-1) n iSig iKey
    let good := List.Forall₂ (fun sig key => checker.checkSig sig key scriptCode flags = true)
      (sigs.drop iSig) (selectedKeys bits iKey (keys.drop iKey))
    (good → ∃ iKey', r = .ok iKey' ∧ bits/2^iKey' = 0) ∧ (¬good → r = setError .sigNullFail) := by
  induction n generalizing iSig iKey with
  | zero =>
    have hnil : selectedKeys bits iKey (keys.drop iKey) = [] := length_eq_zero_iff.mp hsel
    refine ⟨fun _ => ⟨iKey,rfl,shifted_eq_zero hb hnil⟩,fun hbad => absurd ?_ hbad⟩
    rw [hnil,drop_of_length_le (by omega)]
    exact .nil
  | succ n ih =>
    have hlimit := call.keys_le
    obtain ⟨key,ks,hks⟩ : ∃ key ks, selectedKeys bits iKey (keys.drop iKey) = key::ks :=
      exists_cons_of_length_eq_add_one hsel
    obtain ⟨hle,hbit,hkey,hrest⟩ := nextKey_spec 32 iKey (by unfold maxPubKeysPerMultisig at hlimit; omega) hks
    have hk : nextKey bits 32 iKey < keys.length := (List.getElem?_eq_some_iff.mp hkey).1
    have hi : iSig < sigs.length := by omega
    have hgetSig : stacktop st.stack (2+keys.length+1+sigs.length-1-iSig) = .ok sigs[iSig] := by
      rw [show 2+keys.length+1+sigs.length-1-iSig = 2+keys.length+1+(sigs.length-1-iSig) by omega]
      refine call.get_sig ?_
      rw [getElem?_reverse (by omega),show sigs.length-1-(sigs.length-1-iSig) = iSig by omega,
        getElem?_eq_getElem hi]
    have hgetKey : stacktop st.stack (2+keys.length-1-nextKey bits 32 iKey) = .ok key := by
      rw [show 2+keys.length-1-nextKey bits 32 iKey = 2+(keys.length-1-nextKey bits 32 iKey) by omega]
      refine call.get_key ?_
      rw [getElem?_reverse (by omega),
        show keys.length-1-(keys.length-1-nextKey bits 32 iKey) = nextKey bits 32 iKey by omega,hkey]
    have hsig := hsigs _ (getElem_mem hi)
    have hpub := hkeys key (mem_of_getElem? hkey)
    have hrestLen : (selectedKeys bits (nextKey bits 32 iKey+1)
        (keys.drop (nextKey bits 32 iKey+1))).length = n := by
      rw [hks,length_cons] at hsel
      rw [hrest]
      omega
    have hih := ih (iSig+1) (nextKey bits 32 iKey+1) (by omega) hrestLen
    have hstep : schnorrLoop checker flags st.stack scriptCode bits keys.length (2+keys.length-1)
        (2+keys.length+1+sigs.length-1) (n+1) iSig iKey =
          (require (checker.checkSig sigs[iSig] key scriptCode flags) .sigNullFail).bind fun _ =>
            schnorrLoop checker flags st.stack scriptCode bits keys.length (2+keys.length-1)
              (2+keys.length+1+sigs.length-1) n (iSig+1) (nextKey bits 32 iKey+1) := by
      rw [schnorrLoop,decide_eq_true (shifted_ne_zero hle hbit),require_true]
      simp only [Except.bind]
      rw [decide_eq_true hk,require_true]
      simp only [hgetSig,hgetKey,hsig,hpub]
    simp only [hstep,hks,drop_eq_getElem_cons hi,forall₂_cons]
    rw [hrest] at hih
    by_cases hv : checker.checkSig sigs[iSig] key scriptCode flags
    · simp only [hv,true_and,require_true,Except.bind]
      exact hih
    · simp only [hv,false_and,false_imp_iff,not_false_eq_true,true_and,forall_const,Bool.false_eq_true]
      rfl
end Schnorr

def Succeeds (verify : Bool) (rest : List Bytes) (r : Eval EvalState) : Prop :=
  ∃ st', r = .ok st' ∧ st'.stack = if verify then rest else vchTrue::rest

section Decides

variable {ops : CryptoOps} {checker : SignatureChecker} {flags : UInt32} {st : EvalState}
  {keys sigs rest : List Bytes} {dummy : Bytes} {verify : Bool}

theorem verdict_cases (verify : Bool) (rest : List Bytes) (st : EvalState) (n : Nat) (x : Eval (Bool × Nat)) :
    let r := x.bind fun r => (pushVerdict r.1 verify .checkMultiSigVerify rest).map (MultiSigCall.finish st n r)
    (Succeeds verify rest r ↔ ∃ m, x = .ok (true,m)) ∧
      (r = setError .unknown → x = setError .unknown) ∧ (x = setError .sigNullFail → r = setError .sigNullFail) := by
  cases x with
  | error e =>
    refine ⟨⟨?_,?_⟩,?_,?_⟩
    · rintro ⟨st',h,-⟩
      cases h
    · rintro ⟨m,h⟩
      cases h
    · intro h
      cases h
      rfl
    · intro h
      cases h
      rfl
  | ok r =>
    obtain ⟨fSuccess,m⟩ := r
    refine ⟨?_,?_,nofun⟩
    · cases fSuccess with
      | true =>
        refine iff_of_true ?_ ⟨m,rfl⟩
        cases verify with
        | true => exact ⟨_,rfl,rfl⟩
        | false => exact ⟨_,rfl,rfl⟩
      | false =>
        refine iff_of_false ?_ ?_
        · rintro ⟨st',h,hs⟩
          cases verify with
          | true => cases h
          | false =>
            cases h
            cases hs
        · rintro ⟨_,h⟩
          cases h
    · intro h
      cases fSuccess <;> cases verify <;> cases h

variable (call : MultiSigCall flags st keys sigs dummy rest)

theorem schnorrMultiSig_spec (checker : SignatureChecker) (call : MultiSigCall flags st keys sigs dummy rest)
    (hkeys : ∀ key ∈ keys, checkPubKeyEncoding key flags = .ok ())
    (hsigs : ∀ sig ∈ sigs, checkTransactionSchnorrSignatureEncoding sig flags = .ok ()) :
    let r := schnorrMultiSig checker flags st.stack st.pbegincodehash 2 (2+keys.length+1)
      (2+keys.length+1+sigs.length) keys.length sigs.length
    let selected := selectedKeys (leNat dummy) 0 keys
    let decodes := dummy.length = (keys.length+7)/8 ∧ leNat dummy < 2^keys.length ∧ selected.length = sigs.length
    let good := List.Forall₂ (fun sig key => checker.checkSig sig key st.pbegincodehash flags = true) sigs selected
    (decodes → good → r = .ok (true,sigs.length)) ∧ (decodes → ¬good → r = setError .sigNullFail) ∧
      (¬decodes → ∃ e, r = setError e ∧ e ≠ .unknown) := by
  have hlimit : keys.length ≤ 32 := call.keys_le.trans (by decide)
  have hstart : schnorrMultiSig checker flags st.stack st.pbegincodehash 2 (2+keys.length+1)
      (2+keys.length+1+sigs.length) keys.length sigs.length = (decodeBitfield dummy keys.length).bind fun checkBits =>
          (require (countBits checkBits = sigs.length) .invalidBitCount).bind fun _ =>
            (schnorrLoop checker flags st.stack st.pbegincodehash checkBits keys.length (2+keys.length-1)
              (2+keys.length+1+sigs.length-1) sigs.length 0 0).bind fun iKey =>
              (require (checkBits/2^iKey = 0) .invalidBitCount).map fun _ => (true,sigs.length) := by
    rw [schnorrMultiSig,call.get_dummy]
    rfl
  have hdecode : dummy.length = (keys.length+7)/8 → leNat dummy < 2^keys.length →
      decodeBitfield dummy keys.length = .ok (leNat dummy) := by
    intro hlen hb
    rw [decodeBitfield,if_neg (by omega),if_neg (by simpa using hlen),if_neg (by omega)]
  intro r selected decodes good
  refine ⟨?_,?_,?_⟩
  · rintro ⟨hlen,hb,hsel⟩ hgood
    obtain ⟨iKey,hloop,hdone⟩ := (schnorrLoop_spec call hb hkeys hsigs sigs.length 0 0 (by omega) hsel).1 hgood
    simp only [r,hstart,hdecode hlen hb,Except.bind]
    rw [countBits_eq hlimit hb,decide_eq_true hsel,require_true]
    simp only [hloop]
    rw [decide_eq_true hdone]
    rfl
  · rintro ⟨hlen,hb,hsel⟩ hbad
    have hloop := (schnorrLoop_spec call hb hkeys hsigs sigs.length 0 0 (by omega) hsel).2 hbad
    simp only [r,hstart,hdecode hlen hb,Except.bind]
    rw [countBits_eq hlimit hb,decide_eq_true hsel,require_true]
    simp only [hloop]
    rfl
  · intro hnot
    simp only [r,hstart]
    by_cases hlen : dummy.length = (keys.length+7)/8
    · by_cases hb : leNat dummy < 2^keys.length
      · refine ⟨.invalidBitCount,?_,by decide⟩
        rw [hdecode hlen hb]
        simp only [Except.bind]
        rw [countBits_eq hlimit hb,decide_eq_false fun hsel => hnot ⟨hlen,hb,hsel⟩]
        rfl
      · refine ⟨.invalidBitRange,?_,by decide⟩
        rw [decodeBitfield,if_neg (by omega),if_neg (by simpa using hlen),if_pos (by omega)]
        rfl
    · refine ⟨.invalidBitfieldSize,?_,by decide⟩
      rw [decodeBitfield,if_neg (by omega),if_pos hlen]
      rfl

include call

/-- What the opcode decides, in both modes, when no encoding check fails. -/
theorem checkMultiSig_decides (hkeys : ∀ key ∈ keys, checkPubKeyEncoding key flags = .ok ()) :
    ((dummy = [] ∨ hasFlag flags enableSchnorrMultisig = false) →
      (∀ sig ∈ sigs, checkTransactionECDSASignatureEncoding ops sig flags = .ok ()) →
      (Succeeds verify rest (execCheckMultiSig ops checker flags verify st) ↔
        ∃ f : Fin sigs.length → Fin keys.length, StrictMono f ∧ ∀ i, checker.checkSig (sigs.get i)
          (keys.get (f i)) (cleanedCode flags st.pbegincodehash sigs) flags = true) ∧
      execCheckMultiSig ops checker flags verify st ≠ setError .unknown) ∧
    (dummy ≠ [] → hasFlag flags enableSchnorrMultisig = true →
      (∀ sig ∈ sigs, checkTransactionSchnorrSignatureEncoding sig flags = .ok ()) →
      (Succeeds verify rest (execCheckMultiSig ops checker flags verify st) ↔
        (dummy.length = (keys.length+7)/8 ∧ leNat dummy < 2^keys.length ∧
          (selectedKeys (leNat dummy) 0 keys).length = sigs.length) ∧
        List.Forall₂ (fun sig key => checker.checkSig sig key st.pbegincodehash flags = true) sigs
          (selectedKeys (leNat dummy) 0 keys)) ∧
      (dummy.length = (keys.length+7)/8 ∧ leNat dummy < 2^keys.length ∧
          (selectedKeys (leNat dummy) 0 keys).length = sigs.length →
        Succeeds verify rest (execCheckMultiSig ops checker flags verify st) ∨
          execCheckMultiSig ops checker flags verify st = setError .sigNullFail) ∧
      execCheckMultiSig ops checker flags verify st ≠ setError .unknown) := by
  rw [call.exec_eq]
  constructor
  · intro hmode hsigs
    have hbranch : ¬(hasFlag flags enableSchnorrMultisig && !dummy.isEmpty) = true := by
      rcases hmode with rfl | hflag
      · simp
      · simp [hflag]
    rw [if_neg hbranch,legacyMultiSig_eq call hkeys hsigs]
    generalize hg : greedy _ _ _ = fSuccess
    have hmatch : fSuccess = true ↔ ∃ f : Fin sigs.length → Fin keys.length, StrictMono f ∧
        ∀ i, checker.checkSig (sigs.get i) (keys.get (f i)) (cleanedCode flags st.pbegincodehash sigs) flags =
          true := by
      rw [← hg,greedy_iff,matches_reverse]
      exact matches_iff_strictMono
    generalize sigs.reverse.all List.isEmpty = allNull
    obtain ⟨hsucc,hunknown,-⟩ := verdict_cases verify rest st keys.length
      ((require (fSuccess || !hasFlag flags verifyNullFail || allNull) .sigNullFail).map fun _ =>
        (fSuccess,if allNull then 0 else keys.length))
    rw [← hmatch]
    refine ⟨hsucc.trans ?_,fun h => ?_⟩
    · cases fSuccess with
      | true => exact iff_of_true ⟨_,rfl⟩ rfl
      | false =>
        refine iff_of_false ?_ (by simp)
        rintro ⟨m,h⟩
        unfold require at h
        split_ifs at h <;> cases h
    · have hx := hunknown h
      unfold require at hx
      split_ifs at hx <;> cases hx
  · intro hdummy hflag hsigs
    have hbranch : (hasFlag flags enableSchnorrMultisig && !dummy.isEmpty) = true := by
      simp [hflag,hdummy]
    rw [if_pos hbranch]
    obtain ⟨hgood,hbad,herror⟩ := schnorrMultiSig_spec checker call hkeys hsigs
    obtain ⟨hsucc,hunknown,hnull⟩ := verdict_cases verify rest st keys.length
      (schnorrMultiSig checker flags st.stack st.pbegincodehash 2 (2+keys.length+1)
        (2+keys.length+1+sigs.length) keys.length sigs.length)
    by_cases hdec : dummy.length = (keys.length+7)/8 ∧ leNat dummy < 2^keys.length ∧
        (selectedKeys (leNat dummy) 0 keys).length = sigs.length
    · by_cases hall : List.Forall₂ (fun sig key => checker.checkSig sig key st.pbegincodehash flags = true) sigs
          (selectedKeys (leNat dummy) 0 keys)
      · have hr := hgood hdec hall
        have hs := hsucc.mpr ⟨_,hr⟩
        refine ⟨iff_of_true hs ⟨hdec,hall⟩,fun _ => .inl hs,fun h => ?_⟩
        have hx := hunknown h
        rw [hr] at hx
        cases hx
      · have hr := hbad hdec hall
        refine ⟨iff_of_false (fun h => ?_) fun h => hall h.2,fun _ => .inr (hnull hr),fun h => ?_⟩
        · obtain ⟨m,hm⟩ := hsucc.mp h
          rw [hr] at hm
          cases hm
        · have hx := hunknown h
          rw [hr] at hx
          cases hx
    · obtain ⟨e,hr,he⟩ := herror hdec
      refine ⟨iff_of_false (fun h => ?_) fun h => hdec h.1,fun h => absurd h hdec,fun h => ?_⟩
      · obtain ⟨m,hm⟩ := hsucc.mp h
        rw [hr] at hm
        cases hm
      · have hx := hunknown h
        rw [hr] at hx
        cases hx
        exact he rfl
end Decides

section OneOfTwo

def echoChecker : SignatureChecker where
  context := none
  checkSig := fun sig pubKey _ _ => sig == pubKey
  verifySignature := fun _ _ _ => false
  checkLockTime := fun _ => false
  checkSequence := fun _ => false
  checkSig_congr := fun _ _ _ _ _ _ _ => rfl

def oneOfTwo : EvalState := ⟨[],[],[[2],[8],[7],[1],[8],[]],[],⟨0,none⟩,0,0⟩

def oneOfTwoCall : MultiSigCall 0 oneOfTwo [[7],[8]] [[8]] [] [] where
  keyCount := [2]
  sigCount := [1]
  stack := rfl
  keyCount_num := rfl
  sigCount_num := rfl
  keys_le := by decide
  sigs_le := by decide
  ops_le := by decide

theorem checkMultiSig_decides_oneOfTwo :
    Succeeds false [] (execCheckMultiSig plainOps echoChecker 0 false oneOfTwo) :=
  ((checkMultiSig_decides oneOfTwoCall (fun _ _ => rfl)).1 (.inl rfl) (by decide)).1.mpr
    ⟨fun _ => 1,fun i j h => absurd h (by revert i j; decide),by decide⟩
end OneOfTwo
end BitfiniteCore
