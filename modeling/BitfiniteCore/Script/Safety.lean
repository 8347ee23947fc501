import BitfiniteCore.Script.TimeLocks

/-! # Safety of the script engine -/

namespace BitfiniteCore
open ScriptFlags Relation List

section Postconditions

def Reported (e : ScriptStop) : Prop := ∃ err, e = .error err ∧ err ≠ .unknown

abbrev Safe {α : Type} (P : α → Prop) (x : Eval α) : Prop := ExceptPost Reported P x

variable {α : Type} {P : α → Prop}

theorem setError_safe {e : ScriptError} (h : e ≠ .unknown) : Safe P (setError e) := ⟨e,rfl,h⟩

theorem require_safe {c : Bool} {e : ScriptError} (h : e ≠ .unknown) : Safe (fun _ => c = true) (require c e) :=
  require_post ⟨e,rfl,h⟩

theorem require_decide_safe {p : Prop} [Decidable p] {e : ScriptError} (h : e ≠ .unknown) :
    Safe (fun _ => p) (require (decide p) e) :=
  (require_safe h).mono fun _ hp => of_decide_eq_true hp

theorem requires {c : Bool} {e : ScriptError} {f : Unit → Eval α} (he : e ≠ .unknown) (h : c = true → Safe P (f ())) :
    Safe P ((require c e).bind f) :=
  .bind (require_safe he) fun _ => h

theorem requires_decide {p : Prop} [Decidable p] {e : ScriptError} {f : Unit → Eval α} (he : e ≠ .unknown)
    (h : p → Safe P (f ())) : Safe P ((require (decide p) e).bind f) :=
  .bind (require_decide_safe he) fun _ => h

theorem needs {stack : List Bytes} {n : Nat} {f : Unit → Eval α} (h : n ≤ stack.length → Safe P (f ())) :
    Safe P ((require (decide (n ≤ stack.length)) .invalidStackOperation).bind f) :=
  requires_decide nofun h

theorem rejects {c : Prop} [Decidable c] {e : ScriptError} {x : Eval α} (he : e ≠ .unknown)
    (h : ¬ c → Safe P x) : Safe P (if c then setError e else x) :=
  .ite (fun _ => setError_safe he) h
end Postconditions

section Elements

def Fits (stack : List Bytes) : Prop := ∀ vch ∈ stack, vch.length ≤ maxScriptElementSize

theorem Fits.nil : Fits [] := forall_mem_nil _

theorem Fits.cons {vch : Bytes} {stack : List Bytes} (hv : vch.length ≤ maxScriptElementSize) (h : Fits stack) :
    Fits (vch::stack) :=
  forall_mem_cons.mpr ⟨hv,h⟩

theorem Fits.of_subset {stack stack' : List Bytes} (h : Fits stack) (hsub : stack' ⊆ stack) : Fits stack' :=
  fun vch hv => h vch (hsub hv)

theorem Fits.drop {stack : List Bytes} (h : Fits stack) (n : Nat) : Fits (stack.drop n) :=
  h.of_subset (drop_subset n stack)

theorem Fits.tail {stack : List Bytes} (h : Fits stack) : Fits stack.tail := h.of_subset (tail_sublist stack).subset

variable {stack : List Bytes}

theorem stacktop_safe {i : Nat} (hi : 0 < i ∧ i ≤ stack.length) :
    Safe (fun vch => vch ∈ stack) (stacktop stack i) := by
  unfold stacktop
  rw [if_neg (by omega),getElem?_eq_getElem (by omega)]
  exact getElem_mem _

theorem reads {α : Type} {P : α → Prop} {i : Nat} {f : Bytes → Eval α} (hi : 0 < i ∧ i ≤ stack.length)
    (h : ∀ vch ∈ stack, Safe P (f vch)) : Safe P ((stacktop stack i).bind f) :=
  .bind (stacktop_safe hi) h

theorem popstack_safe (hlen : 1 ≤ stack.length) : Safe (fun s => s = stack.tail) (popstack stack) := by
  cases stack with
  | nil => simp at hlen
  | cons vch stack => exact rfl

theorem popstackN_safe (n : Nat) (hlen : n ≤ stack.length) : Safe (fun s => s = stack.drop n) (popstackN n stack) := by
  induction n generalizing stack with
  | zero => exact rfl
  | succ n ih =>
    cases stack with
    | nil => simp at hlen
    | cons vch stack => exact ih (by simpa using hlen)

theorem eraseTop_safe {i : Nat} (hi : 0 < i ∧ i ≤ stack.length) :
    Safe (fun s => s ⊆ stack ∧ s.length+1 = stack.length) (eraseTop stack i) := by
  unfold eraseTop
  rw [if_neg (by omega)]
  constructor
  · exact (eraseIdx_sublist stack (i-1)).subset
  · rw [length_eraseIdx_of_lt (by omega)]
    omega

theorem swapTop_safe {i j : Nat} (hi : 0 < i ∧ i ≤ stack.length) (hj : 0 < j ∧ j ≤ stack.length) :
    Safe (fun s => s ⊆ stack ∧ s.length = stack.length) (swapTop stack i j) := by
  refine .bind (stacktop_safe hi) fun vch1 h1 => .map (stacktop_safe hj) fun vch2 h2 => ⟨?_,by simp⟩
  intro vch hv
  obtain hv | rfl := mem_or_eq_of_mem_set hv
  · obtain hv | rfl := mem_or_eq_of_mem_set hv
    · exact hv
    · exact h2
  · exact h1

theorem insertTop_safe {i : Nat} {vch : Bytes} (hlen : i ≤ stack.length) (hv : vch ∈ stack) :
    Safe (fun s => s ⊆ stack) (insertTop stack i vch) := by
  unfold insertTop
  rw [if_neg (by omega)]
  intro x hx
  rw [mem_insertIdx hlen] at hx
  obtain rfl | hx := hx
  · exact hv
  · exact hx
end Elements

section Numbers

private theorem magnitude_length (k n : Nat) : (CScriptNum.magnitude k n).length ≤ k := by
  induction k generalizing n with
  | zero => rfl
  | succ k ih =>
    unfold CScriptNum.magnitude
    split
    · exact Nat.zero_le _
    · exact Nat.succ_le_succ (ih _)

private theorem serialize_length (value : Int) : (CScriptNum.serialize value).length ≤ 9 := by
  have hm := magnitude_length 8 value.natAbs
  unfold CScriptNum.serialize
  dsimp only
  split
  · exact Nat.zero_le _
  · rename_i back rest hrev
    have hlen := congrArg length hrev
    rw [length_reverse,length_cons] at hlen
    split_ifs
    · rw [length_append]
      exact Nat.succ_le_succ hm
    · rw [length_append]
      exact Nat.succ_le_succ hm
    · rw [length_reverse,length_cons]
      omega
    · omega

theorem Fits.number {stack : List Bytes} (h : Fits stack) (value : Int) : Fits (CScriptNum.serialize value::stack) :=
  h.cons ((serialize_length value).trans (by decide))

private theorem boolBytes_length (b : Bool) : (boolBytes b).length ≤ maxScriptElementSize := by
  cases b <;> decide

private theorem trimZeros_length (last : UInt8) (rest : Bytes) :
    (CScriptNum.trimZeros last rest).length ≤ rest.length+1 := by
  induction rest with
  | nil => exact Nat.zero_le _
  | cons b rest ih =>
    unfold CScriptNum.trimZeros
    split_ifs
    · rw [length_cons]
      omega
    · simp
    · simp

private theorem minimallyEncode_length (data : Bytes) : (CScriptNum.minimallyEncode data).length ≤ data.length := by
  unfold CScriptNum.minimallyEncode
  split
  · exact le_rfl
  · rename_i last rest hrev
    have hlen := congrArg length hrev
    rw [length_reverse,length_cons] at hlen
    split_ifs
    · exact le_rfl
    · split
      · exact Nat.zero_le _
      · rename_i next rest'
        split_ifs
        · exact le_rfl
        · exact hlen ▸ trimZeros_length last (next::rest')

theorem fromBytes_safe {vch : Bytes} {minimal : Bool} {size : Nat}
    (hsize : size ≤ CScriptNum.maximumElementSize64Bit) :
    Safe (fun _ => True) (CScriptNum.fromBytes vch minimal size) := by
  unfold CScriptNum.fromBytes
  rw [if_neg (not_lt.mpr hsize)]
  apply ExceptPost.ite
  · intro _
    split
    · exact setError_safe nofun
    · exact setError_safe nofun
  · intro _
    apply ExceptPost.ite
    · exact fun _ => setError_safe nofun
    · exact fun _ => trivial

theorem scriptNum_safe (flags : UInt32) (vch : Bytes) : Safe (fun _ => True) (scriptNum flags vch) := by
  apply fromBytes_safe
  unfold maxIntegerSize
  split <;> decide

theorem safeResult_safe (x : Int) : Safe (fun _ => True) (CScriptNum.safeResult x) := by
  apply ExceptPost.ite
  · exact fun _ => trivial
  · exact fun _ => setError_safe nofun

theorem unaryOp_safe (k : UnaryOp) (bn : Int) : Safe (fun _ => True) (unaryOp k bn) := by
  cases k with
  | add1 | sub1 => exact safeResult_safe _
  | _ => trivial

theorem binaryOp_safe (k : BinaryOp) (bn1 bn2 : Int) : Safe (fun _ => True) (binaryOp k bn1 bn2) := by
  cases k with
  | add | sub | mul => exact safeResult_safe _
  | div | mod => exact rejects nofun fun _ => trivial
  | _ => trivial

theorem num2bin_safe (rawnum : Bytes) {size : Nat} (hsize : size ≤ maxScriptElementSize) :
    Safe (fun out => out.length ≤ maxScriptElementSize) (num2bin rawnum size) := by
  apply ExceptPost.ite
  · exact fun _ => setError_safe nofun
  intro hgt
  apply ExceptPost.ite
  · intro heq
    exact heq.le.trans hsize
  intro hne
  split
  · apply ExceptPost.ok
    rw [length_append,length_replicate,length_singleton]
    omega
  · rename_i back rest hrev
    have hlen := congrArg length hrev
    rw [length_reverse,length_cons] at hlen
    apply ExceptPost.ok
    simp only [length_append,length_reverse,length_cons,length_replicate,length_nil]
    omega

theorem hashOp_length (ops : CryptoOps) (k : HashOp) (vch : Bytes) : (hashOp ops k vch).length ≤ maxScriptElementSize := by
  cases k <;> simp [hashOp,maxScriptElementSize]
end Numbers

section StackOps

variable {ops : CryptoOps} {flags : UInt32} {stack : List Bytes}

theorem pushVerdict_safe (fSuccess verify : Bool) {e : ScriptError} (he : e ≠ .unknown) (h : Fits stack) :
    Safe Fits (pushVerdict fSuccess verify e stack) := by
  apply ExceptPost.ite
  · intro _
    apply ExceptPost.ite
    · exact fun _ => h
    · exact fun _ => setError_safe he
  · exact fun _ => h.cons (boolBytes_length fSuccess)

theorem stackOp_safe (op : Op) (h : Fits stack) : Safe Fits (stackOp ops flags op stack) := by
  have htop := fun {vch : Bytes} (hv : vch ∈ stack) => h vch hv
  cases op with
  | smallInt n => exact h.number n
  | verify =>
    refine needs fun hn => reads (by omega) fun vch _ =>
      .ite (fun _ => ?_) fun _ => setError_safe nofun
    exact (popstack_safe (by omega)).mono fun s hs => hs ▸ h.tail
  | drop2 => exact needs fun hn => (popstackN_safe 2 hn).mono fun s hs => hs ▸ h.drop 2
  | dup2 =>
    exact needs fun hn => reads (by omega) fun vch1 h1 =>
      .map (stacktop_safe (by omega)) fun vch2 h2 => (h.cons (htop h1)).cons (htop h2)
  | dup3 =>
    exact needs fun hn => reads (by omega) fun vch1 h1 =>
      reads (by omega) fun vch2 h2 =>
        .map (stacktop_safe (by omega)) fun vch3 h3 =>
          ((h.cons (htop h1)).cons (htop h2)).cons (htop h3)
  | over2 =>
    exact needs fun hn => reads (by omega) fun vch1 h1 =>
      .map (stacktop_safe (by omega)) fun vch2 h2 => (h.cons (htop h1)).cons (htop h2)
  | rot2 =>
    exact needs fun hn => reads (by omega) fun vch1 h1 =>
      reads (by omega) fun vch2 h2 =>
        .bind (eraseTop_safe (by omega)) fun s hs =>
          .map (eraseTop_safe (by omega)) fun s' hs' =>
            (((h.of_subset hs.1).of_subset hs'.1).cons (htop h1)).cons (htop h2)
  | swap2 =>
    exact needs fun hn =>
      .bind (swapTop_safe (by omega) (by omega)) fun s hs =>
        (swapTop_safe (by omega) (by omega)).mono fun s' hs' =>
          (h.of_subset hs.1).of_subset hs'.1
  | ifDup =>
    refine needs fun hn => .map (stacktop_safe (by omega)) fun vch hv => ?_
    split
    · exact h.cons (htop hv)
    · exact h
  | depth => exact h.number _
  | drop => exact needs fun hn => (popstack_safe (by omega)).mono fun s hs => hs ▸ h.tail
  | dup => exact needs fun hn => .map (stacktop_safe (by omega)) fun vch hv => h.cons (htop hv)
  | nip => exact needs fun hn => (eraseTop_safe (by omega)).mono fun s hs => h.of_subset hs.1
  | over1 => exact needs fun hn => .map (stacktop_safe (by omega)) fun vch hv => h.cons (htop hv)
  | pick roll =>
    refine needs fun hn => reads (by omega) fun vch _ =>
      .bind (scriptNum_safe flags vch) fun n _ => .bind (popstack_safe (by omega)) fun s hs =>
        requires nofun fun hrange => ?_
    rw [Bool.and_eq_true,decide_eq_true_eq,decide_eq_true_eq] at hrange
    have hfits : Fits s := hs ▸ h.tail
    refine reads (by omega) fun vch hv => ?_
    apply ExceptPost.map (P := Fits)
    · apply ExceptPost.ite
      · exact fun _ => (eraseTop_safe (by omega)).mono fun s' hs' => hfits.of_subset hs'.1
      · exact fun _ => hfits
    · exact fun s' hs' => hs'.cons (hfits vch hv)
  | rot =>
    exact needs fun hn =>
      .bind (swapTop_safe (by omega) (by omega)) fun s hs =>
        (swapTop_safe (by omega) (by omega)).mono fun s' hs' =>
          (h.of_subset hs.1).of_subset hs'.1
  | swap =>
    exact needs fun hn =>
      (swapTop_safe (by omega) (by omega)).mono fun s hs => h.of_subset hs.1
  | tuck =>
    exact needs fun hn => reads (by omega) fun vch hv =>
      (insertTop_safe hn hv).mono fun s hs => h.of_subset hs
  | size =>
    exact needs fun hn => .map (stacktop_safe (by omega)) fun vch _ => h.number _
  | bitwise k =>
    refine needs fun hn => reads (by omega) fun vch1 h1 =>
      reads (by omega) fun vch2 _ => requires nofun fun _ =>
        .map (popstackN_safe 2 hn) fun s hs => (hs ▸ h.drop 2 : Fits s).cons ?_
    rw [length_zipWith]
    exact (Nat.min_le_left _ _).trans (htop h1)
  | equal verify =>
    exact needs fun hn => reads (by omega) fun _ _ =>
      reads (by omega) fun _ _ => .bind (popstackN_safe 2 hn) fun s hs =>
        pushVerdict_safe _ verify (by decide) (hs ▸ h.drop 2)
  | unary k =>
    exact needs fun hn => reads (by omega) fun vch _ =>
      .bind (scriptNum_safe flags vch) fun bn _ => .bind (unaryOp_safe k bn) fun bn _ =>
        .map (popstack_safe (by omega)) fun s hs => (hs ▸ h.tail : Fits s).number bn
  | binary k =>
    refine needs fun hn => reads (by omega) fun vch1 _ =>
      reads (by omega) fun vch2 _ => .bind (scriptNum_safe flags vch1) fun bn1 _ =>
        .bind (scriptNum_safe flags vch2) fun bn2 _ => .bind (binaryOp_safe k bn1 bn2) fun bn _ =>
          .bind (popstackN_safe 2 hn) fun s hs => ?_
    have hfits : Fits s := hs ▸ h.drop 2
    apply ExceptPost.ite
    · intro _
      apply ExceptPost.ite
      · exact fun _ => hfits
      · exact fun _ => setError_safe nofun
    · exact fun _ => hfits.number bn
  | within =>
    exact needs fun hn => reads (by omega) fun vch1 _ =>
      reads (by omega) fun vch2 _ =>
        reads (by omega) fun vch3 _ => .bind (scriptNum_safe flags vch1) fun _ _ =>
          .bind (scriptNum_safe flags vch2) fun _ _ => .bind (scriptNum_safe flags vch3) fun _ _ =>
            .map (popstackN_safe 3 hn) fun s hs => (hs ▸ h.drop 3 : Fits s).cons (boolBytes_length _)
  | hash k =>
    exact needs fun hn => reads (by omega) fun vch _ =>
      .map (popstack_safe (by omega)) fun s hs => (hs ▸ h.tail : Fits s).cons (hashOp_length ops k vch)
  | cat =>
    refine needs fun hn => reads (by omega) fun vch1 _ =>
      reads (by omega) fun vch2 _ =>
        requires_decide nofun fun hsize => .map (popstackN_safe 2 hn) fun s hs =>
          (hs ▸ h.drop 2 : Fits s).cons ?_
    rw [length_append]
    exact hsize
  | split =>
    refine needs fun hn => reads (by omega) fun data hd =>
      reads (by omega) fun vch _ => .bind (scriptNum_safe flags vch) fun position _ =>
        requires nofun fun _ => .map (popstackN_safe 2 hn) fun s hs =>
          ((hs ▸ h.drop 2 : Fits s).cons ?_).cons ?_
    · exact (length_take_le' _ _).trans (htop hd)
    · rw [length_drop]
      exact (Nat.sub_le _ _).trans (htop hd)
  | reverseBytes =>
    refine needs fun hn => reads (by omega) fun data hd =>
      .map (popstack_safe (by omega)) fun s hs => (hs ▸ h.tail : Fits s).cons ?_
    rw [length_reverse]
    exact htop hd
  | num2bin =>
    refine needs fun hn => reads (by omega) fun vch _ =>
      .bind (scriptNum_safe flags vch) fun size _ => requires nofun fun hrange =>
        .bind (popstack_safe (by omega)) fun s hs => ?_
    rw [Bool.and_eq_true,decide_eq_true_eq,decide_eq_true_eq] at hrange
    have hlen : 1 ≤ s.length := by
      rw [hs,length_tail]
      omega
    exact .bind (stacktop_safe ⟨by decide,hlen⟩) fun rawnum _ => .bind (num2bin_safe rawnum (by omega))
      fun out hout => .map (popstack_safe hlen) fun s' hs' => (hs' ▸ (hs ▸ h.tail : Fits s).tail : Fits s').cons hout
  | bin2num =>
    refine needs fun hn => reads (by omega) fun vch hv => ?_
    refine .bind (require_safe ?_) fun _ _ => .map (popstack_safe (by omega)) fun s hs =>
      (hs ▸ h.tail : Fits s).cons ((minimallyEncode_length vch).trans (htop hv))
    split <;> decide
  | _ => exact setError_safe nofun
end StackOps

section Signatures

variable {ops : CryptoOps} {checker : SignatureChecker} {flags : UInt32} {stack : List Bytes}

theorem checkRawECDSASignatureEncoding_safe (sig : Bytes) :
    Safe (fun _ => True) (checkRawECDSASignatureEncoding ops sig flags) :=
  rejects nofun fun _ => rejects nofun fun _ =>
    rejects nofun fun _ => trivial

theorem checkRawSignatureEncoding_safe (sig : Bytes) :
    Safe (fun _ => True) (checkRawSignatureEncoding ops sig flags) :=
  .ite (fun _ => trivial) fun _ => checkRawECDSASignatureEncoding_safe sig

theorem checkSighashEncoding_safe (sig : Bytes) : Safe (fun _ => True) (checkSighashEncoding sig flags) := by
  apply ExceptPost.ite
  · intro _
    exact rejects nofun fun _ => rejects nofun fun _ =>
      rejects nofun fun _ => rejects nofun fun _ => trivial
  · exact fun _ => trivial

theorem checkTransactionSignatureEncodingWith_safe {check : Bytes → UInt32 → Eval Unit}
    (hcheck : ∀ sig, Safe (fun _ => True) (check sig flags)) (sig : Bytes) :
    Safe (fun _ => True) (checkTransactionSignatureEncodingWith check sig flags) :=
  .ite (fun _ => trivial) fun _ => .bind (hcheck _) fun _ _ => checkSighashEncoding_safe sig

theorem checkPubKeyEncoding_safe (vchPubKey : Bytes) : Safe (fun _ => True) (checkPubKeyEncoding vchPubKey flags) :=
  rejects nofun fun _ => trivial

theorem checkDataSignatureEncoding_safe (sig : Bytes) :
    Safe (fun _ => True) (checkDataSignatureEncoding ops sig flags) :=
  .ite (fun _ => trivial) fun _ => checkRawSignatureEncoding_safe sig

theorem checkRawSchnorrSignatureEncoding_safe (sig : Bytes) :
    Safe (fun _ => True) (checkRawSchnorrSignatureEncoding sig flags) :=
  .ite (fun _ => trivial) fun _ => setError_safe nofun

theorem schnorrLoop_safe {scriptCode : CScript} {checkBits nKeysCount nSigsCount idxTopKey idxTopSig : Nat}
    (hkey : 0 < idxTopKey) (hkeys : idxTopKey+nKeysCount ≤ stack.length) (hsig : 0 < idxTopSig)
    (hsigs : idxTopSig+nSigsCount ≤ stack.length) (n iSig iKey : Nat) (hn : n+iSig = nSigsCount) :
    Safe (fun _ => True) (schnorrLoop checker flags stack scriptCode checkBits nKeysCount (idxTopKey+nKeysCount-1)
      (idxTopSig+nSigsCount-1) n iSig iKey) := by
  induction n generalizing iSig iKey with
  | zero => trivial
  | succ n ih =>
    refine requires nofun fun _ => ?_
    exact requires_decide nofun fun hk => reads (by omega)
      fun vchSig _ => reads (by omega) fun vchPubKey _ =>
        .bind (checkTransactionSignatureEncodingWith_safe checkRawSchnorrSignatureEncoding_safe vchSig) fun _ _ =>
          .bind (checkPubKeyEncoding_safe vchPubKey) fun _ _ => requires nofun fun _ =>
            ih _ _ (by omega)

theorem cleanupMultiSig_safe {idxTopSig nSigsCount : Nat} (hsig : 0 < idxTopSig)
    (hsigs : idxTopSig+nSigsCount ≤ stack.length) (n k : Nat) (hn : n+k = nSigsCount) (scriptCode : CScript) :
    Safe (fun _ => True) (cleanupMultiSig flags stack idxTopSig n k scriptCode) := by
  induction n generalizing k scriptCode with
  | zero => trivial
  | succ n ih => exact reads (by omega) fun vchSig _ => ih _ (by omega) _

theorem areAllSignaturesNull_safe {idxTopSig nSigsCount : Nat} (hsig : 0 < idxTopSig)
    (hsigs : idxTopSig+nSigsCount ≤ stack.length) (n i : Nat) (hn : n+i = nSigsCount) :
    Safe (fun _ => True) (areAllSignaturesNull stack idxTopSig n i) := by
  induction n generalizing i with
  | zero => trivial
  | succ n ih =>
    exact reads (by omega) fun vchSig _ =>
      .ite (fun _ => ih _ (by omega)) fun _ => trivial

theorem legacyLoop_safe {scriptCode : CScript} {nKeysCount nSigsCount idxTopKey idxTopSig : Nat}
    (hkey : 0 < idxTopKey) (hkeys : idxTopKey+nKeysCount ≤ stack.length) (hsig : 0 < idxTopSig)
    (hsigs : idxTopSig+nSigsCount ≤ stack.length) (keys sigs : Nat) (hk : keys ≤ nKeysCount)
    (hs : sigs ≤ nSigsCount) (hle : sigs ≤ keys) :
    Safe (fun _ => True) (legacyLoop ops checker flags stack scriptCode idxTopSig idxTopKey nSigsCount nKeysCount
      keys sigs) := by
  induction keys generalizing sigs with
  | zero =>
    cases sigs with
    | zero => trivial
    | succ sigs => omega
  | succ keys ih =>
    cases sigs with
    | zero => trivial
    | succ sigs =>
      refine reads (by omega) fun vchSig _ =>
        reads (by omega) fun vchPubKey _ =>
          .bind (checkTransactionSignatureEncodingWith_safe checkRawECDSASignatureEncoding_safe vchSig) fun _ _ =>
            .bind (checkPubKeyEncoding_safe vchPubKey) fun _ _ => ?_
      apply ExceptPost.ite
      · exact fun _ => trivial
      · intro hrest
        apply ih
        · omega
        · split_ifs <;> omega
        · omega

theorem decodeBitfield_safe (vch : Bytes) (size : Nat) : Safe (fun _ => True) (decodeBitfield vch size) :=
  rejects nofun fun _ => rejects nofun fun _ =>
    rejects nofun fun _ => trivial

/-- What the opcodes keep: the sizes of the elements, the number of opcodes and the position. -/
structure Keeps (st st' : EvalState) : Prop where
  stack : Fits st'.stack
  altstack : Fits st'.altstack
  nOpCount : st'.nOpCount ≤ maxOpsPerScript
  pc : st'.pc = st.pc

variable {st : EvalState}

theorem Keeps.withStack (h : Keeps st st) {stack : List Bytes} (hs : Fits stack) (n : Nat) :
    Keeps st { st with stack := stack, nSigChecks := n } :=
  ⟨hs,h.altstack,h.nOpCount,rfl⟩

theorem execCheckSig_safe (verify : Bool) (h : Keeps st st) :
    Safe (Keeps st) (execCheckSig ops checker flags verify st) := by
  refine needs fun hn => reads (by omega) fun vchSig _ =>
    reads (by omega) fun vchPubKey _ =>
      .bind (checkTransactionSignatureEncodingWith_safe checkRawSignatureEncoding_safe vchSig) fun _ _ =>
        .bind (checkPubKeyEncoding_safe vchPubKey) fun _ _ => ?_
  exact requires nofun fun _ => .bind (popstackN_safe 2 hn) fun s hs =>
    .map (pushVerdict_safe _ verify (by decide) (hs ▸ h.stack.drop 2)) fun s' hs' => h.withStack hs' _

theorem execCheckDataSig_safe (verify : Bool) (h : Keeps st st) :
    Safe (Keeps st) (execCheckDataSig ops checker flags verify st) := by
  refine needs fun hn => reads (by omega) fun vchSig _ =>
    reads (by omega) fun vchMessage _ =>
      reads (by omega) fun vchPubKey _ =>
        .bind (checkDataSignatureEncoding_safe vchSig) fun _ _ =>
          .bind (checkPubKeyEncoding_safe vchPubKey) fun _ _ => ?_
  exact requires nofun fun _ => .bind (popstackN_safe 3 hn) fun s hs =>
    .map (pushVerdict_safe _ verify (by decide) (hs ▸ h.stack.drop 3)) fun s' hs' => h.withStack hs' _

theorem schnorrMultiSig_safe {scriptCode : CScript} {nKeysCount nSigsCount idxTopKey idxTopSig idxDummy : Nat}
    (hkey : 0 < idxTopKey) (hkeys : idxTopKey+nKeysCount ≤ stack.length) (hsig : 0 < idxTopSig)
    (hsigs : idxTopSig+nSigsCount ≤ stack.length) (hdummy : 0 < idxDummy) (hd : idxDummy ≤ stack.length) :
    Safe (fun _ => True) (schnorrMultiSig checker flags stack scriptCode idxTopKey idxTopSig idxDummy
      nKeysCount nSigsCount) :=
  .bind (stacktop_safe ⟨hdummy,hd⟩) fun vchDummy _ => .bind (decodeBitfield_safe vchDummy nKeysCount) fun checkBits _ =>
    requires nofun fun _ => .bind (schnorrLoop_safe hkey hkeys hsig hsigs nSigsCount 0 0 rfl)
      fun _ _ => .map (require_safe (by decide)) fun _ _ => trivial

theorem legacyMultiSig_safe {scriptCode : CScript} {nKeysCount nSigsCount idxTopKey idxTopSig : Nat}
    (hkey : 0 < idxTopKey) (hkeys : idxTopKey+nKeysCount ≤ stack.length) (hsig : 0 < idxTopSig)
    (hsigs : idxTopSig+nSigsCount ≤ stack.length) (hle : nSigsCount ≤ nKeysCount) :
    Safe (fun _ => True) (legacyMultiSig ops checker flags stack scriptCode idxTopKey idxTopSig
      nKeysCount nSigsCount) :=
  .bind (cleanupMultiSig_safe hsig hsigs nSigsCount 0 rfl scriptCode) fun _ _ =>
    .bind (legacyLoop_safe hkey hkeys hsig hsigs nKeysCount nSigsCount le_rfl le_rfl hle) fun _ _ =>
      .bind (areAllSignaturesNull_safe hsig hsigs nSigsCount 0 rfl) fun _ _ =>
        .map (require_safe (by decide)) fun _ _ => trivial

theorem execCheckMultiSig_safe (verify : Bool) (h : Keeps st st) :
    Safe (Keeps st) (execCheckMultiSig ops checker flags verify st) := by
  refine needs fun hn => reads (by omega) fun vch _ =>
    .bind (scriptNum_safe flags vch) fun nKeys _ => requires nofun fun hnKeys => ?_
  refine requires_decide nofun fun hcount => needs fun hkeys =>
    .bind (stacktop_safe (by omega)) fun vch _ => .bind (scriptNum_safe flags vch) fun nSigs _ =>
      requires nofun fun hnSigs => ?_
  refine needs fun hdummy => .bind (stacktop_safe (by omega)) fun vchDummy _ => ?_
  rw [Bool.and_eq_true,decide_eq_true_eq,decide_eq_true_eq] at hnKeys hnSigs
  apply ExceptPost.bind (P := fun _ => True)
  · apply ExceptPost.ite
    · exact fun _ => schnorrMultiSig_safe (by decide) (by omega) (by omega) (by omega) (by omega) hdummy
    · exact fun _ => legacyMultiSig_safe (by decide) (by omega) (by omega) (by omega) (by omega)
  · intro r _
    exact .bind (popstackN_safe _ hdummy) fun s hs =>
      .map (pushVerdict_safe r.1 verify (by decide) (hs ▸ h.stack.drop _)) fun s' hs' =>
        ⟨hs',h.altstack,hcount,rfl⟩
end Signatures

section Introspection

def TokenSane (tokenData : Option OutputData) : Prop :=
  ∀ d, tokenData = some d → d.serialize.isSome = true ∧ 0 ≤ d.amount ∧ d.amount ≤ int64Max

def ScriptExecutionContext.outputs (context : ScriptExecutionContext) : List CTxOut :=
  context.tx.vout++context.inputCoins.map Coin.out

structure ContextSane (context : ScriptExecutionContext) : Prop where
  unlimited : context.limited = false
  nIn : context.nIn < context.tx.vin.length
  coins : context.inputCoins.length = context.tx.vin.length
  inputCount : (context.tx.vin.length : Int) ≤ int64Max
  outputCount : (context.tx.vout.length : Int) ≤ int64Max
  nVersion : -2^31 ≤ context.tx.nVersion ∧ context.tx.nVersion < 2^31
  nLockTime : context.tx.nLockTime < 2^32
  inputs : ∀ txin ∈ context.tx.vin, txin.prevout.n < 2^32 ∧ txin.nSequence < 2^32
  amounts : ∀ txout ∈ context.outputs, int64Range txout.nValue = true
  tokens : ∀ txout ∈ context.outputs, TokenSane txout.tokenData

def AmountsEncodable (context : ScriptExecutionContext) : Prop := ∀ txout ∈ context.outputs, txout.nValue ≠ int64Min

variable {flags : UInt32} {context : ScriptExecutionContext}

private abbrev Element (vch : Bytes) : Prop := vch.length ≤ maxScriptElementSize

theorem numberElement_safe {x : Int} (hlow : int64Min < x) (hhigh : x ≤ int64Max) :
    Safe Element (numberElement x) := by
  have hvalid : valid64BitRange x = true := by simp [valid64BitRange,hlow,hhigh]
  unfold numberElement CScriptNum.fromIntValue
  rw [if_pos hvalid]
  exact (serialize_length x).trans (by decide)

theorem numberElement_nat_safe {n : Nat} (hn : (n : Int) ≤ int64Max) : Safe Element (numberElement n) :=
  numberElement_safe ((show int64Min < 0 by decide).trans_le (Int.natCast_nonneg n)) hn

theorem sizedElement_safe (vch : Bytes) : Safe Element (sizedElement vch) :=
  .map (require_decide_safe (by decide)) fun _ h => h

private theorem zero_element : Element (CScriptNum.serialize 0) := (serialize_length 0).trans (by decide)

theorem tokenCategory_safe (tokenData : Option OutputData) : Safe Element (tokenCategory tokenData) := by
  cases tokenData with
  | none => exact zero_element
  | some d => exact sizedElement_safe _

theorem tokenCommitment_safe (tokenData : Option OutputData) : Safe Element (tokenCommitment tokenData) := by
  cases tokenData with
  | none => exact zero_element
  | some d => exact .ite (fun _ => zero_element) fun _ => sizedElement_safe _

theorem tokenAmount_safe {tokenData : Option OutputData} (h : TokenSane tokenData) :
    Safe Element (tokenAmount tokenData) := by
  cases tokenData with
  | none => exact zero_element
  | some d =>
    obtain ⟨-,hpos,hmax⟩ := h d rfl
    exact numberElement_safe ((show int64Min < 0 by decide).trans_le hpos) hmax

theorem getBytecode_safe {txout : CTxOut} (h : TokenSane txout.tokenData) :
    Safe (fun _ => True) (getBytecode flags txout) := by
  apply ExceptPost.ite
  · intro _
    cases htoken : txout.tokenData with
    | none => trivial
    | some d =>
      obtain ⟨bytes,hbytes⟩ := Option.isSome_iff_exists.mp (h d htoken).1
      dsimp only [wrapScriptPubKey]
      rw [hbytes]
      trivial
  · exact fun _ => trivial

theorem outputValue_safe {txout : CTxOut} (h : ContextSane context) (ha : AmountsEncodable context)
    (hmem : txout ∈ context.outputs) : Safe Element (numberElement txout.nValue) := by
  have hrange := h.amounts txout hmem
  rw [int64Range,Bool.and_eq_true,decide_eq_true_eq,decide_eq_true_eq] at hrange
  exact numberElement_safe (lt_of_le_of_ne hrange.1 (ha txout hmem).symm) hrange.2

theorem inputAt_safe (index : Int) : Safe (fun txin => txin ∈ context.tx.vin) (inputAt context index) := by
  refine requires nofun fun hrange => ?_
  rw [Bool.and_eq_true,decide_eq_true_eq,decide_eq_true_eq] at hrange
  rw [getElem?_eq_getElem (by omega)]
  exact getElem_mem _

theorem coinAt_safe (h : ContextSane context) (index : Int) :
    Safe (fun coin => coin.out ∈ context.outputs) (coinAt context index) := by
  refine requires nofun fun hrange => requires nofun fun _ => ?_
  rw [Bool.and_eq_true,decide_eq_true_eq,decide_eq_true_eq] at hrange
  have hlen := h.coins
  rw [getElem?_eq_getElem (by omega)]
  exact mem_append_right _ (mem_map_of_mem (getElem_mem _))

theorem outputAt_safe (index : Int) : Safe (fun txout => txout ∈ context.outputs) (outputAt context index) := by
  refine requires nofun fun hrange => ?_
  rw [Bool.and_eq_true,decide_eq_true_eq,decide_eq_true_eq] at hrange
  rw [getElem?_eq_getElem (by omega)]
  exact mem_append_left _ (getElem_mem _)

theorem nullaryOp_safe (h : ContextSane context) (k : NullaryOp) (st : EvalState) :
    Safe Element (nullaryOp k context st) := by
  cases k with
  | inputIndex => exact numberElement_nat_safe (by have := h.nIn; have := h.inputCount; omega)
  | activeBytecode => exact sizedElement_safe _
  | txVersion =>
    have hv := h.nVersion
    exact numberElement_safe ((show int64Min < -2^31 by decide).trans_le hv.1)
      (hv.2.le.trans (show (2 : Int)^31 ≤ int64Max by decide))
  | txInputCount => exact numberElement_nat_safe h.inputCount
  | txOutputCount => exact numberElement_nat_safe h.outputCount
  | txLockTime => exact numberElement_nat_safe (by have := h.nLockTime; unfold int64Max; omega)

theorem indexedOp_safe (h : ContextSane context) (ha : AmountsEncodable context) (k : IndexedOp) (index : Int) :
    Safe Element (indexedOp flags k context index) := by
  have hin := fun (txin : CTxIn) hmem => h.inputs txin hmem
  cases k with
  | utxoValue => exact .bind (coinAt_safe h index) fun coin hc => outputValue_safe h ha hc
  | utxoBytecode =>
    exact .bind (coinAt_safe h index) fun coin hc => .bind (getBytecode_safe (h.tokens _ hc)) fun vch _ =>
      sizedElement_safe vch
  | outpointTxHash =>
    exact .map (inputAt_safe index) fun txin _ => (leBytes_length 32 _).le.trans (by decide)
  | outpointIndex =>
    exact .bind (inputAt_safe index) fun txin hmem =>
      numberElement_nat_safe (by have := (hin txin hmem).1; unfold int64Max; omega)
  | inputBytecode => exact .bind (inputAt_safe index) fun txin _ => sizedElement_safe _
  | inputSequenceNumber =>
    exact .bind (inputAt_safe index) fun txin hmem =>
      numberElement_nat_safe (by have := (hin txin hmem).2; unfold int64Max; omega)
  | outputValue => exact .bind (outputAt_safe index) fun txout hmem => outputValue_safe h ha hmem
  | outputBytecode =>
    exact .bind (outputAt_safe index) fun txout hmem => .bind (getBytecode_safe (h.tokens _ hmem)) fun vch _ =>
      sizedElement_safe vch
  | utxoTokenCategory => exact .bind (coinAt_safe h index) fun _ _ => tokenCategory_safe _
  | utxoTokenCommitment => exact .bind (coinAt_safe h index) fun _ _ => tokenCommitment_safe _
  | utxoTokenAmount => exact .bind (coinAt_safe h index) fun _ hc => tokenAmount_safe (h.tokens _ hc)
  | outputTokenCategory => exact .bind (outputAt_safe index) fun _ _ => tokenCategory_safe _
  | outputTokenCommitment => exact .bind (outputAt_safe index) fun _ _ => tokenCommitment_safe _
  | outputTokenAmount => exact .bind (outputAt_safe index) fun _ hmem => tokenAmount_safe (h.tokens _ hmem)
end Introspection

section Evaluation

variable {ops : CryptoOps} {checker : SignatureChecker} {flags : UInt32} {st : EvalState}

theorem checkLockTimeVerify_safe (h : Keeps st st) : Safe (Keeps st) (checkLockTimeVerify checker flags st) := by
  apply ExceptPost.ite
  · exact fun _ => h
  · exact fun _ => needs fun hn => reads (by omega) fun vch _ =>
      .bind (fromBytes_safe (by decide)) fun _ _ => requires nofun fun _ =>
        .map (require_safe (by decide)) fun _ _ => h

theorem checkSequenceVerify_safe (h : Keeps st st) : Safe (Keeps st) (checkSequenceVerify checker flags st) := by
  apply ExceptPost.ite
  · exact fun _ => h
  · exact fun _ => needs fun hn => reads (by omega) fun vch _ =>
      .bind (fromBytes_safe (by decide)) fun _ _ => requires nofun fun _ =>
        .ite (fun _ => h) fun _ => .map (require_safe (by decide)) fun _ _ => h

theorem execIf_safe (not fExec : Bool) (h : Keeps st st) : Safe (Keeps st) (execIf flags not fExec st) := by
  apply ExceptPost.ite
  · exact fun _ => ⟨h.stack,h.altstack,h.nOpCount,rfl⟩
  · exact fun _ => requires_decide nofun fun hn => reads (by omega) fun vch _ =>
      requires nofun fun _ => .map (popstack_safe (by omega)) fun s hs =>
        ⟨hs ▸ h.stack.tail,h.altstack,h.nOpCount,rfl⟩

def CheckerSane (checker : SignatureChecker) : Prop :=
  ∀ context, checker.context = some context → ContextSane context ∧ AmountsEncodable context

theorem getContext_safe (hctx : CheckerSane checker) :
    Safe (fun context => ContextSane context ∧ AmountsEncodable context) (getContext checker flags) := by
  refine requires nofun fun _ => ?_
  split
  · rename_i context hc
    exact hctx context hc
  · exact setError_safe nofun

theorem execOp_safe (hctx : CheckerSane checker) (op : Op) (fExec : Bool) (h : Keeps st st) :
    Safe (Keeps st) (execOp ops checker flags op fExec st) := by
  cases op with
  | nop => exact h
  | checkLockTimeVerify => exact checkLockTimeVerify_safe h
  | checkSequenceVerify => exact checkSequenceVerify_safe h
  | upgradableNop => exact .map (require_safe (by decide)) fun _ _ => h
  | if_ not => exact execIf_safe not fExec h
  | else_ => exact .map (require_safe (by decide)) fun _ _ => ⟨h.stack,h.altstack,h.nOpCount,rfl⟩
  | endIf => exact .map (require_safe (by decide)) fun _ _ => ⟨h.stack,h.altstack,h.nOpCount,rfl⟩
  | return_ => exact setError_safe nofun
  | toAltStack =>
    exact needs fun hn => reads (by omega) fun vch hv =>
      .map (popstack_safe (by omega)) fun s hs => ⟨hs ▸ h.stack.tail,h.altstack.cons (h.stack vch hv),h.nOpCount,rfl⟩
  | fromAltStack =>
    exact requires_decide nofun fun hn => reads (by omega) fun vch hv =>
      .map (popstack_safe (by omega)) fun s hs => ⟨h.stack.cons (h.altstack vch hv),hs ▸ h.altstack.tail,h.nOpCount,rfl⟩
  | codeSeparator => exact ⟨h.stack,h.altstack,h.nOpCount,rfl⟩
  | checkSig verify => exact execCheckSig_safe verify h
  | checkDataSig verify => exact execCheckDataSig_safe verify h
  | checkMultiSig verify => exact execCheckMultiSig_safe verify h
  | nullary k =>
    exact .bind (getContext_safe hctx) fun context hc => .map (nullaryOp_safe hc.1 k st) fun vch hv =>
      ⟨h.stack.cons hv,h.altstack,h.nOpCount,rfl⟩
  | indexed k =>
    exact requires nofun fun _ => .bind (getContext_safe hctx) fun context hc =>
      needs fun hn => reads (by omega) fun vch _ =>
        .bind (scriptNum_safe flags vch) fun index _ => .bind (popstack_safe (by omega)) fun s hs =>
          .map (indexedOp_safe hc.1 hc.2 k index) fun vch hv =>
            ⟨(hs ▸ h.stack.tail : Fits s).cons hv,h.altstack,h.nOpCount,rfl⟩
  | _ =>
    unfold execOp
    exact .map (stackOp_safe _ h.stack) fun s hs => ⟨hs,h.altstack,h.nOpCount,rfl⟩

structure Bounded (st : EvalState) : Prop where
  size : st.stack.length+st.altstack.length ≤ maxStackSize
  stack : Fits st.stack
  altstack : Fits st.altstack
  nOpCount : st.nOpCount ≤ maxOpsPerScript

theorem evalStep_safe (hctx : CheckerSane checker) (h : Bounded st) (hpc : st.pc ≠ []) :
    Safe (fun st' => Bounded st' ∧ st'.pc.length < st.pc.length) (evalStep ops checker flags st) := by
  unfold evalStep
  split
  · exact setError_safe nofun
  · rename_i opcode vch rest hget
    have hlen := getScriptOp_length hget hpc
    refine requires_decide nofun fun hsize => requires_decide nofun fun hcount => requires nofun fun _ => ?_
    generalize (if opcode > op16 then st.nOpCount+1 else st.nOpCount) = nOpCount at hcount ⊢
    have hkeeps : Keeps { st with pc := rest, nOpCount := nOpCount } { st with pc := rest, nOpCount := nOpCount } :=
      ⟨h.stack,h.altstack,hcount,rfl⟩
    apply ExceptPost.bind (P := Keeps { st with pc := rest, nOpCount := nOpCount })
    · apply ExceptPost.ite
      · exact fun _ => .map (require_safe (by decide)) fun _ _ => ⟨h.stack.cons hsize,h.altstack,hcount,rfl⟩
      · intro _
        apply ExceptPost.ite
        · exact fun _ => execOp_safe hctx _ _ hkeeps
        · exact fun _ => hkeeps
    · intro st' hk
      refine .map (require_decide_safe (by decide)) fun _ hstack => ⟨⟨hstack,hk.stack,hk.altstack,hk.nOpCount⟩,?_⟩
      rw [hk.pc]
      exact hlen

theorem evalLoop_safe (hctx : CheckerSane checker) (fuel : Nat) (h : Bounded st) (hfuel : st.pc.length ≤ fuel) :
    Safe Bounded (evalLoop ops checker flags fuel st) := by
  induction fuel generalizing st with
  | zero =>
    unfold evalLoop
    rw [if_pos (by simpa using hfuel)]
    exact h
  | succ fuel ih =>
    apply ExceptPost.ite
    · exact fun _ => h
    · intro hpc
      apply (evalStep_safe hctx h (by simpa using hpc)).bind
      exact fun st' h' => ih h'.1 (by omega)

theorem evalStart_bounded {stack : List Bytes} (script : CScript) (nSigChecks : Nat)
    (hlen : stack.length ≤ maxStackSize) (hfits : Fits stack) : Bounded (evalStart stack script nSigChecks) :=
  ⟨hlen,hfits,.nil,Nat.zero_le _⟩

theorem evalScript_post (hctx : CheckerSane checker) {stack : List Bytes} (script : CScript) (nSigChecks : Nat)
    (hlen : stack.length ≤ maxStackSize) (hfits : Fits stack) :
    Safe (fun r => r.1.length ≤ maxStackSize ∧ Fits r.1) (evalScript ops checker flags stack script nSigChecks) :=
  requires nofun fun _ =>
    .bind (evalLoop_safe hctx _ (evalStart_bounded script nSigChecks hlen hfits) le_rfl) fun st h =>
      .map (require_safe (by decide)) fun _ _ => ⟨(Nat.le_add_right _ _).trans h.size,h.stack⟩

theorem bounded_of_reach (hctx : CheckerSane checker) {start : EvalState} (h : Bounded start)
    (hreach : ReflTransGen (StepsTo ops checker flags) start st) : Bounded st := by
  induction hreach with
  | refl => exact h
  | tail _ hstep ih => exact ((evalStep_safe hctx ih hstep.1).result hstep.2).1

theorem evalScript_hash_empty {opcode : UInt8} (rest : Bytes) (nSigChecks : Nat)
    (hop : opcode = 0xa9 ∨ opcode = 0xaa) : ExceptPost (fun _ => True) (fun _ => False)
      (evalScript ops checker flags [] (opcode::rest) nSigChecks) := by
  have hstep : ExceptPost (fun _ => True) (fun _ => False)
      (evalStep ops checker flags (evalStart [] (opcode::rest) nSigChecks)) := by
    have hnot : ¬opcode ≤ opPushData4 := by obtain rfl | rfl := hop <;> decide
    have hex : Executing opcode (evalStart [] (opcode::rest) nSigChecks) := by
      refine ⟨rfl,[],rest,?_⟩
      simp [evalStart,getScriptOp,hnot]
    apply evalStep_executing hex hnot
    intro pc nOpCount
    obtain rfl | rfl := hop <;> trivial
  refine .bind (.any _) fun _ _ => ?_
  apply ExceptPost.bind (P := fun _ => False)
  · exact .bind hstep fun _ h => h.elim
  · exact fun _ h => h.elim
end Evaluation

section Verification

variable {ops : CryptoOps} {checker : SignatureChecker} {flags : UInt32}

theorem requireTrue_safe (stack : List Bytes) : Safe (fun _ => True) (requireTrue stack) := by
  cases stack with
  | nil => exact setError_safe nofun
  | cons vch stack => exact (require_safe (by decide)).mono fun _ _ => trivial

theorem finishVerify_safe (hclean : hasFlag flags verifyCleanStack = true → hasFlag flags verifyP2SH = true)
    (scriptSig : CScript) (stack : List Bytes) (nSigChecks : Nat) :
    Safe (fun _ => True) (finishVerify scriptSig flags stack nSigChecks) := by
  apply ExceptPost.bind (P := fun _ => True)
  · apply ExceptPost.ite
    · intro hc
      rw [hclean hc]
      exact (require_safe (by decide)).mono fun _ _ => trivial
    · exact fun _ => trivial
  · exact fun _ _ => .map (require_safe (by decide)) fun _ _ => trivial

theorem isPayToScriptHashOf_head {script : CScript} {p2sh32 : Bool}
    (h : isPayToScriptHashOf script flags = some p2sh32) :
    ∃ opcode rest, script = opcode::rest ∧ (opcode = 0xa9 ∨ opcode = 0xaa) := by
  unfold isPayToScriptHashOf at h
  cases script with
  | nil => simp at h
  | cons opcode rest =>
    refine ⟨opcode,rest,rfl,?_⟩
    split_ifs at h with h1 h2
    · exact .inl (Option.some.inj h1.2.1)
    · exact .inr (Option.some.inj h2.2.2.1)

theorem verifyRedeemScript_safe (hctx : CheckerSane checker)
    (hclean : hasFlag flags verifyCleanStack = true → hasFlag flags verifyP2SH = true) (scriptSig : CScript)
    (p2sh32 : Bool) {stackCopy : List Bytes} (nSigChecks : Nat) (hne : stackCopy ≠ [])
    (hlen : stackCopy.length ≤ maxStackSize) (hfits : Fits stackCopy) :
    Safe (fun _ => True) (verifyRedeemScript ops checker scriptSig flags p2sh32 stackCopy nSigChecks) := by
  refine requires nofun fun _ => ?_
  cases stackCopy with
  | nil => exact absurd rfl hne
  | cons pubKey2 stack =>
    apply ExceptPost.ite
    · exact fun _ => trivial
    · intro _
      have hlen' : stack.length ≤ maxStackSize := (Nat.le_succ _).trans hlen
      exact .bind (evalScript_post hctx pubKey2 nSigChecks hlen' hfits.tail) fun r _ =>
        .bind (requireTrue_safe r.1) fun _ _ => finishVerify_safe hclean scriptSig r.1 r.2

theorem verifyFlags_clean (h : hasFlag flags verifyCleanStack = true → hasFlag flags verifyP2SH = true) :
    hasFlag (verifyFlags flags) verifyCleanStack = true → hasFlag (verifyFlags flags) verifyP2SH = true := by
  intro hc
  apply hasFlag_verifyFlags
  apply h
  unfold verifyFlags at hc
  split at hc
  · rw [hasFlag_or] at hc
    simpa [show hasFlag verifyStrictEnc verifyCleanStack = false by decide] using hc
  · exact hc

theorem verifyScript_post (hctx : CheckerSane checker)
    (hclean : hasFlag flags verifyCleanStack = true → hasFlag flags verifyP2SH = true)
    (scriptSig scriptPubKey : CScript) :
    Safe (fun _ => True) (verifyScript ops checker scriptSig scriptPubKey flags) := by
  have hclean' := verifyFlags_clean hclean
  refine requires nofun fun _ =>
    .bind (evalScript_post hctx scriptSig 0 (Nat.zero_le _) .nil) fun r hr => ?_
  have hpub := @evalScript_post ops checker (verifyFlags flags) hctx r.1 scriptPubKey r.2 hr.1 hr.2
  cases hs : evalScript ops checker (verifyFlags flags) r.1 scriptPubKey r.2 with
  | error e => exact hpub.failure hs
  | ok s =>
    refine .bind (requireTrue_safe s.1) fun _ _ => ?_
    split
    · rename_i p2sh32 hp2sh
      split_ifs at hp2sh
      apply verifyRedeemScript_safe hctx hclean' scriptSig p2sh32 s.2 _ hr.1 hr.2
      -- on an empty stack the hash of the output script has failed already
      intro hempty
      obtain ⟨opcode,rest,hscript,hop⟩ := isPayToScriptHashOf_head hp2sh
      rw [hempty,hscript] at hs
      exact (evalScript_hash_empty rest r.2 hop).result hs
    · exact finishVerify_safe hclean' scriptSig s.1 s.2

theorem scriptEngine_safe (hctx : CheckerSane checker) :
    (∀ (flags : UInt32) (stack : List Bytes) (script : CScript) (nSigChecks : Nat),
      stack.length ≤ maxStackSize → Fits stack →
      ((∃ r, evalScript ops checker flags stack script nSigChecks = .ok r) ∨
        ∃ e, e ≠ .unknown ∧ evalScript ops checker flags stack script nSigChecks = .error (.error e)) ∧
      ∀ st, ReflTransGen (StepsTo ops checker flags) (evalStart stack script nSigChecks) st →
        st.stack.length+st.altstack.length ≤ 1000 ∧ (∀ vch ∈ st.stack++st.altstack, vch.length ≤ 520) ∧
          st.nOpCount ≤ 201) ∧
    (∀ (flags : UInt32) (scriptSig scriptPubKey : CScript),
      (hasFlag flags verifyCleanStack = true → hasFlag flags verifyP2SH = true) →
      verifyScript ops checker scriptSig scriptPubKey flags ≠ .error .assertion) := by
  constructor
  · intro flags stack script nSigChecks hlen hfits
    constructor
    · have hpost := @evalScript_post ops checker flags hctx stack script nSigChecks hlen hfits
      cases he : evalScript ops checker flags stack script nSigChecks with
      | ok r => exact .inl ⟨r,rfl⟩
      | error stop =>
        obtain ⟨e,rfl,hne⟩ := hpost.failure he
        exact .inr ⟨e,hne,rfl⟩
    · intro st hreach
      have hb := bounded_of_reach hctx (evalStart_bounded script nSigChecks hlen hfits) hreach
      refine ⟨hb.size,?_,hb.nOpCount⟩
      intro vch hv
      obtain hv | hv := mem_append.mp hv
      · exact hb.stack vch hv
      · exact hb.altstack vch hv
  · intro flags scriptSig scriptPubKey hclean herr
    obtain ⟨e,he,-⟩ := (verifyScript_post hctx hclean scriptSig scriptPubKey).failure herr
    cases he

def valueTx (nValue : Int) : CTransaction := ⟨[⟨⟨7,0⟩,[],0⟩],[⟨nValue,[0x51],none⟩],2,0,61⟩

def valueContext (nValue : Int) : ScriptExecutionContext := ⟨0,false,[⟨⟨nValue,[],none⟩,2⟩],valueTx nValue⟩

def valueChecker (nValue : Int) : SignatureChecker := { sevenChecker with context := some (valueContext nValue) }

private theorem valueContext_sane {nValue : Int} (h : int64Range nValue = true) : ContextSane (valueContext nValue) where
  unlimited := rfl
  nIn := Nat.one_pos
  coins := rfl
  inputCount := show (1 : Int) ≤ int64Max by decide
  outputCount := show (1 : Int) ≤ int64Max by decide
  nVersion := show (-2^31 : Int) ≤ 2 ∧ (2 : Int) < 2^31 by decide
  nLockTime := show 0 < 2^32 by decide
  inputs := by simp [valueContext,valueTx]
  amounts := by simpa [ScriptExecutionContext.outputs,valueContext,valueTx] using h
  tokens := by simp [ScriptExecutionContext.outputs,valueContext,valueTx,TokenSane]

/-- The script asks for the value of the first output. -/
theorem scriptEngine_safe_sample : verifyScript plainOps (valueChecker 5) [0x00] [0xcc] nativeIntrospection ≠
    .error .assertion := by
  have hctx : CheckerSane (valueChecker 5) := by
    intro context hc
    cases hc
    refine ⟨valueContext_sane (by decide),?_⟩
    simp [AmountsEncodable,ScriptExecutionContext.outputs,valueContext,valueTx,int64Min]
  exact (scriptEngine_safe hctx).2 _ _ _ (by decide)

theorem outputValue_unknown : ContextSane (valueContext int64Min) ∧
    evalScript plainOps (valueChecker int64Min) nativeIntrospection [] [0x00,0xcc] 0 = .error (.error .unknown) :=
  ⟨valueContext_sane (by decide),by decide +kernel⟩
end Verification
end BitfiniteCore
