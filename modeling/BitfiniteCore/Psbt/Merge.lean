import BitfiniteCore.Lib.PartialMerge
import BitfiniteCore.Script.SigHash

/-!
# Combining partially signed transactions

A `std::map` is the function that looks a key up.
-/

namespace BitfiniteCore
open PartialMerge List

abbrev CPubKey := Bytes

abbrev CKeyID := BitVec 160

structure KeyOriginInfo where
  fingerprint : Bytes
  path : List UInt32
deriving DecidableEq, Repr

structure PSBTInput where
  utxo : CTxOut
  redeemScript : CScript
  finalScriptSig : CScript
  hdKeypaths : CPubKey → Option KeyOriginInfo
  partialSigs : CKeyID → Option (CPubKey × Bytes)
  unknown : Bytes → Option Bytes
  sighashType : SigHashType

structure PSBTOutput where
  redeemScript : CScript
  hdKeypaths : CPubKey → Option KeyOriginInfo
  unknown : Bytes → Option Bytes

/-- `std::map::insert` of a range: a key that is there keeps its value. -/
def insertAll {K V : Type} (m other : K → Option V) : K → Option V := fun k => (m k).or (other k)

def keepUtxo (own other : CTxOut) : CTxOut := if own.isNull && !other.isNull then other else own

def keepScript (own other : CScript) : CScript := if own.isEmpty && !other.isEmpty then other else own

def PSBTInput.merge (own input : PSBTInput) : PSBTInput where
  utxo := keepUtxo own.utxo input.utxo
  partialSigs := insertAll own.partialSigs input.partialSigs
  hdKeypaths := insertAll own.hdKeypaths input.hdKeypaths
  unknown := insertAll own.unknown input.unknown
  redeemScript := keepScript own.redeemScript input.redeemScript
  finalScriptSig := keepScript own.finalScriptSig input.finalScriptSig
  -- no line of the source merges the hash type
  sighashType := own.sighashType

def PSBTOutput.merge (own output : PSBTOutput) : PSBTOutput where
  hdKeypaths := insertAll own.hdKeypaths output.hdKeypaths
  unknown := insertAll own.unknown output.unknown
  redeemScript := keepScript own.redeemScript output.redeemScript

/-- There is one entry for every input and every output of the transaction. -/
structure PartiallySignedTransaction where
  tx : CTransaction
  inputs : List PSBTInput
  outputs : List PSBTOutput
  unknown : Bytes → Option Bytes
  inputsSize : inputs.length = tx.vin.length
  outputsSize : outputs.length = tx.vout.length

/-- The loop over the entries of the left side.  On the same transaction the right side has as many. -/
def mergeEach {α : Type} (merge : α → α → α) : List α → List α → List α
  | x::xs, y::ys => merge x y::mergeEach merge xs ys
  | xs, _ => xs

@[simp] theorem mergeEach_length {α : Type} (merge : α → α → α) (xs ys : List α) :
    (mergeEach merge xs ys).length = xs.length := by
  fun_induction mergeEach merge xs ys with
  | case1 x xs y ys ih => simp [ih]
  | case2 => rfl

theorem mergeEach_get {α : Type} (merge : α → α → α) {xs ys : List α} (h : xs.length = ys.length)
    (i : Nat) : (mergeEach merge xs ys)[i]? = (xs[i]?).bind fun x => (ys[i]?).map (merge x) := by
  induction xs generalizing ys i with
  | nil => simp [mergeEach]
  | cons x xs ih =>
    cases ys with
    | nil => simp at h
    | cons y ys =>
      cases i with
      | zero => simp [mergeEach]
      | succ i => simpa [mergeEach] using ih (by simpa using h) i

namespace PartiallySignedTransaction

def merge (own psbt : PartiallySignedTransaction) : Bool × PartiallySignedTransaction :=
  if own.tx.getId ≠ psbt.tx.getId then (false,own)
  else (true,{ own with
    inputs := mergeEach PSBTInput.merge own.inputs psbt.inputs
    outputs := mergeEach PSBTOutput.merge own.outputs psbt.outputs
    unknown := insertAll own.unknown psbt.unknown
    inputsSize := by rw [mergeEach_length,own.inputsSize]
    outputsSize := by rw [mergeEach_length,own.outputsSize] })

/-- `IsSane` of an input always answers yes. -/
def isSane (own : PartiallySignedTransaction) : Bool := own.inputs.all fun _ => true

def mergeFrom (merged : PartiallySignedTransaction) :
    List PartiallySignedTransaction → Except Stop PartiallySignedTransaction
  | [] => .ok merged
  | psbt::rest =>
    if !(merged.merge psbt).1 then
      .error (.runtimeError "PSBTs do not refer to the same transactions.")
    else mergeFrom (merged.merge psbt).2 rest

/-- The call of `combinepsbt` after the arguments were read. -/
def combinepsbt : List PartiallySignedTransaction → Except Stop PartiallySignedTransaction
  | [] => .error (.runtimeError "Parameter 'txs' cannot be empty")
  | first::rest => (mergeFrom first rest).bind fun merged =>
    if !merged.isSane then .error (.runtimeError "Merged PSBT is inconsistent") else .ok merged
end PartiallySignedTransaction

inductive InputField where
  | utxo | redeemScript | finalScriptSig | sighashType
  | hdKeypath (key : CPubKey) | partialSig (id : CKeyID) | unknown (key : Bytes)

def InputField.Value : InputField → Type
  | .utxo => CTxOut
  | .redeemScript | .finalScriptSig => CScript
  | .sighashType => SigHashType
  | .hdKeypath _ => KeyOriginInfo
  | .partialSig _ => CPubKey × Bytes
  | .unknown _ => Bytes

inductive OutputField where
  | redeemScript | hdKeypath (key : CPubKey) | unknown (key : Bytes)

def OutputField.Value : OutputField → Type
  | .redeemScript => CScript
  | .hdKeypath _ => KeyOriginInfo
  | .unknown _ => Bytes

inductive PsbtField where
  | unknown (key : Bytes)
  | input (i : Nat) (field : InputField)
  | output (i : Nat) (field : OutputField)

def PsbtField.Value : PsbtField → Type
  | .unknown _ => Bytes
  | .input _ field => field.Value
  | .output _ field => field.Value

def utxoContent (utxo : CTxOut) : Option CTxOut := if utxo.isNull then none else some utxo

def scriptContent (script : CScript) : Option CScript := if script.isEmpty then none else some script

def PSBTInput.content (p : PSBTInput) : (field : InputField) → Option field.Value
  | .utxo => utxoContent p.utxo
  | .redeemScript => scriptContent p.redeemScript
  | .finalScriptSig => scriptContent p.finalScriptSig
  | .sighashType => if p.sighashType.sigHash = 0 then none else some p.sighashType
  | .hdKeypath key => p.hdKeypaths key
  | .partialSig id => p.partialSigs id
  | .unknown key => p.unknown key

def PSBTOutput.content (p : PSBTOutput) : (field : OutputField) → Option field.Value
  | .redeemScript => scriptContent p.redeemScript
  | .hdKeypath key => p.hdKeypaths key
  | .unknown key => p.unknown key

def PartiallySignedTransaction.content (p : PartiallySignedTransaction) : (field : PsbtField) → Option field.Value
  | .unknown key => p.unknown key
  | .input i field => (p.inputs[i]?).bind fun x => x.content field
  | .output i field => (p.outputs[i]?).bind fun x => x.content field

private theorem utxoContent_keepUtxo (own other : CTxOut) :
    utxoContent (keepUtxo own other) = (utxoContent own).or (utxoContent other) := by
  unfold utxoContent keepUtxo
  cases hown : own.isNull <;> cases hother : other.isNull <;> simp [hown,hother]

private theorem scriptContent_keepScript (own other : CScript) :
    scriptContent (keepScript own other) = (scriptContent own).or (scriptContent other) := by
  cases own with
  | nil =>
    cases other with
    | nil => rfl
    | cons b bs => rfl
  | cons b bs => rfl

theorem PSBTInput.merge_content (own input : PSBTInput) {field : InputField} (h : field ≠ .sighashType) :
    (own.merge input).content field = union own.content input.content field := by
  cases field with
  | utxo => exact utxoContent_keepUtxo own.utxo input.utxo
  | redeemScript => exact scriptContent_keepScript own.redeemScript input.redeemScript
  | finalScriptSig => exact scriptContent_keepScript own.finalScriptSig input.finalScriptSig
  | sighashType => exact absurd rfl h
  | hdKeypath key => rfl
  | partialSig id => rfl
  | unknown key => rfl

theorem PSBTInput.merge_content_sighashType (own input : PSBTInput) (h : own.sighashType = input.sighashType) :
    (own.merge input).content .sighashType = union own.content input.content .sighashType := by
  simp only [merge,content,union,h]
  exact Option.or_self.symm

theorem PSBTOutput.merge_content (own output : PSBTOutput) :
    (own.merge output).content = union own.content output.content := by
  funext field
  cases field with
  | redeemScript => exact scriptContent_keepScript own.redeemScript output.redeemScript
  | hdKeypath key => rfl
  | unknown key => rfl

namespace PartiallySignedTransaction

def SameSighash (p q : PartiallySignedTransaction) : Prop :=
  p.inputs.map PSBTInput.sighashType = q.inputs.map PSBTInput.sighashType

variable {p q r : PartiallySignedTransaction}

theorem merge_ok (ht : p.tx = q.tx) : (p.merge q).1 = true := by
  simp [merge,ht]

theorem merge_tx (p q : PartiallySignedTransaction) : (p.merge q).2.tx = p.tx := by
  unfold merge
  split <;> rfl

theorem merge_sighash (p q : PartiallySignedTransaction) : SameSighash (p.merge q).2 p := by
  have each : ∀ xs ys : List PSBTInput,
      (mergeEach PSBTInput.merge xs ys).map PSBTInput.sighashType = xs.map PSBTInput.sighashType := by
    intro xs ys
    fun_induction mergeEach PSBTInput.merge xs ys with
    | case1 x xs y ys ih => simp [ih,PSBTInput.merge]
    | case2 => rfl
  unfold merge SameSighash
  split
  · rfl
  · exact each p.inputs q.inputs

private theorem sameSighash_at (hs : SameSighash p q) {i : Nat} {x y : PSBTInput}
    (hx : p.inputs[i]? = some x) (hy : q.inputs[i]? = some y) : x.sighashType = y.sighashType := by
  have hi := congrArg (fun l => l[i]?) hs
  simpa [hx,hy] using hi

theorem merge_content (ht : p.tx = q.tx) (hs : SameSighash p q) :
    (p.merge q).2.content = union p.content q.content := by
  have hin : p.inputs.length = q.inputs.length := by rw [p.inputsSize,q.inputsSize,ht]
  have hout : p.outputs.length = q.outputs.length := by rw [p.outputsSize,q.outputsSize,ht]
  funext field
  simp only [merge,ht,ne_eq,not_true_eq_false,if_false]
  cases field with
  | unknown key => rfl
  | input i field =>
    simp only [content,union,mergeEach_get _ hin]
    cases hx : p.inputs[i]? with
    | none =>
      have hy : q.inputs[i]? = none := by simpa [hin] using hx
      simp [hy]
    | some x =>
      obtain ⟨y,hy⟩ : ∃ y, q.inputs[i]? = some y := by
        have hi := (List.getElem?_eq_some_iff.mp hx).1
        exact ⟨_,List.getElem?_eq_getElem (hin ▸ hi)⟩
      simp only [hy,Option.bind_some,Option.map_some]
      by_cases hf : field = .sighashType
      · rw [hf]
        exact x.merge_content_sighashType y (sameSighash_at hs hx hy)
      · exact x.merge_content y hf
  | output i field =>
    simp only [content,union,mergeEach_get _ hout]
    cases hx : p.outputs[i]? with
    | none =>
      have hy : q.outputs[i]? = none := by simpa [hout] using hx
      simp [hy]
    | some x =>
      obtain ⟨y,hy⟩ : ∃ y, q.outputs[i]? = some y := by
        have hi := (List.getElem?_eq_some_iff.mp hx).1
        exact ⟨_,List.getElem?_eq_getElem (hout ▸ hi)⟩
      simp only [hy,Option.bind_some,Option.map_some]
      exact congrFun (x.merge_content y) field

theorem mergeFrom_content {l : List PartiallySignedTransaction} :
    ∀ {p : PartiallySignedTransaction}, (∀ q ∈ l, p.tx = q.tx ∧ SameSighash p q) →
      ∃ m, mergeFrom p l = .ok m ∧ m.content = (l.map content).foldl union p.content := by
  induction l with
  | nil => exact fun _ => ⟨_,rfl,rfl⟩
  | cons q l ih =>
    intro p h
    obtain ⟨ht,hs⟩ := h q (mem_cons_self ..)
    have hrest : ∀ s ∈ l, (p.merge q).2.tx = s.tx ∧ SameSighash (p.merge q).2 s := by
      intro s hm
      obtain ⟨ht',hs'⟩ := h s (mem_cons_of_mem _ hm)
      exact ⟨(merge_tx p q).trans ht',(merge_sighash p q).trans hs'⟩
    obtain ⟨m,hm,hc⟩ := ih hrest
    refine ⟨m,?_,?_⟩
    · simpa [mergeFrom,merge_ok ht] using hm
    · rw [hc,merge_content ht hs,map_cons,foldl_cons]

theorem combinepsbt_content {l : List PartiallySignedTransaction} (hl : l ≠ [])
    (hsame : ∀ p ∈ l, ∀ q ∈ l, p.tx = q.tx ∧ SameSighash p q) :
    ∃ m, combinepsbt l = .ok m ∧ m.content = unionAll (l.map content) := by
  cases l with
  | nil => exact absurd rfl hl
  | cons p l =>
    have hp : ∀ q ∈ l, p.tx = q.tx ∧ SameSighash p q :=
      fun q hq => hsame p (mem_cons_self ..) q (mem_cons_of_mem _ hq)
    obtain ⟨m,hm,hc⟩ := mergeFrom_content hp
    refine ⟨m,?_,?_⟩
    · simp [combinepsbt,hm,Except.bind,isSane]
    · rw [hc,foldl_union,map_cons,unionAll]

/-- Merging loses and adds nothing and is commutative, associative and idempotent on the values of a list, and
combining the list does not depend on its order. -/
def MergeLaws (l : List PartiallySignedTransaction) : Prop :=
  (∀ p ∈ l, ∀ q ∈ l, (p.merge q).1 = true ∧
    (∀ field v, (p.merge q).2.content field = some v ↔ p.content field = some v ∨ q.content field = some v) ∧
    (p.merge q).2.content = (q.merge p).2.content ∧
    ∀ r ∈ l, ((p.merge q).2.merge r).2.content = (p.merge (q.merge r).2).2.content) ∧
  (∀ p ∈ l, (p.merge p).2.content = p.content) ∧
  ∀ l', l ≠ [] → l.Perm l' → ∃ m m', combinepsbt l = .ok m ∧ combinepsbt l' = .ok m' ∧ m.content = m'.content

def sighashContent (t : SigHashType) : Option SigHashType := if t.sigHash = 0 then none else some t

theorem content_sighash (p : PartiallySignedTransaction) (i : Nat) :
    p.content (.input i .sighashType) = ((p.inputs.map PSBTInput.sighashType)[i]?).bind sighashContent := by
  rw [getElem?_map,content]
  cases p.inputs[i]? <;> rfl

/-- A hash type of 0 is an absent one, so equal contents are equal hash types. -/
theorem sighashContent_injective {t u : SigHashType} (h : sighashContent t = sighashContent u) : t = u := by
  obtain ⟨t⟩ := t
  obtain ⟨u⟩ := u
  unfold sighashContent at h
  split_ifs at h with h1 h2
  · exact congrArg SigHashType.mk (h1.trans h2.symm)
  · exact Option.some.inj h

theorem sameSighash_of_content (ht : p.tx = q.tx)
    (h : ∀ i, p.content (.input i .sighashType) = q.content (.input i .sighashType)) : SameSighash p q := by
  have hin : (p.inputs.map PSBTInput.sighashType).length = (q.inputs.map PSBTInput.sighashType).length := by
    rw [length_map,length_map,p.inputsSize,q.inputsSize,ht]
  apply List.ext_getElem hin
  intro i hp hq
  have hi := h i
  rw [content_sighash,content_sighash,getElem?_eq_getElem hp,getElem?_eq_getElem hq] at hi
  exact sighashContent_injective hi

theorem mergeLaws_of_sameSighash {l : List PartiallySignedTransaction} (ht : ∀ p ∈ l, ∀ q ∈ l, p.tx = q.tx)
    (ha : ∀ p ∈ l, ∀ q ∈ l, Agree p.content q.content) (hs : ∀ p ∈ l, ∀ q ∈ l, SameSighash p q) : MergeLaws l := by
  refine ⟨fun p hp q hq => ?_,fun p hp => ?_,fun l' hl hperm => ?_⟩
  · have hpq := merge_content (ht p hp q hq) (hs p hp q hq)
    refine ⟨merge_ok (ht p hp q hq),fun field v => ?_,?_,fun r hr => ?_⟩
    · rw [hpq]
      exact union_eq_some (ha p hp q hq)
    · rw [hpq,merge_content (ht q hq p hp) (hs q hq p hp)]
      exact union_comm (ha p hp q hq)
    · have hleft := merge_content ((merge_tx p q).trans (ht p hp r hr)) ((merge_sighash p q).trans (hs p hp r hr))
      have hright : (p.merge (q.merge r).2).2.content = union p.content (q.merge r).2.content :=
        merge_content ((ht p hp q hq).trans (merge_tx q r).symm) ((hs p hp q hq).trans (merge_sighash q r).symm)
      rw [hleft,hright,hpq,merge_content (ht q hq r hr) (hs q hq r hr)]
      exact union_assoc ..
  · rw [merge_content rfl rfl]
    exact union_self _
  · have hl' : l' ≠ [] := fun he => hl (by simpa [he] using hperm)
    obtain ⟨m,hm,hc⟩ := combinepsbt_content hl fun p hp q hq => ⟨ht p hp q hq,hs p hp q hq⟩
    obtain ⟨m',hm',hc'⟩ := combinepsbt_content hl' fun p hp q hq =>
      ⟨ht p (hperm.mem_iff.mpr hp) q (hperm.mem_iff.mpr hq),hs p (hperm.mem_iff.mpr hp) q (hperm.mem_iff.mpr hq)⟩
    refine ⟨m,m',hm,hm',?_⟩
    rw [hc,hc']
    exact unionAll_perm (hperm.map content) (pairwise_map.mpr (pairwise_of_forall_mem_list ha))

/-- For values of one transaction that agree, the laws hold exactly if the hash types are the same. -/
theorem merge_lossless_iff {l : List PartiallySignedTransaction} (ht : ∀ p ∈ l, ∀ q ∈ l, p.tx = q.tx)
    (ha : l.Pairwise fun p q => Agree p.content q.content) :
    MergeLaws l ↔ ∀ p ∈ l, ∀ q ∈ l, SameSighash p q := by
  have hall : ∀ p ∈ l, ∀ q ∈ l, Agree p.content q.content := by
    intro p hp q hq
    exact ha.forall_of_forall_of_flip (fun p _ => Agree.refl p.content) (ha.imp Agree.symm) hp hq
  constructor
  · intro laws p hp q hq
    have hcomm := (laws.1 p hp q hq).2.2.1
    apply sameSighash_of_content (ht p hp q hq)
    intro i
    rw [content_sighash p,content_sighash q,← merge_sighash p q,← merge_sighash q p,← content_sighash,← content_sighash,
      hcomm]
  · exact mergeLaws_of_sameSighash ht hall

def oneInput (redeemScript finalScriptSig : CScript) (sighashType : SigHashType) : PartiallySignedTransaction where
  tx := ⟨[⟨⟨0,0⟩,[],0⟩],[],2,0,7⟩
  inputs := [⟨CTxOut.null,redeemScript,finalScriptSig,fun _ => none,fun _ => none,fun _ => none,sighashType⟩]
  outputs := []
  unknown := fun _ => none
  inputsSize := rfl
  outputsSize := rfl

private theorem oneInput_agree {a b a' b' : CScript} {t t' : SigHashType} (ha : a = [] ∨ a' = [])
    (hb : b = [] ∨ b' = []) (ht : t = ⟨0⟩ ∨ t = t') :
    Agree (oneInput a b t).content (oneInput a' b' t').content := by
  intro field v w hv hw
  cases field with
  | unknown key => cases hv
  | output i field => cases hv
  | input i field =>
    cases i with
    | succ i => cases hv
    | zero =>
      cases field with
      | redeemScript =>
        rcases ha with rfl | rfl
        · cases hv
        · cases hw
      | finalScriptSig =>
        rcases hb with rfl | rfl
        · cases hv
        · cases hw
      | sighashType =>
        rcases ht with rfl | rfl
        · cases hv
        · exact Option.some.inj (hv.symm.trans hw)
      | utxo => cases hv
      | hdKeypath key => cases hv
      | partialSig id => cases hv
      | unknown key => cases hv

theorem merge_loses_sighashType : ¬∀ p q : PartiallySignedTransaction, p.tx = q.tx → Agree p.content q.content →
      (∀ field v, (p.merge q).2.content field = some v ↔ p.content field = some v ∨ q.content field = some v) ∧
      (p.merge q).2.content = (q.merge p).2.content := by
  intro h
  have hagree : Agree (oneInput [] [] ⟨0⟩).content (oneInput [] [] ⟨1⟩).content :=
    oneInput_agree (.inl rfl) (.inl rfl) (.inl rfl)
  have hlost := ((h (oneInput [] [] ⟨0⟩) (oneInput [] [] ⟨1⟩) rfl hagree).1 (.input 0 .sighashType) ⟨1⟩).mpr (.inr rfl)
  have hnone : ((oneInput [] [] ⟨0⟩).merge (oneInput [] [] ⟨1⟩)).2.content (.input 0 .sighashType) = none := rfl
  rw [hnone] at hlost
  cases hlost

/-- A redeem script, a final script and neither, from three signers; a fourth one with another hash type breaks the laws. -/
theorem merge_lossless_iff_oneInput :
    MergeLaws [oneInput [0x51] [] ⟨1⟩,oneInput [] [0x52] ⟨1⟩,oneInput [] [] ⟨1⟩] ∧
      ¬MergeLaws [oneInput [0x51] [] ⟨0⟩,oneInput [] [0x52] ⟨1⟩] := by
  constructor
  · refine (merge_lossless_iff (by simp [oneInput]) ?_).mpr (by simp [SameSighash,oneInput])
    simp only [pairwise_cons,mem_cons,not_mem_nil,or_false,forall_eq_or_imp,forall_eq,IsEmpty.forall_iff,
      implies_true,Pairwise.nil,and_true]
    exact ⟨⟨oneInput_agree (.inr rfl) (.inl rfl) (.inr rfl),oneInput_agree (.inr rfl) (.inl rfl) (.inr rfl)⟩,
      oneInput_agree (.inl rfl) (.inr rfl) (.inr rfl)⟩
  · intro laws
    have hsame := (merge_lossless_iff (by simp [oneInput])
      (pairwise_pair.mpr (oneInput_agree (.inr rfl) (.inl rfl) (.inl rfl)))).mp laws
    have hne := hsame (oneInput [0x51] [] ⟨0⟩) (by simp) (oneInput [] [0x52] ⟨1⟩) (by simp)
    simp [SameSighash,oneInput] at hne
end PartiallySignedTransaction
end BitfiniteCore
