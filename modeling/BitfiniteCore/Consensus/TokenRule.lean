import BitfiniteCore.Consensus.TokenTallies
import BitfiniteCore.Lib.GreedyMatching

/-! # The token rule -/

namespace BitfiniteCore
open GreedyMatching Function List

/-- Which token transfers a transaction may make, over the coins its inputs spend. -/
structure TokenRule (tx : CTransaction) (accessCoin : COutPoint → Coin)
    (firstTokenEnabledBlockHeight : Int) : Prop where
  outputs_parse : ∀ o ∈ tx.vout, o.hasUnparseableTokenData = false
  inputs_parse : ∀ i ∈ tx.vin, (accessCoin i.prevout).out.hasUnparseableTokenData = false
  inputs_active : ∀ i ∈ tx.vin, (accessCoin i.prevout).out.tokenData.isSome = true →
    firstTokenEnabledBlockHeight ≤ (accessCoin i.prevout).getHeight
  inputs_data : ∀ d ∈ inputTokens accessCoin tx.vin, checkTokenData (some d) = .ok ()
  outputs_data : ∀ d ∈ outputTokens tx.vout, checkTokenData (some d) = .ok ()
  category : ∀ d ∈ outputTokens tx.vout,
    Xor (∃ t ∈ inputTokens accessCoin tx.vin, t.id = d.id) (GenesisId tx.vin d.id)
  input_amounts : ∀ id, amountOf id (inputTokens accessCoin tx.vin) ≤ int64Max
  output_amounts : ∀ id, ¬GenesisId tx.vin id →
    amountOf id (outputTokens tx.vout) ≤ amountOf id (inputTokens accessCoin tx.vin)
  genesis_amounts : ∀ id, GenesisId tx.vin id → amountOf id (outputTokens tx.vout) ≤ int64Max
  nfts : ∀ id, ¬GenesisId tx.vin id → mintingCount id (inputTokens accessCoin tx.vin) = 0 →
    mintingCount id (outputTokens tx.vout) = 0 ∧ mutableCount id (outputTokens tx.vout)+
        ∑ c ∈ (immutableCommitments id (outputTokens tx.vout)).toFinset,
          ((immutableCommitments id (outputTokens tx.vout)).count c-
            (immutableCommitments id (inputTokens accessCoin tx.vin)).count c) ≤
        mutableCount id (inputTokens accessCoin tx.vin)

section Outputs

/-- What an NFT output needs of the inputs of its category when none of them can mint. -/
private def demandOf (d : OutputData) : Demand NFTCommitment :=
  if d.isImmutableNFT then .exact d.commitment else if d.isMintingNFT then .never else .wild

private def demands (id : TokenId) (ts : List OutputData) : List (Demand NFTCommitment) :=
  (ts.filter fun d => d.id == id && d.hasNFT).map demandOf

variable {d : OutputData} {st' : TokenTallies} {ts : List OutputData}

private theorem demands_cons_self (hn : d.hasNFT = true) (ts : List OutputData) :
    demands d.id (d::ts) = demandOf d::demands d.id ts := by
  simp [demands,hn]

private theorem demands_cons_skip {id : TokenId} (h : d.id ≠ id ∨ d.hasNFT = false)
    (ts : List OutputData) : demands id (d::ts) = demands id ts := by
  rcases h with h | h <;> simp [demands,h]

private theorem spendNFT_frame {st : TokenTallies} (h : st.spendNFT d = .ok st') :
    st'.potentialGenesisIds = st.potentialGenesisIds ∧
    st'.inputAmountsByCategory = st.inputAmountsByCategory ∧
    st'.genesisAmountsByCategory = st.genesisAmountsByCategory ∧
    st'.inputMintingIds = st.inputMintingIds ∧
    ∀ id, id ≠ d.id → st'.inputImmutables id = st.inputImmutables id ∧
      st'.inputMutables id = st.inputMutables id := by
  unfold TokenTallies.spendNFT at h
  dsimp only at h
  split at h
  · cases h
    exact ⟨rfl,rfl,rfl,rfl,fun id hid => ⟨by simp [hid],rfl⟩⟩
  split at h
  · cases h
    exact ⟨rfl,rfl,rfl,rfl,fun id hid => ⟨rfl,by simp [hid]⟩⟩
  split at h
  · cases h
    exact ⟨rfl,rfl,rfl,rfl,fun id hid => ⟨rfl,rfl⟩⟩
  · cases h

private theorem spendNFT_serve (st : TokenTallies)
    (hm : st.inputMintingIds d.id = false) (ds : List (Demand NFTCommitment)) :
    serve (st.inputImmutables d.id) (st.inputMutables d.id) (demandOf d::ds) = true ↔
      ∃ st', st.spendNFT d = .ok st' ∧ serve (st'.inputImmutables d.id) (st'.inputMutables d.id) ds = true := by
  have hex : d.isImmutableNFT = true → d.isMintingNFT = false := by
    intro hi
    simp only [OutputData.isImmutableNFT,OutputData.isMintingNFT,Bool.and_eq_true,beq_iff_eq] at hi ⊢
    simp [hi.2,Capability.none,Capability.minting]
  unfold TokenTallies.spendNFT demandOf
  simp only [hm]
  cases hi : d.isImmutableNFT with
  | true =>
    simp only [hex hi,if_true,serve,Bool.true_and,Bool.not_false,decide_eq_true_eq]
    split
    · simp
    split
    · simp
    · simp [dos]
  | false =>
    cases hmint : d.isMintingNFT with
    | true => simp [serve,dos]
    | false =>
      simp only [Bool.false_eq_true,if_false,serve,Bool.false_and,Bool.not_false,Bool.true_and,decide_eq_true_eq]
      split
      · simp
      · simp [dos]

private theorem spendNFT_minting {st : TokenTallies}
    (hm : st.inputMintingIds d.id = true) : ∃ st', st.spendNFT d = .ok st' := by
  unfold TokenTallies.spendNFT
  dsimp only
  split
  · exact ⟨_,rfl⟩
  split
  · exact ⟨_,rfl⟩
  · exact ⟨st,rfl⟩

/-- Which output tokens the scan can still take from its tallies. -/
private structure OutputsOk (st : TokenTallies) (ts : List OutputData) : Prop where
  data : ∀ d ∈ ts, checkTokenData (some d) = .ok ()
  category : ∀ d ∈ ts, (st.inputAmountsByCategory d.id).isSome = true ↔ d.id ∉ st.potentialGenesisIds
  spent : ∀ id a, id ∉ st.potentialGenesisIds → st.inputAmountsByCategory id = some a → amountOf id ts ≤ a
  genesis : ∀ id, id ∈ st.potentialGenesisIds → st.genesisAmountsByCategory id+amountOf id ts ≤ int64Max
  nfts : ∀ id, id ∉ st.potentialGenesisIds → st.inputMintingIds id = false →
    serve (st.inputImmutables id) (st.inputMutables id) (demands id ts) = true

private def TalliesValid (st : TokenTallies) : Prop :=
  AmountsValid st ∧ ∀ id, 0 ≤ st.genesisAmountsByCategory id ∧ st.genesisAmountsByCategory id ≤ int64Max

private theorem amountOf_tail_le {id : TokenId}
    (hd : checkTokenData (some d) = .ok ()) : amountOf id ts ≤ amountOf id (d::ts) := by
  have h := (checkTokenData_ok hd).2
  rw [amountOf_cons]
  split <;> omega

private def credit (st : TokenTallies) (d : OutputData) (tally : Int) : TokenTallies :=
  { st with genesisAmountsByCategory := update st.genesisAmountsByCategory d.id tally }

private theorem spendToken_credit {st : TokenTallies} (hst : TalliesValid st)
    (hd : checkTokenData (some d) = .ok ()) (hA : st.inputAmountsByCategory d.id = none)
    (hG : d.id ∈ st.potentialGenesisIds) : st.spendToken d = .ok st' ↔
      st.genesisAmountsByCategory d.id+d.amount ≤ int64Max ∧
        credit st d (st.genesisAmountsByCategory d.id+d.amount) = st' := by
  have hnonneg := (checkTokenData_ok hd).2
  have hmin : int64Min < 0 := by norm_num [int64Min]
  have hg := (hst.2 d.id).1
  simp only [TokenTallies.spendToken,hd,hA,contains_eq_mem,hG,decide_true,Except.bind]
  by_cases hmax : st.genesisAmountsByCategory d.id+d.amount ≤ int64Max
  · simp only [safeAmount_ok.mpr ⟨rfl,show int64Min < st.genesisAmountsByCategory d.id+d.amount by omega,hmax⟩]
    rw [if_neg (by omega)]
    simp only [hmax,true_and,Except.ok.injEq]
    rfl
  · simp only [hmax,false_and,iff_false]
    cases hs : safeAmount (st.genesisAmountsByCategory d.id+d.amount) with
    | error e => simp
    | ok t => exact absurd (safeAmount_ok.mp hs).2.2 hmax

private theorem outputsOk_credit {st : TokenTallies}
    (hd : checkTokenData (some d) = .ok ()) (hA : st.inputAmountsByCategory d.id = none)
    (hG : d.id ∈ st.potentialGenesisIds) :
    OutputsOk st (d::ts) ↔ OutputsOk (credit st d (st.genesisAmountsByCategory d.id+d.amount)) ts := by
  have hskip : ∀ id, id ∉ st.potentialGenesisIds → d.id ≠ id := by
    rintro id hid rfl
    exact hid hG
  have hsum : ∀ id, (credit st d (st.genesisAmountsByCategory d.id+d.amount)).genesisAmountsByCategory id+
      amountOf id ts = st.genesisAmountsByCategory id+amountOf id (d::ts) := by
    intro id
    rw [amountOf_cons,credit]
    by_cases he : d.id = id
    · subst he
      simp only [update_self,if_true]
      omega
    · simp [he,Ne.symm he]
  constructor
  · intro h
    refine ⟨(forall_mem_cons.mp h.data).2,fun e he => h.category e (mem_cons_of_mem d he),
      ?_,fun id hid => (hsum id).trans_le (h.genesis id hid),?_⟩
    · exact fun id a hid ha => (amountOf_tail_le hd).trans (h.spent id a hid ha)
    · intro id hid hm
      rw [← demands_cons_skip (.inl (hskip id hid)) ts]
      exact h.nfts id hid hm
  · intro h
    refine ⟨forall_mem_cons.mpr ⟨hd,h.data⟩,forall_mem_cons.mpr ⟨by simp [hA,hG],h.category⟩,
      ?_,fun id hid => (hsum id).symm.trans_le (h.genesis id hid),?_⟩
    · intro id a hid ha
      rw [amountOf_cons,if_neg (hskip id hid),zero_add]
      exact h.spent id a hid ha
    · intro id hid hm
      rw [demands_cons_skip (.inl (hskip id hid)) ts]
      exact h.nfts id hid hm

private structure Debited (st : TokenTallies) (d : OutputData) (tally : Int) (st' : TokenTallies) : Prop where
  ids : st'.potentialGenesisIds = st.potentialGenesisIds
  amounts : st'.inputAmountsByCategory = update st.inputAmountsByCategory d.id (some tally)
  genesis : st'.genesisAmountsByCategory = st.genesisAmountsByCategory
  minting : st'.inputMintingIds = st.inputMintingIds
  others : ∀ id, id ≠ d.id → st'.inputImmutables id = st.inputImmutables id ∧
    st'.inputMutables id = st.inputMutables id

private theorem outputsOk_debited {st : TokenTallies}
    {a : Int} (hd : checkTokenData (some d) = .ok ()) (hA : st.inputAmountsByCategory d.id = some a)
    (hG : d.id ∉ st.potentialGenesisIds) (hdeb : Debited st d (a-d.amount) st')
    (hserve : st.inputMintingIds d.id = false →
      (serve (st.inputImmutables d.id) (st.inputMutables d.id) (demands d.id (d::ts)) = true ↔
        serve (st'.inputImmutables d.id) (st'.inputMutables d.id) (demands d.id ts) = true)) :
    OutputsOk st (d::ts) ↔ OutputsOk st' ts := by
  obtain ⟨hids,hamt,hgen,hmint,hoth⟩ := hdeb
  have hsome : ∀ id, (st'.inputAmountsByCategory id).isSome = (st.inputAmountsByCategory id).isSome := by
    intro id
    rw [hamt]
    by_cases hid : id = d.id
    · subst hid
      simp [hA]
    · simp [hid]
  have hskip : ∀ id, id ∈ st.potentialGenesisIds → d.id ≠ id := by
    rintro id hid rfl
    exact hG hid
  constructor
  · intro h
    refine ⟨(forall_mem_cons.mp h.data).2,?_,?_,?_,?_⟩
    · intro e he
      rw [hsome,hids]
      exact h.category e (mem_cons_of_mem d he)
    · intro id b hid hb
      rw [hids] at hid
      rw [hamt] at hb
      by_cases he : id = d.id
      · subst he
        have hle := h.spent _ a hid hA
        rw [amountOf_cons,if_pos rfl] at hle
        simp only [update_self,Option.some.injEq] at hb
        omega
      · rw [update_of_ne he] at hb
        exact (amountOf_tail_le hd).trans (h.spent id b hid hb)
    · intro id hid
      rw [hids] at hid
      have hle := h.genesis id hid
      rw [amountOf_cons,if_neg (hskip id hid)] at hle
      rw [hgen]
      omega
    · intro id hid hm
      rw [hids] at hid
      rw [hmint] at hm
      by_cases he : id = d.id
      · subst he
        exact (hserve hm).mp (h.nfts _ hid hm)
      · rw [(hoth id he).1,(hoth id he).2,← demands_cons_skip (.inl (Ne.symm he)) ts]
        exact h.nfts id hid hm
  · intro h
    refine ⟨forall_mem_cons.mpr ⟨hd,h.data⟩,forall_mem_cons.mpr ⟨by simp [hA,hG],?_⟩,?_,?_,?_⟩
    · intro e he
      rw [← hsome,← hids]
      exact h.category e he
    · intro id b hid hb
      rw [← hids] at hid
      rw [amountOf_cons]
      by_cases he : d.id = id
      · subst he
        cases hA.symm.trans hb
        have hle := h.spent d.id (a-d.amount) hid (by rw [hamt,update_self])
        rw [if_pos rfl]
        omega
      · rw [if_neg he,zero_add]
        exact h.spent id b hid (by rw [hamt,update_of_ne (Ne.symm he)]; exact hb)
    · intro id hid
      rw [amountOf_cons,if_neg (hskip id hid),zero_add,← hgen]
      exact h.genesis id (by rw [hids]; exact hid)
    · intro id hid hm
      rw [← hids] at hid
      by_cases he : id = d.id
      · subst he
        exact (hserve hm).mpr (h.nfts _ hid (by rw [hmint]; exact hm))
      · rw [demands_cons_skip (.inl (Ne.symm he)) ts,← (hoth id he).1,← (hoth id he).2]
        exact h.nfts id hid (by rw [hmint]; exact hm)

private def debit (st : TokenTallies) (d : OutputData) (tally : Int) : TokenTallies :=
  { st with inputAmountsByCategory := update st.inputAmountsByCategory d.id (some tally) }

private theorem spendToken_debit {st : TokenTallies} {a : Int}
    (hst : TalliesValid st) (hd : checkTokenData (some d) = .ok ())
    (hA : st.inputAmountsByCategory d.id = some a) (hG : d.id ∉ st.potentialGenesisIds) : st.spendToken d = .ok st' ↔ d.amount ≤ a ∧
      (if d.hasNFT then (debit st d (a-d.amount)).spendNFT d else .ok (debit st d (a-d.amount))) = .ok st' := by
  have hnonneg := (checkTokenData_ok hd).2
  have hmin : int64Min < 0 := by norm_num [int64Min]
  have ha := hst.1 d.id a hA
  simp only [TokenTallies.spendToken,hd,hA,contains_eq_mem,hG,decide_false,Except.bind]
  by_cases hle : d.amount ≤ a
  · simp only [safeAmount_ok.mpr ⟨rfl,show int64Min < a-d.amount by omega,show a-d.amount ≤ int64Max by omega⟩]
    rw [if_neg (by omega)]
    simp only [hle,true_and]
    rfl
  · simp only [hle,false_and,iff_false]
    cases hs : safeAmount (a-d.amount) with
    | error e => simp
    | ok t =>
      obtain ⟨rfl,-⟩ := safeAmount_ok.mp hs
      simp only
      rw [if_pos (by omega)]
      simp [dos]

private theorem spendToken_debited {st : TokenTallies} {a : Int}
    (h : (if d.hasNFT then (debit st d (a-d.amount)).spendNFT d else .ok (debit st d (a-d.amount))) =
        .ok st') (ts : List OutputData) :
    Debited st d (a-d.amount) st' ∧ (st.inputMintingIds d.id = false →
      (serve (st.inputImmutables d.id) (st.inputMutables d.id) (demands d.id (d::ts)) = true ↔
        serve (st'.inputImmutables d.id) (st'.inputMutables d.id) (demands d.id ts) = true)) := by
  cases hn : d.hasNFT with
  | false =>
    rw [hn,if_neg (by simp)] at h
    cases h
    refine ⟨⟨rfl,rfl,rfl,rfl,fun id _ => ⟨rfl,rfl⟩⟩,fun _ => ?_⟩
    rw [demands_cons_skip (.inr hn)]
    rfl
  | true =>
    rw [hn,if_pos rfl] at h
    obtain ⟨h1,h2,h3,h4,h5⟩ := spendNFT_frame h
    refine ⟨⟨h1,h2,h3,h4,h5⟩,fun hm => ?_⟩
    rw [demands_cons_self hn]
    refine (spendNFT_serve (debit st d (a-d.amount)) hm _).trans ⟨?_,fun hs => ⟨st',h,hs⟩⟩
    rintro ⟨st2,h2',hs⟩
    cases h2'.symm.trans h
    exact hs

private theorem spendToken_valid {st : TokenTallies} (hst : TalliesValid st)
    (h : st.spendToken d = .ok st') : TalliesValid st' := by
  obtain ⟨⟨⟩,hd,-⟩ := except_bind_ok.mp h
  have hnonneg := (checkTokenData_ok hd).2
  by_cases hG : d.id ∈ st.potentialGenesisIds
  · cases hA : st.inputAmountsByCategory d.id with
    | some a => simp [TokenTallies.spendToken,hd,hA,hG,Except.bind,dos] at h
    | none =>
      obtain ⟨hmax,rfl⟩ := (spendToken_credit hst hd hA hG).mp h
      refine ⟨hst.1,fun id => ?_⟩
      have hg := hst.2 id
      by_cases hid : id = d.id
      · subst hid
        simp only [credit,update_self]
        omega
      · simpa [credit,hid] using hg
  · cases hA : st.inputAmountsByCategory d.id with
    | none => simp [TokenTallies.spendToken,hd,hA,hG,Except.bind,dos] at h
    | some a =>
      obtain ⟨hle,h⟩ := (spendToken_debit hst hd hA hG).mp h
      have hdeb := (spendToken_debited h []).1
      have ha := hst.1 d.id a hA
      refine ⟨fun id b hb => ?_,by rw [hdeb.genesis]; exact hst.2⟩
      rw [hdeb.amounts] at hb
      by_cases hid : id = d.id
      · subst hid
        simp only [update_self,Option.some.injEq] at hb
        omega
      · rw [update_of_ne hid] at hb
        exact hst.1 id b hb

private theorem spendToken_spent {st : TokenTallies} {a : Int}
    (hst : TalliesValid st) (hd : checkTokenData (some d) = .ok ())
    (hA : st.inputAmountsByCategory d.id = some a) (hG : d.id ∉ st.potentialGenesisIds) :
    OutputsOk st (d::ts) ↔ ∃ st', st.spendToken d = .ok st' ∧ OutputsOk st' ts := by
  constructor
  · intro h
    have hrest := amountOf_nonneg (forall_mem_cons.mp h.data).2 d.id
    have hle := h.spent d.id a hG hA
    rw [amountOf_cons,if_pos rfl] at hle
    have hstep : ∃ st', (if d.hasNFT then (debit st d (a-d.amount)).spendNFT d
        else .ok (debit st d (a-d.amount))) = .ok st' := by
      cases hn : d.hasNFT with
      | false => exact ⟨_,rfl⟩
      | true =>
        rw [if_pos rfl]
        cases hm : st.inputMintingIds d.id with
        | true => exact spendNFT_minting hm
        | false =>
          have hs := h.nfts d.id hG hm
          rw [demands_cons_self hn] at hs
          obtain ⟨st',hst',-⟩ := (spendNFT_serve (debit st d (a-d.amount)) hm _).mp hs
          exact ⟨st',hst'⟩
    obtain ⟨st',hst'⟩ := hstep
    obtain ⟨hdeb,hserve⟩ := spendToken_debited hst' ts
    exact ⟨st',(spendToken_debit hst hd hA hG).mpr ⟨by omega,hst'⟩,(outputsOk_debited hd hA hG hdeb hserve).mp h⟩
  · rintro ⟨st',hst',h⟩
    obtain ⟨-,hst'⟩ := (spendToken_debit hst hd hA hG).mp hst'
    obtain ⟨hdeb,hserve⟩ := spendToken_debited hst' ts
    exact (outputsOk_debited hd hA hG hdeb hserve).mpr h

private theorem spendToken_genesis {st : TokenTallies} (hst : TalliesValid st) (hd : checkTokenData (some d) = .ok ())
    (hA : st.inputAmountsByCategory d.id = none) (hG : d.id ∈ st.potentialGenesisIds) :
    OutputsOk st (d::ts) ↔ ∃ st', st.spendToken d = .ok st' ∧ OutputsOk st' ts := by
  constructor
  · intro h
    have hrest := amountOf_nonneg (forall_mem_cons.mp h.data).2 d.id
    have hsum := h.genesis d.id hG
    rw [amountOf_cons,if_pos rfl] at hsum
    exact ⟨_,(spendToken_credit hst hd hA hG).mpr ⟨by omega,rfl⟩,(outputsOk_credit hd hA hG).mp h⟩
  · rintro ⟨st',hst',h⟩
    obtain ⟨-,rfl⟩ := (spendToken_credit hst hd hA hG).mp hst'
    exact (outputsOk_credit hd hA hG).mpr h

private theorem spendToken_step {st : TokenTallies} (d : OutputData) (ts : List OutputData) (hst : TalliesValid st) :
    OutputsOk st (d::ts) ↔ ∃ st', st.spendToken d = .ok st' ∧ OutputsOk st' ts := by
  by_cases hd : checkTokenData (some d) = .ok ()
  · by_cases hG : d.id ∈ st.potentialGenesisIds
    · cases hA : st.inputAmountsByCategory d.id with
      | none => exact spendToken_genesis hst hd hA hG
      | some a =>
        constructor
        · intro h
          exact absurd hG ((h.category d mem_cons_self).mp (by simp [hA]))
        · rintro ⟨st',h,-⟩
          simp [TokenTallies.spendToken,hd,hA,hG,Except.bind,dos] at h
    · cases hA : st.inputAmountsByCategory d.id with
      | none =>
        constructor
        · intro h
          have hs := (h.category d mem_cons_self).mpr hG
          simp [hA] at hs
        · rintro ⟨st',h,-⟩
          simp [TokenTallies.spendToken,hd,hA,hG,Except.bind,dos] at h
      | some a => exact spendToken_spent hst hd hA hG
  · constructor
    · exact fun h => absurd (h.data d mem_cons_self) hd
    · rintro ⟨st',h,-⟩
      obtain ⟨⟨⟩,hc,-⟩ := except_bind_ok.mp h
      exact absurd hc hd

private theorem scanOutputs_iff (vout : List CTxOut) {st : TokenTallies} (hst : TalliesValid st) :
    scanOutputs st vout = .ok () ↔ OutputsOk st (outputTokens vout) := by
  induction vout generalizing st with
  | nil =>
    simp only [scanOutputs,true_iff]
    refine ⟨by simp [outputTokens],by simp [outputTokens],fun id a _ ha => (hst.1 id a ha).1,?_,?_⟩
    · intro id _
      have h := (hst.2 id).2
      simpa [outputTokens,amountOf] using h
    · intro id _ _
      simp [outputTokens,demands,serve]
  | cons o vout ih =>
    rw [scanOutputs]
    cases ho : o.tokenData with
    | none =>
      rw [show outputTokens (o::vout) = outputTokens vout by simp [outputTokens,ho]]
      exact ih hst
    | some d =>
      rw [show outputTokens (o::vout) = d::outputTokens vout by simp [outputTokens,ho],spendToken_step d _ hst]
      rw [except_bind_ok]
      constructor
      · rintro ⟨st',h,hrest⟩
        exact ⟨st',h,(ih (spendToken_valid hst h)).mp hrest⟩
      · rintro ⟨st',h,hrest⟩
        exact ⟨st',h,(ih (spendToken_valid hst h)).mpr hrest⟩

private theorem demands_counts (id : TokenId) (ts : List OutputData)
    (h : ∀ d ∈ ts, checkTokenData (some d) = .ok ()) :
    (Demand.never ∉ demands id ts ↔ mintingCount id ts = 0) ∧
    (demands id ts).count .wild = mutableCount id ts ∧
    exacts (demands id ts) = immutableCommitments id ts := by
  induction ts with
  | nil => simp [demands,mintingCount,mutableCount,immutableCommitments,exacts]
  | cons d ts ih =>
    obtain ⟨hd,hts⟩ := forall_mem_cons.mp h
    obtain ⟨h1,h2,h3⟩ := ih hts
    have hv := (checkTokenData_ok hd).1
    by_cases hid : d.id = id
    · subst hid
      cases hn : d.hasNFT with
      | false =>
        obtain ⟨hi,hm,hmint⟩ := nft_none hn
        rw [demands_cons_skip (.inr hn)]
        refine ⟨?_,?_,?_⟩
        · simpa [mintingCount,hmint] using h1
        · simpa [mutableCount,hm] using h2
        · simpa [immutableCommitments,hi] using h3
      | true =>
        rw [demands_cons_self hn]
        rcases nft_cases hv hn with ⟨hi,hm,hmint⟩ | ⟨hi,hm,hmint⟩ | ⟨hi,hm,hmint⟩
        · rw [show demandOf d = .exact d.commitment by simp [demandOf,hi]]
          refine ⟨?_,?_,?_⟩
          · simpa [mintingCount,hmint] using h1
          · simpa [mutableCount,hm] using h2
          · simpa [immutableCommitments,hi,exacts] using h3
        · rw [show demandOf d = .wild by simp [demandOf,hi,hmint]]
          refine ⟨?_,?_,?_⟩
          · simpa [mintingCount,hmint] using h1
          · simpa [mutableCount,hm] using h2
          · simpa [immutableCommitments,hi,exacts] using h3
        · rw [show demandOf d = .never by simp [demandOf,hi,hmint]]
          refine ⟨?_,?_,?_⟩
          · simp [mintingCount,hmint]
          · simpa [mutableCount,hm] using h2
          · simpa [immutableCommitments,hi,exacts] using h3
    · rw [demands_cons_skip (.inl hid)]
      refine ⟨?_,?_,?_⟩
      · simpa [mintingCount,hid] using h1
      · simpa [mutableCount,hid] using h2
      · simpa [immutableCommitments,hid] using h3
end Outputs

private theorem empty_valid : AmountsValid TokenTallies.empty := by
  intro id a ha
  cases ha

private theorem not_unparseable_iff (tx : CTransaction) : tx.hasOutputsWithUnparseableTokenData = false ↔
      ∀ o ∈ tx.vout, o.hasUnparseableTokenData = false := by
  simp [CTransaction.hasOutputsWithUnparseableTokenData]

section Rule

variable {tx : CTransaction} {accessCoin : COutPoint → Coin} {first : Int} {st : TokenTallies}

private theorem outputsOk_iff {vin : List CTxIn} {ins outs : List OutputData}
    (hin : ∀ d ∈ ins, checkTokenData (some d) = .ok ()) (htal : Tallied TokenTallies.empty ins st)
    (hids : ∀ id, id ∈ st.potentialGenesisIds ↔ GenesisId vin id) :
    OutputsOk st outs ↔
    (∀ d ∈ outs, checkTokenData (some d) = .ok ()) ∧
    (∀ d ∈ outs, Xor (∃ t ∈ ins, t.id = d.id) (GenesisId vin d.id)) ∧
    (∀ id, ¬GenesisId vin id → amountOf id outs ≤ amountOf id ins) ∧
    (∀ id, GenesisId vin id → amountOf id outs ≤ int64Max) ∧
    ∀ id, ¬GenesisId vin id → mintingCount id ins = 0 → mintingCount id outs = 0 ∧ mutableCount id outs+
        ∑ c ∈ (immutableCommitments id outs).toFinset, ((immutableCommitments id outs).count c-
            (immutableCommitments id ins).count c) ≤
        mutableCount id ins := by
  have hamt : ∀ id, st.inputAmountsByCategory id = if ins.any (fun d => d.id == id) then
        some (amountOf id ins) else none := by
    intro id
    rw [htal.amounts]
    simp [TokenTallies.empty]
  have hsome : ∀ id, (st.inputAmountsByCategory id).isSome = true ↔ ∃ t ∈ ins, t.id = id := by
    intro id
    rw [hamt]
    split
    · rename_i h
      simpa using h
    · rename_i h
      simpa using h
  have hgen : ∀ id, st.genesisAmountsByCategory id = 0 := by
    intro id
    rw [htal.genesisAmounts]
    rfl
  have hmint : ∀ id, st.inputMintingIds id = false ↔ mintingCount id ins = 0 := by
    intro id
    rw [htal.minting]
    simp [TokenTallies.empty]
  have hserve : (∀ d ∈ outs, checkTokenData (some d) = .ok ()) → ∀ id,
      (serve (st.inputImmutables id) (st.inputMutables id) (demands id outs) = true ↔ mintingCount id outs = 0 ∧
        mutableCount id outs+ ∑ c ∈ (immutableCommitments id outs).toFinset, ((immutableCommitments id outs).count c-
              (immutableCommitments id ins).count c) ≤
          mutableCount id ins) := by
    intro hdata id
    obtain ⟨h1,h2,h3⟩ := demands_counts id _ hdata
    have himm : st.inputImmutables id = fun c => (immutableCommitments id ins).count c := by
      funext c
      rw [htal.immutables]
      simp [TokenTallies.empty]
    have hmut : st.inputMutables id = mutableCount id ins := by
      rw [htal.mutables]
      simp [TokenTallies.empty]
    rw [serve_iff,h1,h2,h3,himm,hmut,shortfall]
    convert Iff.rfl
  constructor
  · intro h
    refine ⟨h.data,?_,?_,?_,?_⟩
    · intro d hd
      have hc := h.category d hd
      rw [hsome,hids] at hc
      exact xor_iff_iff_not.mpr hc
    · intro id hid
      by_cases ha : ∃ t ∈ ins, t.id = id
      · refine h.spent id _ (by rw [hids]; exact hid) ?_
        rw [hamt,if_pos (by simpa using ha)]
      · have hz : amountOf id outs = 0 := by
          apply amountOf_eq_zero
          rintro d hd rfl
          have hc := h.category d hd
          rw [hsome,hids] at hc
          exact ha (hc.mpr hid)
        rw [hz]
        exact amountOf_nonneg hin id
    · intro id hid
      have hg := h.genesis id (by rw [hids]; exact hid)
      rw [hgen,zero_add] at hg
      exact hg
    · intro id hid hm
      exact (hserve h.data id).mp (h.nfts id (by rw [hids]; exact hid) ((hmint id).mpr hm))
  · rintro ⟨hdata,hcat,hspent,hgenesis,hnfts⟩
    refine ⟨hdata,?_,?_,?_,?_⟩
    · intro d hd
      rw [hsome,hids]
      exact xor_iff_iff_not.mp (hcat d hd)
    · intro id a hid ha
      rw [hids] at hid
      have hs : (st.inputAmountsByCategory id).isSome = true := by simp [ha]
      rw [hamt,if_pos (by simpa using (hsome id).mp hs)] at ha
      rw [← Option.some.inj ha]
      exact hspent id hid
    · intro id hid
      rw [hids] at hid
      rw [hgen,zero_add]
      exact hgenesis id hid
    · intro id hid hm
      rw [hids] at hid
      exact (hserve hdata id).mpr (hnfts id hid ((hmint id).mp hm))

theorem checkTxTokens_rule {scriptFlags : UInt32}
    (hflags : scriptFlags &&& scriptEnableTokens ≠ 0) (hcb : tx.isCoinBase = false)
    (hnd : (tx.vin.map CTxIn.prevout).Nodup)
    (hunspent : ∀ i ∈ tx.vin, (accessCoin i.prevout).isSpent = false) :
    checkTxTokens tx accessCoin scriptFlags first = .ok () ↔ TokenRule tx accessCoin first := by
  have hvalid : ∀ st, AmountsValid st →
      Tallied TokenTallies.empty (inputTokens accessCoin tx.vin) st → TalliesValid st := by
    intro st hst htal
    refine ⟨hst,fun id => ?_⟩
    rw [htal.genesisAmounts]
    exact ⟨le_refl _,by norm_num [TokenTallies.empty,int64Max]⟩
  have hmem : ∀ st : TokenTallies, (∀ id, id ∈ st.potentialGenesisIds ↔
      id ∈ TokenTallies.empty.potentialGenesisIds ∨ GenesisId tx.vin id) →
      ∀ id, id ∈ st.potentialGenesisIds ↔ GenesisId tx.vin id := by
    intro st h id
    rw [h]
    simp [TokenTallies.empty]
  unfold checkTxTokens
  rw [if_neg (by simpa using hflags)]
  constructor
  · intro h
    split at h
    · cases h
    rename_i hparse
    rw [if_neg (by simp [hcb]),except_bind_ok] at h
    obtain ⟨st,hscan,hout⟩ := h
    obtain ⟨hin,hdata,hst,htal,hids⟩ := scanInputs_ok tx.vin empty_valid hscan
    obtain ⟨h1,h2,h3,h4,h5⟩ := (outputsOk_iff hdata htal (hmem st hids)).mp
      ((scanOutputs_iff tx.vout (hvalid st hst htal)).mp hout)
    refine ⟨(not_unparseable_iff tx).mp (by simpa using hparse),fun i hi => (hin i hi).parse,
      fun i hi => (hin i hi).active,hdata,h1,h2,?_,h3,h4,h5⟩
    intro id
    have ha := htal.amounts id
    by_cases hany : (inputTokens accessCoin tx.vin).any (fun d => d.id == id) = true
    · rw [if_pos hany] at ha
      have hle := (hst id _ ha).2
      simpa [TokenTallies.empty] using hle
    · rw [amountOf_eq_zero (by simpa using hany)]
      norm_num [int64Max]
  · intro h
    rw [if_neg (by rw [Bool.not_eq_true]; exact (not_unparseable_iff tx).mpr h.outputs_parse),
      if_neg (by simp [hcb]),except_bind_ok]
    obtain ⟨st,hscan⟩ := scanInputs_exists accessCoin first tx.vin empty_valid
      (fun i hi => ⟨hunspent i hi,h.inputs_parse i hi,h.inputs_active i hi⟩) h.inputs_data
      (genesisTxIds_nodup hnd) (by simp [TokenTallies.empty])
      (fun id => by simpa [TokenTallies.empty] using h.input_amounts id)
    obtain ⟨-,hdata,hst,htal,hids⟩ := scanInputs_ok tx.vin empty_valid hscan
    refine ⟨st,hscan,(scanOutputs_iff tx.vout (hvalid st hst htal)).mpr ?_⟩
    exact (outputsOk_iff hdata htal (hmem st hids)).mpr
      ⟨h.outputs_data,h.category,h.output_amounts,h.genesis_amounts,h.nfts⟩

private theorem amountOf_perm {ts us : List OutputData} (h : ts.Perm us) (id : TokenId) :
    amountOf id ts = amountOf id us :=
  ((h.filter _).map _).sum_eq

private theorem immutableCommitments_perm {ts us : List OutputData} (h : ts.Perm us) (id : TokenId) :
    (immutableCommitments id ts).Perm (immutableCommitments id us) :=
  (h.filter _).map _

private theorem TokenRule.perm {tx' : CTransaction} (hin : tx'.vin.Perm tx.vin)
    (hout : tx'.vout.Perm tx.vout) (h : TokenRule tx accessCoin first) :
    TokenRule tx' accessCoin first := by
  have hit : (inputTokens accessCoin tx'.vin).Perm (inputTokens accessCoin tx.vin) :=
    hin.filterMap _
  have hot : (outputTokens tx'.vout).Perm (outputTokens tx.vout) := hout.filterMap _
  have hgen : ∀ id, GenesisId tx'.vin id ↔ GenesisId tx.vin id := by
    intro id
    simp only [GenesisId,hin.mem_iff]
  refine ⟨fun o ho => h.outputs_parse o (hout.mem_iff.mp ho),fun i hi => h.inputs_parse i (hin.mem_iff.mp hi),
    fun i hi => h.inputs_active i (hin.mem_iff.mp hi),
    fun d hd => h.inputs_data d (hit.mem_iff.mp hd),
    fun d hd => h.outputs_data d (hot.mem_iff.mp hd),?_,?_,?_,?_,?_⟩
  · intro d hd
    have hc := h.category d (hot.mem_iff.mp hd)
    simp only [hit.mem_iff,hgen]
    exact hc
  · intro id
    rw [amountOf_perm hit]
    exact h.input_amounts id
  · intro id hid
    rw [hgen] at hid
    rw [amountOf_perm hit,amountOf_perm hot]
    exact h.output_amounts id hid
  · intro id hid
    rw [hgen] at hid
    rw [amountOf_perm hot]
    exact h.genesis_amounts id hid
  · intro id hid hm
    rw [hgen] at hid
    simp only [mintingCount,mutableCount,hit.countP_eq,hot.countP_eq,
      toFinset_eq_of_perm _ _ (immutableCommitments_perm hot id),
      (immutableCommitments_perm hot id).count_eq,(immutableCommitments_perm hit id).count_eq] at hm ⊢
    exact h.nfts id hid hm

private theorem isCoinBase_perm {tx' : CTransaction} (hin : tx'.vin.Perm tx.vin)
    (hcb : tx.isCoinBase = false) : tx'.isCoinBase = false := by
  by_contra h
  rw [Bool.not_eq_false] at h
  unfold CTransaction.isCoinBase at h hcb
  split at h
  · rename_i i hi
    rw [hi] at hin
    rw [← singleton_perm.mp hin] at hcb
    exact Bool.noConfusion (h.symm.trans hcb)
  · cases h
end Rule

/-- `CheckTxTokens` accepts exactly what the token rule allows, in any order of inputs and outputs. -/
theorem checkTxTokens_iff_rule (tx : CTransaction) (accessCoin : COutPoint → Coin)
    (scriptFlags : UInt32) (first : Int) (hflags : scriptFlags &&& scriptEnableTokens ≠ 0)
    (hcb : tx.isCoinBase = false) (hnd : (tx.vin.map CTxIn.prevout).Nodup)
    (hunspent : ∀ i ∈ tx.vin, (accessCoin i.prevout).isSpent = false) :
    (checkTxTokens tx accessCoin scriptFlags first = .ok () ↔ TokenRule tx accessCoin first) ∧
    ∀ tx' : CTransaction, tx'.vin.Perm tx.vin → tx'.vout.Perm tx.vout →
      (checkTxTokens tx' accessCoin scriptFlags first = .ok () ↔
        checkTxTokens tx accessCoin scriptFlags first = .ok ()) := by
  refine ⟨checkTxTokens_rule hflags hcb hnd hunspent,fun tx' hin hout => ?_⟩
  rw [checkTxTokens_rule hflags hcb hnd hunspent,
    checkTxTokens_rule hflags (isCoinBase_perm hin hcb) (((hin.map _).nodup_iff).mpr hnd)
      fun i hi => hunspent i (hin.mem_iff.mp hi)]
  exact ⟨TokenRule.perm hin.symm hout.symm,TokenRule.perm hin hout⟩

private def sampleTokenOut (bitfield : UInt8) (commitment : NFTCommitment) : CTxOut :=
  ⟨1000,[0x51],some ⟨7,bitfield,0,commitment⟩⟩

private def sampleTokenCoins (x : COutPoint) : Coin :=
  Coin.ofOutput (if x.n = 1 then sampleTokenOut 0x60 [1] else sampleTokenOut 0x21 []) 9 false

private def sampleTokenTx : CTransaction :=
  ⟨[⟨⟨5,1⟩,[],0⟩,⟨⟨5,2⟩,[],0⟩],[sampleTokenOut 0x60 [2],sampleTokenOut 0x60 [1]],2,0,6⟩

theorem checkTxTokens_iff_rule_sample : TokenRule sampleTokenTx sampleTokenCoins 3 ∧
      checkTxTokens { sampleTokenTx with vout := sampleTokenTx.vout.reverse } sampleTokenCoins
        scriptEnableTokens 3 = .ok () := by
  have h := checkTxTokens_iff_rule sampleTokenTx sampleTokenCoins scriptEnableTokens 3 (by decide)
    (by decide) (by decide) (by decide)
  have hok : checkTxTokens sampleTokenTx sampleTokenCoins scriptEnableTokens 3 = .ok () := by rfl
  refine ⟨h.1.mp hok,?_⟩
  exact (h.2 { sampleTokenTx with vout := sampleTokenTx.vout.reverse } (List.Perm.refl _)
    (reverse_perm _)).mpr hok
end BitfiniteCore
