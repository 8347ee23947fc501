import BitfiniteCore.Consensus.Merkle
import BitfiniteCore.Lib.ExceptPost
import BitfiniteCore.Relay.CompactBlock
import BitfiniteCore.Validation.BlockSpec

/-! # Reconstruction of compact blocks -/

namespace BitfiniteCore
open List

section NoAssertion

def NotAssertion (stop : Stop) : Prop := ∀ c, stop ≠ .assertion c

variable {α : Type} {P : α → Prop}

theorem dos_noAssertion (n code : Nat) (reason : String) : ExceptPost NotAssertion P (dos n code reason) :=
  fun _ h => nomatch h

theorem checked {c : Prop} [Decidable c] {n code : Nat} {reason : String} {x : Except Stop α}
    (h : ¬ c → ExceptPost NotAssertion P x) : ExceptPost NotAssertion P (if c then dos n code reason else x) :=
  .ite (fun _ => dos_noAssertion n code reason) h

theorem checkOutputValues_noAssertion (vout : List CTxOut) (n : Int) :
    ExceptPost NotAssertion (fun _ => True) (checkOutputValues n vout) := by
  induction vout generalizing n with
  | nil => trivial
  | cons o vout ih =>
    rw [checkOutputValues]
    refine checked fun _ => ?_
    refine checked fun _ => ?_
    have hadd : ExceptPost NotAssertion (fun _ => True) (addAmount n o.nValue) := by
      unfold addAmount
      split
      · trivial
      · intro _ h
        cases h
    apply hadd.bind
    intro v _
    exact checked fun _ => ih v

theorem checkTransactionCommon_noAssertion (tx : CTransaction) :
    ExceptPost NotAssertion (fun _ => True) (checkTransactionCommon tx) := by
  refine checked fun _ => ?_
  refine checked fun _ => ?_
  split
  · exact fun _ h => nomatch h
  · exact checked fun _ => checkOutputValues_noAssertion _ _

theorem checkPrevoutPairs_noAssertion (ps : List COutPoint) :
    ExceptPost NotAssertion (fun _ => True) (checkPrevoutPairs ps) := by
  induction ps with
  | nil => trivial
  | cons p ps ih =>
    rw [checkPrevoutPairs]
    refine checked fun _ => ?_
    exact checked fun _ => ih

theorem checkRegularTransaction_noAssertion (tx : CTransaction) :
    ExceptPost NotAssertion (fun _ => True) (checkRegularTransaction tx) := by
  refine checked fun _ => ?_
  apply (checkTransactionCommon_noAssertion tx).bind
  intro _ _
  refine ExceptPost.ite (fun _ => checkPrevoutPairs_noAssertion _) ?_
  intro _
  refine checked fun _ => ?_
  exact checked fun _ => trivial

theorem checkRegularTransactions_noAssertion (txs : List CTransaction) :
    ExceptPost NotAssertion (fun _ => True) (checkRegularTransactions txs) := by
  induction txs with
  | nil => trivial
  | cons tx txs ih => exact (checkRegularTransaction_noAssertion tx).bind fun _ _ => ih

theorem checkBlock_noAssertion (ctx : BlockContext) (block : CBlock) :
    ExceptPost NotAssertion (fun _ => True) (checkBlock ctx block) := by
  refine checked fun _ => ?_
  refine ExceptPost.ite (fun _ => fun _ h => nomatch h) ?_
  intro _
  refine ExceptPost.ite (fun _ => fun _ h => nomatch h) ?_
  intro _
  split
  · exact dos_noAssertion _ _ _
  · rename_i coinbase vtx _
    have hsize : ExceptPost NotAssertion (fun _ => True) (checkBlockSize block maxConsensusBlockSize) := by
      refine checked fun _ => ?_
      split
      · exact fun _ h => nomatch h
      · exact checked fun _ => trivial
    have hcoinbase : ExceptPost NotAssertion (fun _ => True) (checkCoinbase coinbase) := by
      refine checked fun _ => ?_
      apply (checkTransactionCommon_noAssertion coinbase).bind
      intro _ _
      exact checked fun _ => trivial
    exact hsize.bind fun _ _ => hcoinbase.bind fun _ _ => checkRegularTransactions_noAssertion vtx
end NoAssertion

section InitData

variable {params : CompactParams} {nShort n : Nat} {avail : List (Option CTransaction)}

theorem count_none_set (avail : List (Option CTransaction)) (i : Nat) (tx : CTransaction) :
    avail.count none ≤ (avail.set i (some tx)).count none+1 := by
  induction avail generalizing i with
  | nil => simp
  | cons slot avail ih =>
    cases i with
    | zero => cases slot <;> simp
    | succ i =>
      have := ih i
      cases slot <;> simp <;> omega

theorem placePrefilled_spec (avail : List (Option CTransaction)) (ps : List PrefilledTransaction) (i : Nat) (last : Int)
    (hlen : avail.length = nShort+i+ps.length) (hcount : avail.length < 2^32) (hlast : -1 ≤ last)
    (hfree : nShort+ps.length ≤ avail.count none) :
    ExceptPost NotAssertion (fun r => r.2.length = avail.length ∧ (r.1 = true → nShort ≤ r.2.count none))
      (placePrefilled nShort ps i last avail) := by
  induction ps generalizing i last avail with
  | nil => exact ⟨rfl,fun _ => hfree⟩
  | cons p ps ih =>
    rw [placePrefilled]
    refine ExceptPost.ite (fun _ => ⟨rfl,nofun⟩) ?_
    intro _
    generalize hnext : last+((p.index.toNat+1)%2^32 : Nat) = next
    refine ExceptPost.ite (fun _ => ⟨rfl,nofun⟩) ?_
    intro hmax
    refine ExceptPost.ite (fun _ => ⟨rfl,nofun⟩) ?_
    intro hroom
    rw [length_cons] at hlen hfree
    have hin : 0 ≤ next ∧ next.toNat < avail.length := by omega
    rw [if_pos hin]
    have hset := count_none_set avail next.toNat p.tx
    have hl : (avail.set next.toNat (some p.tx)).length = avail.length := length_set
    have hrest := ih (avail.set next.toNat (some p.tx)) (i+1) next (by omega) (by omega) (by omega) (by omega)
    rw [hl] at hrest
    exact hrest

theorem firstFree_spec (avail : List (Option CTransaction)) (pos : Nat) (h : 1 ≤ avail.count none) :
    ∃ k, firstFree avail pos = .ok (pos+k) ∧ k < avail.length ∧
      avail.count none = (avail.drop (k+1)).count none+1 := by
  induction avail generalizing pos with
  | nil => simp at h
  | cons slot avail ih =>
    cases slot with
    | none => exact ⟨0,rfl,by simp,by simp⟩
    | some tx =>
      obtain ⟨k,hk,hlt,hcount⟩ := ih (pos+1) (by simpa using h)
      refine ⟨k+1,?_,by simpa using hlt,by simpa using hcount⟩
      rw [firstFree,hk]
      congr 1
      omega

theorem mem_insertShortID {ids : List (Nat × Nat)} {id pos : Nat} {kv : Nat × Nat}
    (h : kv ∈ insertShortID ids id pos) : kv = (id,pos) ∨ kv ∈ ids := by
  rcases mem_cons.mp h with h | h
  · exact .inl h
  · exact .inr (mem_of_mem_filter h)

theorem placeShortIDs_spec (params : CompactParams) (rest : List Nat) (pos : Nat) (ids : List (Nat × Nat))
    (hfree : rest.length ≤ (avail.drop pos).count none) (hids : ∀ kv ∈ ids, kv.2 < avail.length) :
    ExceptPost NotAssertion (fun r => ∀ ids', r = some ids' → ∀ kv ∈ ids', kv.2 < avail.length)
      (placeShortIDs params avail rest pos ids) := by
  induction rest generalizing pos ids with
  | nil =>
    intro ids' h
    cases h
    exact hids
  | cons id rest ih =>
    rw [length_cons] at hfree
    obtain ⟨k,hk,hlt,hcount⟩ := firstFree_spec (avail.drop pos) pos (by omega)
    rw [placeShortIDs,hk]
    rw [length_drop] at hlt
    rw [drop_drop] at hcount
    refine ExceptPost.ite (fun _ => nofun) ?_
    intro _
    apply ih
    · rw [show pos+k+1 = pos+(k+1) from rfl]
      omega
    · intro kv hkv
      rcases mem_insertShortID hkv with rfl | hkv
      · omega
      · exact hids kv hkv

/-- The vectors keep their length, and what is there belongs there. -/
structure MatchingOK (n : Nat) (good : Nat → CTransaction → Prop) (s : Matching) : Prop where
  avail : s.avail.length = n
  haveTxn : s.haveTxn.length = n
  good : ∀ i t, s.avail[i]? = some (some t) → good i t

variable {good : Nat → CTransaction → Prop} {short : TxId → Nat} {ids : List (Nat × Nat)} {s : Matching}

theorem readSlot_lt {α : Type} {v : List α} {i : Nat} (h : i < v.length) : readSlot v i = .ok v[i] := by
  rw [readSlot,getElem?_eq_getElem h]

theorem MatchingOK.set (h : MatchingOK n good s) (pos : Nat) (slot : Option CTransaction)
    (hgood : ∀ t, slot = some t → good pos t) (haveTxn : List Bool) (hhave : haveTxn.length = n) (count : Nat) :
    MatchingOK n good ⟨s.avail.set pos slot,haveTxn,count⟩ where
  avail := length_set.trans h.avail
  haveTxn := hhave
  good i t hi := by
    rw [getElem?_set] at hi
    split_ifs at hi with h1 h2
    · subst h1
      exact hgood t (Option.some.inj hi)
    · exact h.good i t hi

theorem matchMempool_spec (h : MatchingOK n good s) (tx : CTransaction)
    (hpos : ∀ pos, ids.lookup (short tx.getId) = some pos → pos < n ∧ good pos tx) :
    ExceptPost NotAssertion (MatchingOK n good) (matchMempool short ids tx s) := by
  unfold matchMempool
  split
  · exact h
  · rename_i pos hlookup
    obtain ⟨hlt,hgood⟩ := hpos pos hlookup
    rw [readSlot_lt (h.haveTxn ▸ hlt),readSlot_lt (h.avail ▸ hlt)]
    apply ExceptPost.ite
    · intro _
      apply h.set
      · intro t ht
        cases ht
        exact hgood
      · exact length_set.trans h.haveTxn
    · intro _
      apply ExceptPost.ite
      · intro _
        exact h.set pos none nofun _ h.haveTxn _
      · intro _
        exact h

theorem matchExtra_spec (h : MatchingOK n good s) (extra : TxId × Option CTransaction)
    (hpos : ∀ pos, ids.lookup (short extra.1) = some pos → pos < n ∧ ∀ t, extra.2 = some t → good pos t) :
    ExceptPost NotAssertion (MatchingOK n good) (matchExtra short ids extra s) := by
  unfold matchExtra
  split
  · exact h
  · rename_i pos hlookup
    obtain ⟨hlt,hgood⟩ := hpos pos hlookup
    rw [readSlot_lt (h.haveTxn ▸ hlt),readSlot_lt (h.avail ▸ hlt)]
    apply ExceptPost.ite
    · intro _
      exact h.set pos extra.2 hgood _ (length_set.trans h.haveTxn) _
    · intro _
      split
      · exact h
      · exact fun _ hc => nomatch hc
      · apply ExceptPost.ite
        · intro _
          exact h.set pos none nofun _ h.haveTxn _
        · intro _
          exact h

theorem matchAll_spec {α : Type} {count : Nat} {f : α → Matching → Except Stop Matching} {P : Matching → Prop}
    (xs : List α) (hf : ∀ x ∈ xs, ∀ s, P s → ExceptPost NotAssertion P (f x s)) (h : P s) :
    ExceptPost NotAssertion P (matchAll count f xs s) := by
  induction xs generalizing s with
  | nil => exact h
  | cons x xs ih =>
    rw [matchAll]
    apply (hf x mem_cons_self s h).bind
    intro s' hs'
    refine ExceptPost.ite (fun _ => hs') ?_
    intro _
    exact ih (fun y hy => hf y (mem_cons_of_mem x hy)) hs'

theorem lookup_mem {id pos : Nat} (h : ids.lookup id = some pos) : (id,pos) ∈ ids := by
  induction ids with
  | nil => cases h
  | cons kv ids ih =>
    rw [lookup_cons] at h
    split at h
    · rename_i hk
      cases h
      rw [beq_iff_eq.mp hk]
      exact mem_cons_self
    · exact mem_cons_of_mem _ (ih h)

theorem count_none_replicate (n : Nat) : (replicate n (none : Option CTransaction)).count none = n :=
  count_replicate_self

variable {msg : CBlockHeaderAndShortTxIDs} {pool : List CTransaction} {extra : List (TxId × Option CTransaction)}
  {self self' : PartiallyDownloadedBlock} {status : ReadStatus}

theorem initData_spec (hcount : msg.blockTxCount < 2^32) :
    ExceptPost NotAssertion (fun r => (self.takes params msg = false → r = (.invalid,self)) ∧
        (self.takes params msg = true → r.2.header = msg.header ∧ r.2.txnsAvailable.length = msg.blockTxCount))
      (self.initData params msg pool extra) := by
  refine ExceptPost.ite ?_ ?_
  · intro h
    exact ⟨fun _ => rfl,fun h' => by simp [h'] at h⟩
  intro htakes
  have ht : self.takes params msg = true := by simpa using htakes
  have hlength : (replicate msg.blockTxCount (none : Option CTransaction)).length =
      msg.shorttxids.length+0+msg.prefilledtxn.length := by simp [CBlockHeaderAndShortTxIDs.blockTxCount]
  have hprefilled := placePrefilled_spec _ msg.prefilledtxn 0 (-1) hlength (by simpa using hcount) (le_refl _)
    (by rw [count_none_replicate]; exact le_refl _)
  rw [length_replicate] at hprefilled
  apply hprefilled.bind
  intro r hr
  obtain ⟨hlen,hfree⟩ := hr
  refine ExceptPost.ite ?_ ?_
  · intro _
    exact ⟨fun h => absurd (ht.symm.trans h) (by decide),fun _ => ⟨rfl,hlen⟩⟩
  intro hvalid
  apply (placeShortIDs_spec params msg.shorttxids 0 [] (hfree (by simpa using hvalid)) nofun).bind
  intro ids hids
  cases ids with
  | none => exact ⟨fun h => absurd (ht.symm.trans h) (by decide),fun _ => ⟨rfl,hlen⟩⟩
  | some ids =>
    refine ExceptPost.ite ?_ ?_
    · intro _
      exact ⟨fun h => absurd (ht.symm.trans h) (by decide),fun _ => ⟨rfl,hlen⟩⟩
    intro _
    have hpos : ∀ id pos, ids.lookup id = some pos → pos < r.2.length :=
      fun id pos h => hids ids rfl (id,pos) (lookup_mem h)
    have hstart : MatchingOK r.2.length (fun _ _ => True)
        ⟨r.2,replicate r.2.length false,self.mempoolCount⟩ :=
      ⟨rfl,length_replicate,fun _ _ _ => trivial⟩
    apply (matchAll_spec pool (fun tx _ s hs => matchMempool_spec hs tx fun pos h => ⟨hpos _ pos h,trivial⟩) hstart).bind
    intro s hs
    apply (matchAll_spec extra (fun x _ s hs => matchExtra_spec hs x fun pos h =>
      ⟨hpos _ pos h,fun _ _ => trivial⟩) hs).bind
    intro s hs
    exact ⟨fun h => absurd (ht.symm.trans h) (by decide),fun _ => ⟨rfl,hs.avail.trans hlen⟩⟩

theorem takes_header (h : self.takes params msg = true) : msg.header.isNull = false := by
  simp only [PartiallyDownloadedBlock.takes,Bool.and_eq_true,Bool.not_eq_true',Bool.or_eq_false_iff] at h
  exact h.1.1.1
end InitData

section Exact

variable {params : CompactParams} {block : CBlock} {cb : CTransaction} {txs : List CTransaction}

theorem placeShortIDs_first (ids : List (Nat × Nat)) (avail : List (Option CTransaction)) (rest : List Nat) :
    placeShortIDs params (some cb::avail) rest 0 ids = placeShortIDs params (some cb::avail) rest 1 ids := by
  cases rest with
  | nil => rfl
  | cons id rest => rfl

theorem placeShortIDs_free {avail : List (Option CTransaction)} (rest : List Nat) (pos : Nat) (ids : List (Nat × Nat))
    (hfree : ∀ i, pos ≤ i → i < pos+rest.length → avail[i]? = some none) {ids' : List (Nat × Nat)}
    (h : placeShortIDs params avail rest pos ids = .ok (some ids')) :
    ∀ kv ∈ ids', kv ∈ ids ∨ ∃ k, rest[k]? = some kv.1 ∧ kv.2 = pos+k := by
  induction rest generalizing pos ids with
  | nil =>
    cases Except.ok.inj h
    exact fun kv hkv => .inl hkv
  | cons id rest ih =>
    rw [length_cons] at hfree
    have hslot := hfree pos (le_refl _) (by omega)
    obtain ⟨hlt,hnone⟩ := List.getElem?_eq_some_iff.mp hslot
    have hfirst : firstFree (avail.drop pos) pos = .ok pos := by
      rw [drop_eq_getElem_cons hlt,hnone]
      rfl
    rw [placeShortIDs,hfirst] at h
    change (if _ then _ else _) = _ at h
    split_ifs at h
    · cases h
    intro kv hkv
    rcases ih (pos+1) _ (fun i h1 h2 => hfree i (by omega) (by omega)) h kv hkv with hmem | ⟨k,hk,hpos⟩
    · rcases mem_insertShortID hmem with rfl | hmem
      · exact .inr ⟨0,rfl,rfl⟩
      · exact .inl hmem
    · exact .inr ⟨k+1,hk,by omega⟩

def missingTxs (avail : List (Option CTransaction)) (vtx : List CTransaction) : List CTransaction :=
  ((avail.zip vtx).filter fun p => p.1.isNone).map Prod.snd

theorem fillLoop_exact {avail : List (Option CTransaction)} {vtx : List CTransaction}
    (h : List.Forall₂ (fun slot tx => (∀ t, slot = some t → t = tx) ∧ tx.isNull = false) avail vtx) :
    (fillLoop avail (missingTxs avail vtx)).1 = some (vtx,[]) := by
  induction h with
  | nil => rfl
  | @cons slot tx avail vtx hslot _ ih =>
    cases slot with
    | none =>
      show (fillLoop (none::avail) (tx::missingTxs avail vtx)).1 = _
      rw [fillLoop,hslot.2]
      simp only [Bool.false_eq_true,if_false,ih,Option.map_some]
    | some t =>
      obtain rfl := hslot.1 t rfl
      show (fillLoop (some t::avail) (missingTxs avail vtx)).1 = _
      rw [fillLoop]
      simp only [ih,Option.map_some]

theorem isNull_of_checked {tx : CTransaction} (h : CheckedCommon tx) : tx.isNull = false := by
  have := isEmpty_eq_false_iff.mpr h.vin
  simp [CTransaction.isNull,this]

variable {nonce : Nat} {pool : List CTransaction} {extra : List (TxId × Option CTransaction)}
  {self self' : PartiallyDownloadedBlock}

theorem initData_ofBlock (hvtx : block.vtx = cb::txs) (hcb : cb.isNull = false)
    (hpool : ∀ tx ∈ pool, ∀ b ∈ block.vtx, params.getShortID block.toCBlockHeader nonce tx.getId =
      params.getShortID block.toCBlockHeader nonce b.getId → tx = b)
    (hextra : ∀ x ∈ extra, ∀ b ∈ block.vtx, params.getShortID block.toCBlockHeader nonce x.1 =
      params.getShortID block.toCBlockHeader nonce b.getId → x.2 = some b)
    (h : self.initData params (.ofBlock params block nonce) pool extra = .ok (.ok,self')) :
    self'.header = block.toCBlockHeader ∧ self'.header.isNull = false ∧
      self'.txnsAvailable.length = block.vtx.length ∧
      ∀ (i : Nat) (t : CTransaction), self'.txnsAvailable[i]? = some (some t) → block.vtx[i]? = some t := by
  unfold PartiallyDownloadedBlock.initData at h
  split_ifs at h with htakes
  · cases h
  have ht : self.takes params (.ofBlock params block nonce) = true := by simpa using htakes
  have hnull := takes_header ht
  have hprefilled : placePrefilled (CBlockHeaderAndShortTxIDs.ofBlock params block nonce).shorttxids.length
      (CBlockHeaderAndShortTxIDs.ofBlock params block nonce).prefilledtxn 0 (-1)
      (replicate (CBlockHeaderAndShortTxIDs.ofBlock params block nonce).blockTxCount none) =
        .ok (true,some cb::replicate txs.length none) := by
    simp only [CBlockHeaderAndShortTxIDs.ofBlock,CBlockHeaderAndShortTxIDs.blockTxCount,hvtx,head?_cons,
      Option.map_some,Option.toList_some,tail_cons,length_map,length_singleton,placePrefilled,hcb,
      Bool.false_eq_true,if_false]
    simp [replicate_succ]
  rw [hprefilled] at h
  change Except.bind (placeShortIDs _ _ _ _ _) _ = _ at h
  obtain ⟨ids?,hplace,h⟩ := except_bind_ok.mp h
  cases ids? with
  | none => cases h
  | some ids =>
    change (if _ then _ else _) = _ at h
    split_ifs at h
    · cases h
    obtain ⟨s,hs,h⟩ := except_bind_ok.mp h
    obtain ⟨s',hs',h⟩ := except_bind_ok.mp h
    rw [placeShortIDs_first] at hplace
    have hids := placeShortIDs_free _ 1 [] (by
      intro i h1 h2
      obtain ⟨j,rfl⟩ : ∃ j, i = j+1 := ⟨i-1,by omega⟩
      simp only [CBlockHeaderAndShortTxIDs.ofBlock,hvtx,tail_cons,length_map] at h2
      rw [getElem?_cons_succ,getElem?_replicate,if_pos (by omega)]) hplace
    -- a short id in the map is that of the transaction at its position
    have hpos : ∀ id pos, ids.lookup id = some pos → pos < txs.length+1 ∧ ∃ b ∈ block.vtx,
        id = params.getShortID block.toCBlockHeader nonce b.getId ∧ block.vtx[pos]? = some b := by
      intro id pos hlookup
      rcases hids _ (lookup_mem hlookup) with hmem | ⟨k,hk,hkpos⟩
      · cases hmem
      · simp only [CBlockHeaderAndShortTxIDs.ofBlock,hvtx,tail_cons,List.getElem?_map,Option.map_eq_some_iff] at hk
        obtain ⟨b,hb,hid⟩ := hk
        have hkpos' : pos = k+1 := by simpa [Nat.add_comm] using hkpos
        have hat : block.vtx[pos]? = some b := by rw [hvtx,hkpos',List.getElem?_cons_succ,hb]
        have hlt := (List.getElem?_eq_some_iff.mp hb).1
        exact ⟨by omega,b,mem_of_getElem? hat,hid.symm,hat⟩
    have hstart : MatchingOK (txs.length+1) (fun i t => block.vtx[i]? = some t)
        ⟨some cb::replicate txs.length none,
          replicate (some cb::replicate txs.length none).length false,self.mempoolCount⟩ := by
      refine ⟨by simp,by simp,fun i t hi => ?_⟩
      cases i with
      | zero =>
        obtain rfl : cb = t := by simpa using hi
        rw [hvtx]
        rfl
      | succ i =>
        rw [getElem?_cons_succ,getElem?_replicate] at hi
        split_ifs at hi
        cases hi
    have hmem := (matchAll_spec pool (fun tx htx s hs => matchMempool_spec hs tx fun pos hl => by
      obtain ⟨hlt,b,hb,hid,hat⟩ := hpos _ pos hl
      rw [hpool tx htx b hb hid]
      exact ⟨hlt,hat⟩) hstart).result hs
    have hext := (matchAll_spec extra (fun x hx s hs => matchExtra_spec hs x fun pos hl => by
      obtain ⟨hlt,b,hb,hid,hat⟩ := hpos _ pos hl
      refine ⟨hlt,fun t ht => ?_⟩
      rw [hextra x hx b hb hid] at ht
      exact Option.some.inj ht ▸ hat) hmem).result hs'
    obtain rfl := (Prod.mk.inj (Except.ok.inj h)).2
    refine ⟨rfl,hnull,?_,hext.good⟩
    rw [hvtx]
    exact hext.avail

theorem fillBlock_ofBlock (hcheck : checkBlock params.ctx block = .ok ())
    (hheader : self'.header = block.toCBlockHeader) (hnull : self'.header.isNull = false)
    (hlen : self'.txnsAvailable.length = block.vtx.length)
    (hgood : ∀ (i : Nat) (t : CTransaction), self'.txnsAvailable[i]? = some (some t) → block.vtx[i]? = some t) :
    ∃ used, self'.fillBlock params (missingTxs self'.txnsAvailable block.vtx) = .ok (.ok,block,used) := by
  obtain ⟨cb,txs,hchecked⟩ := checkBlock_ok hcheck
  have hnotNull : ∀ tx ∈ block.vtx, tx.isNull = false := by
    rw [hchecked.vtx]
    refine forall_mem_cons.mpr ⟨isNull_of_checked hchecked.coinbase.toCheckedCommon,fun tx htx => ?_⟩
    exact isNull_of_checked (checkRegularTransaction_ok (hchecked.regular tx htx)).toCheckedCommon
  have hslots : List.Forall₂ (fun slot tx => (∀ t, slot = some t → t = tx) ∧ tx.isNull = false)
      self'.txnsAvailable block.vtx := by
    apply forall₂_iff_get.mpr
    refine ⟨hlen,fun i h1 h2 => ⟨fun t ht => ?_,hnotNull _ (get_mem _ _)⟩⟩
    have hi := hgood i t (List.getElem?_eq_some_iff.mpr ⟨h1,ht⟩)
    exact (List.getElem?_eq_some_iff.mp hi).2.symm
  have hfill := fillLoop_exact hslots
  have hne : self'.txnsAvailable.isEmpty = false := by
    rw [isEmpty_eq_false_iff,← length_pos_iff,hlen,hchecked.vtx]
    exact Nat.succ_pos _
  obtain ⟨r,hr⟩ : ∃ r, fillLoop self'.txnsAvailable (missingTxs self'.txnsAvailable block.vtx) = r := ⟨_,rfl⟩
  obtain ⟨out,avail⟩ := r
  rw [hr] at hfill
  obtain rfl : out = some (block.vtx,[]) := hfill
  have hblock : (⟨self'.header,block.vtx⟩ : CBlock) = block := by
    rw [hheader]
  refine ⟨{ self' with header := nullHeader, txnsAvailable := [] },?_⟩
  rw [PartiallyDownloadedBlock.fillBlock,hnull,hne,hr]
  simp only [Bool.or_self,Bool.false_eq_true,if_false,isEmpty_nil,Bool.not_true,hblock,hcheck]
end Exact

section Calls

variable {params : CompactParams} {calls : List CompactCall} {self self' : PartiallyDownloadedBlock}
  {vtxMissing : List CTransaction} {status : ReadStatus} {block : CBlock}

theorem fillLoop_length (avail : List (Option CTransaction)) (missing : List CTransaction) :
    (fillLoop avail missing).2.length = avail.length := by
  induction avail generalizing missing with
  | nil => rfl
  | cons slot avail ih =>
    cases slot with
    | none =>
      cases missing with
      | nil => rfl
      | cons tx missing =>
        rw [fillLoop]
        split_ifs
        · rfl
        · exact congrArg (·+1) (ih missing)
    | some tx => exact congrArg (·+1) (ih missing)

theorem fillBlock_spec (params : CompactParams) (self : PartiallyDownloadedBlock) (vtxMissing : List CTransaction) :
    ExceptPost NotAssertion (fun r =>
        (r.1 = .ok → self.header.isNull = false ∧ r.2.1.toCBlockHeader = self.header ∧
          checkBlock params.ctx r.2.1 = .ok () ∧ r.2.2.header = nullHeader) ∧
        (r.2.2.header = nullHeader ∨ r.1 = .invalid ∧ r.2.2.header = self.header ∧
          r.2.2.txnsAvailable.length = self.txnsAvailable.length))
      (self.fillBlock params vtxMissing) := by
  refine ExceptPost.ite ?_ ?_
  · intro _
    exact ⟨nofun,.inr ⟨rfl,rfl,rfl⟩⟩
  intro hready
  have hnull : self.header.isNull = false := by
    cases hh : self.header.isNull with
    | false => rfl
    | true => simp [hh] at hready
  have hlen := fillLoop_length self.txnsAvailable vtxMissing
  generalize fillLoop self.txnsAvailable vtxMissing = r at hlen ⊢
  obtain ⟨out,avail⟩ := r
  cases out with
  | none => exact ⟨nofun,.inr ⟨rfl,rfl,hlen⟩⟩
  | some out =>
    obtain ⟨vtx,rest⟩ := out
    refine ExceptPost.ite ?_ ?_
    · intro _
      exact ⟨nofun,.inl rfl⟩
    intro _
    have hcheck := checkBlock_noAssertion params.ctx ⟨self.header,vtx⟩
    cases hc : checkBlock params.ctx ⟨self.header,vtx⟩ with
    | ok u => exact ⟨fun _ => ⟨hnull,rfl,hc,rfl⟩,.inl rfl⟩
    | error stop =>
      cases stop with
      | invalid r =>
        refine ⟨fun h => ?_,.inl rfl⟩
        split_ifs at h
      | overflow => exact hcheck.failure hc
      | assertion c => exact hcheck.failure hc
      | logicError what => exact hcheck.failure hc
      | runtimeError what => exact hcheck.failure hc

/-- The message that an object holds is the last one it took, and no block has come out since. -/
def HoldsLast (calls : List CompactCall) (self : PartiallyDownloadedBlock) : Prop :=
  self.header.isNull = false → pendingHeader calls = some self.header ∧
    ∃ msg, lastTaken calls = some msg ∧ self.txnsAvailable.length = msg.blockTxCount

theorem CompactRun.holdsLast (run : CompactRun params calls self) : HoldsLast calls self := by
  induction run with
  | start => exact nofun
  | @initData calls self self' msg status pool extra run hcount hinit ih =>
    obtain ⟨hkeep,htake⟩ := (initData_spec hcount).result hinit
    intro hnull
    cases ht : self.takes params msg with
    | false =>
      obtain ⟨rfl,rfl⟩ := Prod.mk.inj (hkeep ht)
      exact ih hnull
    | true =>
      obtain ⟨hheader,hlen⟩ := htake ht
      exact ⟨congrArg some hheader.symm,msg,rfl,hlen⟩
  | isTxAvailable run hcall ih => exact ih
  | @fillBlock calls self self' status block vtxMissing run hfill ih =>
    obtain ⟨hok,hafter⟩ := (fillBlock_spec params self vtxMissing).result hfill
    intro hnull
    rcases hafter with hused | ⟨hstatus,hheader,hlen⟩
    · rw [hused] at hnull
      cases hnull
    · obtain rfl : status = .invalid := hstatus
      rw [hheader] at hnull ⊢
      obtain ⟨hpending,msg,hmsg,hcount⟩ := ih hnull
      exact ⟨hpending,msg,hmsg,hlen.trans hcount⟩
end Calls

/-- The message of a valid block gives the block again; no vector is left, and a block only comes out for the last
message taken, once. -/
theorem compact_block_exact (params : CompactParams) :
    (∀ (block : CBlock) (nonce : Nat) (pool : List CTransaction) (extra : List (TxId × Option CTransaction))
        (self self' : PartiallyDownloadedBlock), checkBlock params.ctx block = .ok () →
      (∀ tx ∈ pool, ∀ b ∈ block.vtx, params.getShortID block.toCBlockHeader nonce tx.getId =
        params.getShortID block.toCBlockHeader nonce b.getId → tx = b) →
      (∀ x ∈ extra, ∀ b ∈ block.vtx, params.getShortID block.toCBlockHeader nonce x.1 =
        params.getShortID block.toCBlockHeader nonce b.getId → x.2 = some b) →
      self.initData params (.ofBlock params block nonce) pool extra = .ok (.ok,self') →
      ∃ used, self'.fillBlock params (missingTxs self'.txnsAvailable block.vtx) = .ok (.ok,block,used)) ∧
    ∀ calls self, CompactRun params calls self → (∀ msg pool extra c, msg.blockTxCount < 2^32 →
        self.initData params msg pool extra ≠ .error (.assertion c)) ∧
      (∀ msg index c, lastTaken calls = some msg → index < msg.blockTxCount →
        self.isTxAvailable index ≠ .error (.assertion c)) ∧
      (∀ vtxMissing c, self.fillBlock params vtxMissing ≠ .error (.assertion c)) ∧
      ∀ vtxMissing block used, self.fillBlock params vtxMissing = .ok (.ok,block,used) →
        pendingHeader calls = some block.toCBlockHeader ∧ checkBlock params.ctx block = .ok () := by
  constructor
  · intro block nonce pool extra self self' hcheck hpool hextra hinit
    obtain ⟨cb,txs,hchecked⟩ := checkBlock_ok hcheck
    obtain ⟨hheader,hnull,hlen,hgood⟩ := initData_ofBlock hchecked.vtx
      (isNull_of_checked hchecked.coinbase.toCheckedCommon) hpool hextra hinit
    exact fillBlock_ofBlock hcheck hheader hnull hlen hgood
  · intro calls self run
    have hlast := run.holdsLast
    refine ⟨fun msg pool extra c hcount h => ?_,fun msg index c hmsg hindex => ?_,fun vtxMissing c h => ?_,
      fun vtxMissing block used h => ?_⟩
    · exact (initData_spec hcount).failure h c rfl
    · unfold PartiallyDownloadedBlock.isTxAvailable
      split_ifs with hnull
      · nofun
      · obtain ⟨_,msg',hmsg',hlen⟩ := hlast (by simpa using hnull)
        cases hmsg.symm.trans hmsg'
        rw [readSlot_lt (hlen ▸ hindex)]
        nofun
    · exact (fillBlock_spec params self vtxMissing).failure h c rfl
    · obtain ⟨hnull,hheader,hcheck,_⟩ := ((fillBlock_spec params self vtxMissing).result h).1 rfl
      refine ⟨?_,hcheck⟩
      rw [(hlast hnull).1]
      exact congrArg some hheader.symm

def compactSample : CompactParams where
  maxTxCount := 1000
  getShortID _ _ txid := txid.toNat%2^48
  bucketFull _ _ := false
  ctx := packContext

/-- One of the transactions is in the pool and the other one is missing. -/
theorem compact_block_exact_pool : ∃ self' used,
    ({} : PartiallyDownloadedBlock).initData compactSample (.ofBlock compactSample (packBlock packVtx) 0)
      [packSpend 21] [] = .ok (.ok,self') ∧
    self'.fillBlock compactSample [packSpend 22] = .ok (.ok,packBlock packVtx,used) := by
  obtain ⟨self',hinit,hmissing⟩ : ∃ self', ({} : PartiallyDownloadedBlock).initData compactSample
      (.ofBlock compactSample (packBlock packVtx) 0) [packSpend 21] [] = .ok (.ok,self') ∧
      missingTxs self'.txnsAvailable packVtx = [packSpend 22] := ⟨_,rfl,rfl⟩
  obtain ⟨used,hfill⟩ := (compact_block_exact compactSample).1 (packBlock packVtx) 0 [packSpend 21] [] {} self'
    (by decide +kernel) (by decide +kernel) (by simp) hinit
  exact ⟨self',used,hinit,hmissing ▸ hfill⟩

/-- The prefilled index lies outside a block of three. -/
def compactBad : CBlockHeaderAndShortTxIDs :=
  ⟨(packBlock packVtx).toCBlockHeader,0,[21,22],(packVtx.head?.map fun tx => ⟨5,tx⟩).toList⟩

theorem fill_after_refused : ∃ self, CompactRun compactSample
    [.fillBlock .ok (packBlock packVtx),.initData compactBad true .invalid,.fillBlock .ok (packBlock packVtx),
      .initData (.ofBlock compactSample (packBlock packVtx) 0) true .ok] self := by
  have h1 : CompactRun compactSample [.initData (.ofBlock compactSample (packBlock packVtx) 0) true .ok]
      ⟨packVtx.map some,2,(packBlock packVtx).toCBlockHeader⟩ :=
    CompactRun.initData packVtx.tail [] .start (by decide) (by decide +kernel)
  have h2 : CompactRun compactSample [.fillBlock .ok (packBlock packVtx),
      .initData (.ofBlock compactSample (packBlock packVtx) 0) true .ok] ⟨[],2,nullHeader⟩ :=
    CompactRun.fillBlock [] h1 (by decide +kernel)
  have h3 : CompactRun compactSample [.initData compactBad true .invalid,.fillBlock .ok (packBlock packVtx),
      .initData (.ofBlock compactSample (packBlock packVtx) 0) true .ok]
      ⟨[none,none,none],2,(packBlock packVtx).toCBlockHeader⟩ :=
    CompactRun.initData [] [] h2 (by decide) (by decide +kernel)
  exact ⟨⟨[],2,nullHeader⟩,CompactRun.fillBlock packVtx h3 (by decide +kernel)⟩
end BitfiniteCore
