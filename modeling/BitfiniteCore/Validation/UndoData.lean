import BitfiniteCore.Coins.Compressor
import BitfiniteCore.Validation.Undo

/-! # Undo data on disk -/

namespace BitfiniteCore
open RoundTrip List Option

section Format

variable {α : Type}

def writeVector (write : α → Option Bytes) (xs : List α) : Option Bytes :=
  (writeEach write xs).map fun s => writeCompactSize xs.length++s

def readVector (read : Reader α) : Reader (List α) := fun s =>
  (readCompactSizeWithLimit maxSize s).bind fun (n,s) => readEach read n s

theorem vector_roundTrips {write : α → Option Bytes} {read : Reader α} {xs : List α}
    (h : ∀ a ∈ xs, RoundTrips write read a) (hlen : xs.length ≤ maxSize) :
    RoundTrips (writeVector write) (readVector read) xs := by
  obtain ⟨s,hs,hread⟩ := RoundTrips.each xs h
  refine ⟨writeCompactSize xs.length++s,by simp [writeVector,hs],fun rest => ?_⟩
  have hlt : xs.length < 2^64 := hlen.trans_lt (by decide)
  rw [readVector,append_assoc,readCompactSizeWithLimit_write maxSize xs.length _ hlt hlen]
  exact hread rest

/-- `TxInUndoFormatter::Ser`; a zero byte stands where old versions wrote a transaction version. -/
def serializeTxInUndo (pk : PubKeyOps) (c : Coin) : Option Bytes :=
  (serializeTxOut pk c.out).map fun out =>
    writeVarInt ((c.getHeight*2+(if c.isCoinBase then 1 else 0))%2^32)++ (if c.getHeight > 0 then [0] else [])++out

def unserializeTxInUndo (pk : PubKeyOps) : Reader Coin := fun s =>
  (readVarInt uint32Max s).bind fun (nCode,s) =>
    let nHeight := nCode/2
    let fCoinBase := nCode%2 == 1
    (if nHeight > 0 then (readVarInt uint32Max s).map Prod.snd else some s).bind fun s =>
      (unserializeTxOut pk s).map fun (out,s) => (Coin.ofOutput out nHeight fCoinBase,s)

def CTxUndo.serialize (pk : PubKeyOps) (u : CTxUndo) : Option Bytes := writeVector (serializeTxInUndo pk) u.vprevout

def CTxUndo.unserialize (pk : PubKeyOps) : Reader CTxUndo := fun s =>
  (readVector (unserializeTxInUndo pk) s).map fun (l,s) => (⟨l⟩,s)

def CBlockUndo.serialize (pk : PubKeyOps) (u : CBlockUndo) : Option Bytes :=
  writeVector (CTxUndo.serialize pk) u.vtxundo

def CBlockUndo.unserialize (pk : PubKeyOps) : Reader CBlockUndo := fun s =>
  (readVector (CTxUndo.unserialize pk) s).map fun (l,s) => (⟨l⟩,s)

/-- A coin that came from a stream or was made from an output that did. -/
structure Coin.Stored (c : Coin) : Prop where
  code : c.nHeightAndIsCoinBase < 2^32
  out : c.out.Unserialized

theorem txInUndo_roundTrips_of_length (pk : PubKeyOps) {c : Coin} (hc : c.Stored)
    (hmoney : moneyRange c.out.nValue = true) (hscript : c.out.scriptPubKey.length ≤ maxScriptSize) :
    RoundTrips (serializeTxInUndo pk) (unserializeTxInUndo pk) c := by
  obtain ⟨bytes,hbytes,hread⟩ := txOut_roundTrips pk hmoney hc.out hscript
  have hlt := hc.code
  have hcode : (c.getHeight*2+(if c.isCoinBase then 1 else 0))%2^32 = c.nHeightAndIsCoinBase := by
    unfold Coin.getHeight Coin.isCoinBase
    split
    · rename_i h
      rw [beq_iff_eq] at h
      omega
    · rename_i h
      rw [beq_iff_eq] at h
      omega
  have hcoin : Coin.ofOutput c.out (c.nHeightAndIsCoinBase/2) (c.nHeightAndIsCoinBase%2 == 1) = c := by
    obtain ⟨out,code⟩ := c
    simp only [Coin.ofOutput,Coin.mk.injEq,true_and,beq_iff_eq] at hlt ⊢
    split <;> omega
  refine ⟨_,by rw [serializeTxInUndo,hbytes,hcode]; rfl,fun rest => ?_⟩
  unfold unserializeTxInUndo
  rw [append_assoc,append_assoc,readVarInt_write _ _ (by unfold uint32Max; omega)]
  dsimp only [Option.bind]
  have hheight : c.nHeightAndIsCoinBase/2 = c.getHeight := rfl
  rw [hheight]
  by_cases hh : c.getHeight > 0
  · rw [if_pos hh,if_pos hh,singleton_append,readVarInt_byte 0 (by decide),map_some]
    dsimp only
    rw [hread rest,map_some,← hheight,hcoin]
  · rw [if_neg hh,if_neg hh,nil_append]
    dsimp only
    rw [hread rest,map_some,← hheight,hcoin]

theorem txInUndo_roundTrips (pk : PubKeyOps) {c : Coin} (hc : c.Stored)
    (hmoney : moneyRange c.out.nValue = true) (hu : c.out.scriptPubKey.isUnspendable = false) :
    RoundTrips (serializeTxInUndo pk) (unserializeTxInUndo pk) c := by
  apply txInUndo_roundTrips_of_length pk hc hmoney
  simp only [CScript.isUnspendable,Bool.or_eq_false_iff,decide_eq_false_iff_not,gt_iff_lt,not_lt] at hu
  exact hu.2

private theorem wrap_length_ge {tokenData : Option OutputData} {script : CScript} {wspk : Bytes}
    (h : wrapScriptPubKey tokenData script = some wspk) : script.length ≤ wspk.length := by
  cases tokenData with
  | none =>
    simp only [wrapScriptPubKey,Option.some.injEq] at h
    rw [h]
  | some d =>
    simp only [wrapScriptPubKey,map_eq_some_iff] at h
    obtain ⟨bytes,-,rfl⟩ := h
    simp only [cons_append,length_cons,length_append]
    omega

private theorem Coin.ofOutput_stored {o : CTxOut} (ho : o.Unserialized) (nHeight : Nat) (fCoinBase : Bool) :
    (Coin.ofOutput o nHeight fCoinBase).Stored := by
  refine ⟨?_,ho⟩
  simp only [Coin.ofOutput]
  split <;> omega

/-- The compressed form of an output or a coin is read back as it was. -/
theorem coinCompression_lossless (pk : PubKeyOps) :
    (∀ (o : CTxOut) (wspk : Bytes), o.Unserialized → moneyRange o.nValue = true →
      wrapScriptPubKey o.tokenData o.scriptPubKey = some wspk → wspk.length ≤ maxScriptSize →
      RoundTrips (serializeTxOut pk) (unserializeTxOut pk) o ∧
      ∀ (nHeight : Nat) (fCoinBase : Bool), nHeight < 2^31 →
        RoundTrips (serializeTxInUndo pk) (unserializeTxInUndo pk) (Coin.ofOutput o nHeight fCoinBase)) ∧
    (∀ (script : CScript) (rest : Bytes), script.length+nSpecialScripts < 2^32 →
      (∃ nSize s, readVarInt uint32Max (serializeScript pk script++rest) = some (nSize,s) ∧
        StoredForm pk script nSize) ∧
      ∀ (script' : CScript) (rest' : Bytes), script'.length+nSpecialScripts < 2^32 →
        serializeScript pk script++rest = serializeScript pk script'++rest' → script = script' ∧ rest = rest') ∧
    (∀ amt : Int, moneyRange amt = true → decompressAmount (compressAmount amt) = amt) ∧
    ∀ a b : Int, moneyRange a = true → moneyRange b = true → compressAmount a = compressAmount b → a = b := by
  refine ⟨?_,?_,fun amt => decompressAmount_compress,?_⟩
  · intro o wspk ho hmoney hwrap hlen
    have hscript : o.scriptPubKey.length ≤ maxScriptSize := (wrap_length_ge hwrap).trans hlen
    refine ⟨txOut_roundTrips pk hmoney ho hscript,fun nHeight fCoinBase _ => ?_⟩
    exact txInUndo_roundTrips_of_length pk (Coin.ofOutput_stored ho nHeight fCoinBase) hmoney hscript
  · intro script rest hlen
    exact ⟨readVarInt_serializeScript hlen rest,fun script' rest' hlen' => serializeScript_injective hlen hlen'⟩
  · intro a b ha hb hab
    rw [← decompressAmount_compress ha,hab,decompressAmount_compress hb]
/-- The coordinates of the generator of the curve. -/
def generatorX : Bytes := [121,190,102,126,249,220,187,172,85,160,98,149,206,135,11,7,
  2,155,252,219,45,206,40,217,89,242,129,91,22,248,23,152]

def generatorY : Bytes := [72,58,218,119,38,163,196,101,93,164,251,252,14,17,8,168,
  253,23,180,72,166,133,84,25,156,71,208,143,251,16,212,184]

/-- The one key is the generator, whose second coordinate is even. -/
def generatorKeys : PubKeyOps where
  isFullyValid key := key == 0x04::generatorX++generatorY
  decompress key := if key = 0x02::generatorX then some (0x04::generatorX++generatorY) else none
  decompress_eq x y last hx _ hvalid := by
    have heq : x++(y++[last]) = generatorX++generatorY := by simpa using eq_of_beq hvalid
    obtain ⟨rfl,hy⟩ := append_inj heq hx
    have hlast := congrArg getLast? hy
    rw [getLast?_append,getLast?_singleton,Option.some_or] at hlast
    obtain rfl : last = 0xb8 := some.inj hlast
    rw [append_assoc,hy]
    rfl

def generatorOut : CTxOut := ⟨50*coinUnit,[65,4]++generatorX++generatorY++[opCheckSig],none⟩

/-- The output to an uncompressed key takes 33 bytes for its script. -/
theorem coinCompression_lossless_generator : ∃ bytes, serializeTxOut generatorKeys generatorOut = some bytes ∧
    bytes.length = 34 ∧ unserializeTxOut generatorKeys bytes = some (generatorOut,[]) := by
  obtain ⟨bytes,hbytes,hread⟩ := ((coinCompression_lossless generatorKeys).1 generatorOut generatorOut.scriptPubKey
    ⟨generatorOut.scriptPubKey,by decide⟩ (by decide) rfl (by decide)).1
  have hlen : (serializeTxOut generatorKeys generatorOut).map length = some 34 := by decide +kernel
  rw [hbytes] at hlen
  exact ⟨bytes,hbytes,some.inj hlen,by simpa using hread []⟩
end Format

section Sizes

theorem txIn_serialize_length (i : CTxIn) : 41 ≤ i.serialize.length := by
  have h := (writeCompactSize_length i.scriptSig.length).1
  simp only [CTxIn.serialize,length_append,serializeUint256,leBytes_length]
  omega

theorem txIns_serialize_length (vin : List CTxIn) : 41*vin.length ≤ (vin.map CTxIn.serialize).flatten.length := by
  induction vin with
  | nil => simp
  | cons i vin ih =>
    have h := txIn_serialize_length i
    rw [map_cons,flatten_cons,length_append,length_cons]
    omega

theorem txOut_serialize_length {o : CTxOut} {bytes : Bytes} (h : o.serialize = some bytes) : 9 ≤ bytes.length := by
  obtain ⟨wspk,-,rfl⟩ := map_eq_some_iff.mp h
  have hc := (writeCompactSize_length wspk.length).1
  simp only [length_append,leBytes_length]
  omega

theorem txOuts_serialize_length (vout : List CTxOut) {bytes : List Bytes}
    (h : vout.mapM CTxOut.serialize = some bytes) : 9*vout.length ≤ bytes.flatten.length := by
  induction vout generalizing bytes with
  | nil => simp
  | cons o vout ih =>
    rw [mapM_cons] at h
    obtain ⟨b,hb,h⟩ := bind_eq_some_iff.mp h
    obtain ⟨bs,hbs,h⟩ := bind_eq_some_iff.mp h
    cases h
    have h1 := txOut_serialize_length hb
    have h2 := ih hbs
    rw [flatten_cons,length_append,length_cons]
    omega

theorem tx_serialize_length {tx : CTransaction} {bytes : Bytes} (h : tx.serialize = some bytes) :
    10+41*tx.vin.length+9*tx.vout.length ≤ bytes.length := by
  obtain ⟨vout,hvout,rfl⟩ := map_eq_some_iff.mp h
  have h1 := txIns_serialize_length tx.vin
  have h2 := txOuts_serialize_length tx.vout hvout
  have h3 := (writeCompactSize_length tx.vin.length).1
  have h4 := (writeCompactSize_length tx.vout.length).1
  simp only [length_append,leBytes_length]
  omega

theorem txs_serialize_length (vtx : List CTransaction) {bytes : List Bytes}
    (h : vtx.mapM CTransaction.serialize = some bytes) (hvtx : ∀ tx ∈ vtx, CheckedCommon tx) :
    60*vtx.length ≤ (bytes.map List.length).sum := by
  induction vtx generalizing bytes with
  | nil => simp
  | cons tx vtx ih =>
    obtain ⟨htx,hrest⟩ := forall_mem_cons.mp hvtx
    rw [mapM_cons] at h
    obtain ⟨b,hb,h⟩ := bind_eq_some_iff.mp h
    obtain ⟨bs,hbs,h⟩ := bind_eq_some_iff.mp h
    cases h
    have h1 := tx_serialize_length hb
    have h2 := ih hbs hrest
    have h3 := length_pos_iff.mpr htx.vin
    have h4 := length_pos_iff.mpr htx.vout
    rw [map_cons,sum_cons,length_cons]
    omega

variable {block : CBlock} {cb : CTransaction} {txs : List CTransaction}

theorem CheckedBlock.txs_length (h : CheckedBlock block cb txs) : txs.length ≤ maxSize := by
  obtain ⟨size,hsize,hle⟩ := h.size
  obtain ⟨bytes,hbytes,rfl⟩ := map_eq_some_iff.mp hsize
  rw [h.vtx] at hbytes
  have hlen := txs_serialize_length _ hbytes h.common
  rw [length_cons] at hlen
  unfold maxConsensusBlockSize at hle
  unfold maxSize
  omega

theorem CheckedCommon.vin_length {tx : CTransaction} (h : CheckedCommon tx) : tx.vin.length ≤ maxSize := by
  obtain ⟨bytes,hbytes,hle⟩ := h.size
  have hlen := tx_serialize_length hbytes
  unfold maxTxSize at hle
  unfold maxSize
  omega
end Sizes

section Disk

variable {ctx : BlockContext} {block : CBlock} {cb : CTransaction} {txs : List CTransaction}
  {fees : List Int} {m m' : CoinMap} {undo : CBlockUndo}

theorem Connects.withBlock_stored (h : Connects ctx block cb txs fees m m' undo)
    (hm : ∀ x c, m x = some c → c.Stored) (hout : ∀ tx ∈ block.vtx, ∀ o ∈ tx.vout, o.Unserialized)
    {x : COutPoint} {c : Coin} (hx : m.withBlock ctx.nHeight (cb::txs) x = some c) : c.Stored := by
  rcases CoinMap.insertAll_cases hx with hmem | ⟨-,hmx⟩
  · obtain ⟨tx,htx,hc⟩ := mem_flatMap.mp hmem
    obtain ⟨n,o,hn,-,rfl,-⟩ := createdFrom_mem hc
    refine ⟨?_,hout tx (h.vtx ▸ htx) o (mem_of_getElem? hn)⟩
    simp only [Coin.ofOutput]
    split <;> omega
  · exact hm x c hmx

theorem Connects.undo_roundTrips (pk : PubKeyOps) (h : Connects ctx block cb txs fees m m' undo)
    (hrest : m.Restorable) (hpos : 0 < ctx.nHeight) (hlt : ctx.nHeight < 2^31)
    (hm : ∀ x c, m x = some c → c.Stored) (hout : ∀ tx ∈ block.vtx, ∀ o ∈ tx.vout, o.Unserialized) :
    RoundTrips (CBlockUndo.serialize pk) (CBlockUndo.unserialize pk) undo := by
  have hw := CoinMap.withBlock_restorable (cb::txs) hrest hpos hlt
  have htx : ∀ u ∈ undo.vtxundo, RoundTrips (CTxUndo.serialize pk) (CTxUndo.unserialize pk) u := by
    intro u hu
    rw [h.vtxundo] at hu
    obtain ⟨tx,htx,rfl⟩ := List.mem_map.mp hu
    obtain ⟨fee,hacc⟩ := accepts_of_mem h.accepts (mem_cons_of_mem cb htx)
    have hfee := hacc.1
    rw [txFee,if_neg (by simp [h.notCoinBase tx htx])] at hfee
    have hcoins : ∀ c ∈ ((m.withBlock ctx.nHeight (cb::txs)).undoOf tx).vprevout,
        RoundTrips (serializeTxInUndo pk) (unserializeTxInUndo pk) c := by
      intro c hc
      obtain ⟨i,hi,rfl⟩ := List.mem_map.mp hc
      have hsome := h.spends_some htx hi
      exact txInUndo_roundTrips pk (h.withBlock_stored hm hout hsome)
        ((checkTxInputs_ok hfee).1 i hi).2 (hw _ _ hsome).2
    have hlen : ((m.withBlock ctx.nHeight (cb::txs)).undoOf tx).vprevout.length ≤ maxSize := by
      simpa [CoinMap.undoOf] using (h.common tx (mem_cons_of_mem cb htx)).vin_length
    obtain ⟨s,hs,hread⟩ := vector_roundTrips hcoins hlen
    exact ⟨s,hs,fun rest => by simp [CTxUndo.unserialize,hread rest]⟩
  have hlen : undo.vtxundo.length ≤ maxSize := by
    rw [h.vtxundo,length_map]
    exact h.txs_length
  obtain ⟨s,hs,hread⟩ := vector_roundTrips htx hlen
  exact ⟨s,hs,fun rest => by simp [CBlockUndo.unserialize,hread rest]⟩
end Disk

/-- Disconnecting an accepted block restores the view, also with undo data read back from disk. -/
theorem applyBlockUndo_connectBlock (pk : PubKeyOps) {ctx : BlockContext} {block : CBlock}
    {view connected : CCoinsViewCache} {undo : CBlockUndo} (hwf : view.WF)
    (hcoins : ∀ x c, (view.getCoin x).1 = some c → c.getHeight ≠ 0 ∧ c.out.scriptPubKey.isUnspendable = false)
    (hpos : 0 < ctx.nHeight) (hlt : ctx.nHeight < 2^31) (hgen : block.hash ≠ ctx.hashGenesisBlock)
    (hfresh : ∀ tx ∈ block.vtx, ∀ x ∈ tx.outpoints, (view.getCoin x).1 = none)
    (haccept : connectBlock ctx block view = .ok (connected,undo)) :
    (∃ restored, applyBlockUndo undo block ctx.nHeight connected = .ok (.ok,restored) ∧
      (∀ x, (restored.getCoin x).1 = (view.getCoin x).1) ∧
      restored.getBestBlock.1 = view.getBestBlock.1) ∧
    ((∀ x c, (view.getCoin x).1 = some c → c.Stored) → (∀ tx ∈ block.vtx, ∀ o ∈ tx.vout, o.Unserialized) →
      ∃ bytes, undo.serialize pk = some bytes ∧
        ∀ rest, CBlockUndo.unserialize pk (bytes++rest) = some (undo,rest)) := by
  have hget : ∀ x, (view.getCoin x).1 = view.coins x := CCoinsViewCache.getCoin_eq hwf
  simp only [hget] at hcoins hfresh ⊢
  obtain ⟨hwf',hframe,hprev,cb,txs,fees,hc⟩ := connectBlock_ok hwf hgen (.inr hfresh) haccept
  refine ⟨?_,fun hm hout => hc.undo_roundTrips pk hcoins hpos hlt hm hout⟩
  have hconnected : ViewRel connected.frame (fun _ => False) connected connected.coins :=
    ⟨hwf',rfl,rfl,(fun _ hx => nomatch hx)⟩
  obtain ⟨v,hv,hrel⟩ := hc.applyBlockUndo_eq hcoins hpos hlt hconnected
  refine ⟨v,hv,fun x => ?_,?_⟩
  · rw [CCoinsViewCache.getCoin_eq hrel.wf,hrel.coins]
  · have h1 := (CCoinsViewCache.getBestBlock_spec hrel.wf).1
    have h2 := (CCoinsViewCache.getBestBlock_spec hwf).1
    rw [h1,h2,CCoinsViewCache.bestBlock_eq,hrel.frame,hframe]
    rw [hprev,CCoinsViewCache.bestBlock_eq]
    by_cases h0 : view.frame.1 = 0
    · rw [if_pos h0]
      exact ite_self _
    · rw [if_neg h0,if_neg h0]

private def undoSpend (x : COutPoint) (nValue : Int) (id : TxId) : CTransaction :=
  ⟨[⟨x,[],0⟩],[⟨nValue,[0x51],none⟩],2,0,id⟩

private def undoBlock : CBlock := ⟨⟨1,1,5,0,0,0,2⟩,[⟨[⟨⟨0,outPointNullIndex⟩,[1,2],0⟩],[⟨50,[0x51],none⟩],2,0,20⟩,
    undoSpend ⟨21,0⟩ 800 22,undoSpend ⟨9,0⟩ 900 21]⟩

private def undoContext : BlockContext := { BlockContext.lenient 7 with fEnforceBIP30 := false }

private def undoView : CCoinsViewCache :=
  CCoinsViewCache.ofBase (.map (fun x =>
    if x = ⟨9,0⟩ then some (Coin.ofOutput ⟨1000,[0x51],none⟩ 3 false) else none) 1)

private theorem undoView_WF : undoView.WF := by
  apply CCoinsViewCache.ofBase_WF
  trivial

private theorem undoView_coin {x : COutPoint} {c : Coin} (h : (undoView.getCoin x).1 = some c) :
    c = Coin.ofOutput ⟨1000,[0x51],none⟩ 3 false := by
  rw [CCoinsViewCache.getCoin_eq undoView_WF,undoView,CCoinsViewCache.ofBase_coins] at h
  dsimp only [CCoinsView.coins] at h
  split at h
  · exact (some.inj h).symm
  · cases h

theorem applyBlockUndo_connectBlock_sample :
    ∃ connected undo restored bytes, connectBlock undoContext undoBlock undoView = .ok (connected,undo) ∧
      applyBlockUndo undo undoBlock 7 connected = .ok (.ok,restored) ∧
      (∀ x, (restored.getCoin x).1 = (undoView.getCoin x).1) ∧
      undo.serialize generatorKeys = some bytes ∧ CBlockUndo.unserialize generatorKeys bytes = some (undo,[]) := by
  obtain ⟨⟨connected,undo⟩,hr⟩ : ∃ r, connectBlock undoContext undoBlock undoView = .ok r := ⟨_,rfl⟩
  obtain ⟨⟨v,hv,hsame,-⟩,hdisk⟩ := applyBlockUndo_connectBlock generatorKeys undoView_WF
    (fun x c hc => by rw [undoView_coin hc]; decide) (by decide) (by decide) (by decide) (by decide) hr
  obtain ⟨bytes,hbytes,hread⟩ := hdisk
    (fun x c hc => by rw [undoView_coin hc]; exact ⟨by decide,[0x51],rfl⟩)
    (by
      have hout : ∀ tx ∈ undoBlock.vtx, ∀ o ∈ tx.vout,
          unwrapScriptPubKey o.scriptPubKey = (o.tokenData,o.scriptPubKey) := by decide
      exact fun tx htx o ho => ⟨_,hout tx htx o ho⟩)
  exact ⟨connected,undo,v,bytes,hr,hv,hsame,hbytes,by simpa using hread []⟩
end BitfiniteCore
