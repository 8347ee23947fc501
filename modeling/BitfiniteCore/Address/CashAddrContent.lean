import BitfiniteCore.Address.CashAddr

/-! # The contents of cash addresses -/

namespace BitfiniteCore
open BitGroups List

section Regrouping

/-- The inner loop of `ConvertBits`: what it puts out, and the number of bits left. -/
def convertBitsDrain (tobits acc bits : Nat) : Bytes × Nat :=
  if 0 < tobits ∧ tobits ≤ bits then
    let r := convertBitsDrain tobits acc (bits-tobits)
    (UInt8.ofNat ((acc >>> (bits-tobits)) &&& (2^tobits-1))::r.1,r.2)
  else ([],bits)
termination_by bits
decreasing_by omega

/-- The loop of `ConvertBits`: what it puts out, and the accumulator and the number of bits left. -/
def convertBitsLoop (frombits tobits : Nat) : Bytes → Nat → Nat → Bytes × Nat × Nat
  | [], acc, bits => ([],acc,bits)
  | it::rest, acc, bits =>
    let acc := ((acc <<< frombits) ||| it.toNat) &&& (2^(frombits+tobits-1)-1)
    let d := convertBitsDrain tobits acc (bits+frombits)
    let r := convertBitsLoop frombits tobits rest acc d.2
    (d.1++r.1,r.2)

/-- `none` is the return value false. -/
def convertBits (frombits tobits : Nat) (pad : Bool) (input : Bytes) : Option Bytes :=
  let r := convertBitsLoop frombits tobits input 0 0
  let acc := r.2.1
  let bits := r.2.2
  let last := (acc <<< (tobits-bits)) &&& (2^tobits-1)
  if pad then some (r.1++(if bits ≠ 0 then [UInt8.ofNat last] else []))
  else if bits ≥ frombits ∨ last ≠ 0 then none
  else some r.1

def valueBits (w : Nat) (v : Bytes) : List Bool := groups w (v.map UInt8.toNat)

theorem valueBits_append (w : Nat) (v v' : Bytes) : valueBits w (v++v') = valueBits w v++valueBits w v' := by
  simp [valueBits]

private theorem ofNat_toNat_group {tobits x : Nat} (hto : tobits ≤ 8) : (UInt8.ofNat (x &&& (2^tobits-1))).toNat = x%2^tobits := by
  have hpow : 2^tobits ≤ 2^8 := Nat.pow_le_pow_right (by omega) hto
  rw [Nat.and_two_pow_sub_one_eq_mod,UInt8.toNat_ofNat',Nat.mod_eq_of_lt (by omega)]

private theorem convertBitsDrain_spec {tobits : Nat} (h0 : 0 < tobits) (h8 : tobits ≤ 8) (acc bits : Nat) :
    toBits bits acc = valueBits tobits (convertBitsDrain tobits acc bits).1++toBits (convertBitsDrain tobits acc bits).2 acc ∧
    (convertBitsDrain tobits acc bits).2 < tobits ∧ ∀ d ∈ (convertBitsDrain tobits acc bits).1, d.toNat < 2^tobits := by
  induction bits using Nat.strong_induction_on with
  | _ bits ih =>
    rw [convertBitsDrain]
    by_cases hle : tobits ≤ bits
    · have hrest := ih (bits-tobits) (by omega)
      have hval := ofNat_toNat_group (x := acc >>> (bits-tobits)) h8
      rw [if_pos ⟨h0,hle⟩]
      refine ⟨?_,hrest.2.1,?_⟩
      · have hsplit := toBits_add tobits (bits-tobits) acc
        rw [show tobits+(bits-tobits) = bits by omega] at hsplit
        rw [hsplit,hrest.1,← Nat.shiftRight_eq_div_pow]
        simp only [valueBits,map_cons,groups_cons,hval,toBits_mod le_rfl,append_assoc]
      · intro d hd
        rcases mem_cons.mp hd with rfl | hd
        · rw [hval]
          exact Nat.mod_lt _ (Nat.two_pow_pos tobits)
        · exact hrest.2.2 d hd
    · rw [if_neg (by omega)]
      exact ⟨by simp [valueBits],by simpa using hle,by simp⟩

private theorem convertBitsLoop_spec {frombits tobits : Nat} (h0 : 0 < tobits) (h8 : tobits ≤ 8) (input : Bytes)
    (hin : ∀ d ∈ input, d.toNat < 2^frombits) (acc bits : Nat) (hbits : bits < tobits) :
    toBits bits acc++valueBits frombits input = valueBits tobits (convertBitsLoop frombits tobits input acc bits).1++
        toBits (convertBitsLoop frombits tobits input acc bits).2.2 (convertBitsLoop frombits tobits input acc bits).2.1 ∧
    (convertBitsLoop frombits tobits input acc bits).2.2 < tobits ∧
    ∀ d ∈ (convertBitsLoop frombits tobits input acc bits).1, d.toNat < 2^tobits := by
  induction input generalizing acc bits with
  | nil => simp [convertBitsLoop,valueBits,hbits]
  | cons it rest ih =>
    have hit := hin it (by simp)
    simp only [convertBitsLoop]
    have hacc : toBits (bits+frombits) (((acc <<< frombits) ||| it.toNat) &&& (2^(frombits+tobits-1)-1)) =
        toBits bits acc++toBits frombits it.toNat := by
      rw [Nat.and_two_pow_sub_one_eq_mod,toBits_mod (by omega),← Nat.shiftLeft_add_eq_or_of_lt hit,Nat.shiftLeft_eq,
        toBits_mul_add hit]
    generalize ((acc <<< frombits) ||| it.toNat) &&& (2^(frombits+tobits-1)-1) = acc' at hacc ⊢
    have hdrain := convertBitsDrain_spec h0 h8 acc' (bits+frombits)
    generalize convertBitsDrain tobits acc' (bits+frombits) = d at hdrain ⊢
    have hrest := ih (fun e he => hin e (by simp [he])) acc' d.2 hdrain.2.1
    refine ⟨?_,hrest.2.1,?_⟩
    · rw [valueBits_append,append_assoc,← hrest.1,← append_assoc,← hdrain.1,hacc]
      simp [valueBits]
    · intro e he
      exact (mem_append.mp he).elim (hdrain.2.2 e) (hrest.2.2 e)

theorem valueBits_rest {w : Nat} {v v' : Bytes} {z z' : List Bool} (hv : ∀ d ∈ v, d.toNat < 2^w)
    (hv' : ∀ d ∈ v', d.toNat < 2^w) (hz : z.length < w) (hz' : z'.length < w)
    (h : valueBits w v++z = valueBits w v'++z') : v = v' ∧ z = z' := by
  have hinj : Function.Injective UInt8.toNat := fun a b => UInt8.toNat_inj.mp
  have hmap : ∀ {l : Bytes}, (∀ d ∈ l, d.toNat < 2^w) → ∀ x ∈ l.map UInt8.toNat, x < 2^w := fun hl =>
    forall_mem_map.mpr hl
  obtain ⟨hsame,hrest⟩ := groups_rest (hmap hv) (hmap hv') hz hz' h
  exact ⟨hinj.list_map hsame,hrest⟩

theorem toBits_shifted {tobits bits : Nat} (hle : bits ≤ tobits) (acc : Nat) :
    toBits tobits (acc <<< (tobits-bits)) = toBits bits acc++replicate (tobits-bits) false := by
  have hmul := toBits_mul_add (f := tobits-bits) (v := 0) (Nat.two_pow_pos _) bits acc
  rwa [Nat.add_sub_cancel' hle,Nat.add_zero,← Nat.shiftLeft_eq,toBits_zero] at hmul

theorem convertBits_pad (frombits tobits : Nat) (h0 : 0 < tobits) (h8 : tobits ≤ 8) (input : Bytes)
    (hin : ∀ d ∈ input, d.toNat < 2^frombits) :
    ∃ out z, convertBits frombits tobits true input = some out ∧ (∀ d ∈ out, d.toNat < 2^tobits) ∧
      valueBits tobits out = valueBits frombits input++z ∧ (∀ b ∈ z, b = false) ∧ z.length < tobits := by
  have hloop := convertBitsLoop_spec h0 h8 input hin 0 0 h0
  simp only [convertBits,if_true]
  generalize convertBitsLoop frombits tobits input 0 0 = r at hloop ⊢
  obtain ⟨out,acc,bits⟩ := r
  obtain ⟨hspec,hlt,hout⟩ := hloop
  dsimp only at hspec hlt hout ⊢
  have hinput : valueBits frombits input = valueBits tobits out++toBits bits acc := by simpa [toBits] using hspec
  by_cases hzero : bits = 0
  · refine ⟨out,[],by simp [hzero],hout,?_,by simp,by simpa using h0⟩
    simp [hinput,hzero,toBits]
  · have hval := ofNat_toNat_group (x := acc <<< (tobits-bits)) h8
    refine ⟨out++[UInt8.ofNat ((acc <<< (tobits-bits)) &&& (2^tobits-1))],replicate (tobits-bits) false,
      by simp [hzero],?_,?_,?_,?_⟩
    · intro d hd
      rcases mem_append.mp hd with hd | hd
      · exact hout d hd
      · rw [mem_singleton.mp hd,hval]
        exact Nat.mod_lt _ (Nat.two_pow_pos tobits)
    · have hlast := toBits_shifted (show bits ≤ tobits by omega) acc
      rw [valueBits_append,hinput,append_assoc]
      simp only [valueBits,map_cons,map_nil,groups_cons,groups_nil,hval,toBits_mod le_rfl,hlast,append_nil]
    · intro b hb
      exact eq_of_mem_replicate hb
    · simp only [length_replicate]
      omega

theorem convertBits_exact (frombits tobits : Nat) (h0 : 0 < tobits) (h8 : tobits ≤ 8) (input out : Bytes)
    (hin : ∀ d ∈ input, d.toNat < 2^frombits) :
    convertBits frombits tobits false input = some out ↔
      (∀ d ∈ out, d.toNat < 2^tobits) ∧ ∃ z, valueBits frombits input = valueBits tobits out++z ∧
        (∀ b ∈ z, b = false) ∧ z.length < tobits ∧ z.length < frombits := by
  have hloop := convertBitsLoop_spec h0 h8 input hin 0 0 h0
  simp only [convertBits,Bool.false_eq_true,if_false]
  generalize convertBitsLoop frombits tobits input 0 0 = r at hloop ⊢
  obtain ⟨out',acc,bits⟩ := r
  obtain ⟨hspec,hlt,hout⟩ := hloop
  dsimp only at hspec hlt hout ⊢
  have hinput : valueBits frombits input = valueBits tobits out'++toBits bits acc := by simpa [toBits] using hspec
  have hlast : (acc <<< (tobits-bits)) &&& (2^tobits-1) = 0 ↔ ∀ b ∈ toBits bits acc, b = false := by
    rw [Nat.and_two_pow_sub_one_eq_mod,← toBits_eq_zero,toBits_shifted (show bits ≤ tobits by omega) acc]
    simp only [mem_append,mem_replicate]
    grind
  constructor
  · intro h
    split at h
    · cases h
    · rename_i hcond
      rw [not_or,not_not] at hcond
      cases h
      exact ⟨hout,toBits bits acc,hinput,hlast.mp hcond.2,by simpa using hlt,by simpa using hcond.1⟩
  · rintro ⟨hout2,z,hz,hzero,hzlt,hzfrom⟩
    rw [hinput] at hz
    obtain ⟨rfl,rfl⟩ := valueBits_rest hout hout2 (by simpa using hlt) hzlt hz
    rw [if_neg]
    rw [toBits_length] at hzfrom
    rw [not_or,not_not]
    exact ⟨by omega,hlast.mpr hzero⟩
end Regrouping

section Contents

structure CashAddrContent where
  type : UInt8
  hash : Bytes
deriving DecidableEq

def CashAddrContent.isNull (content : CashAddrContent) : Bool := content.hash.isEmpty

def encodedSize (bits : Nat) : Option UInt8 :=
  if bits = 160 then some 0
  else if bits = 192 then some 1
  else if bits = 224 then some 2
  else if bits = 256 then some 3
  else if bits = 320 then some 4
  else if bits = 384 then some 5
  else if bits = 448 then some 6
  else if bits = 512 then some 7
  else none

def packAddrData (id : Bytes) (type : UInt8) : Except Stop Bytes :=
  match encodedSize (id.length*8) with
  | none => .error (.runtimeError "Error packing cashaddr: invalid address length")
  | some encoded_size =>
    let version_byte := (type <<< 3) ||| encoded_size
    .ok ((convertBits 8 5 true (version_byte::id)).getD [])

def encodeCashAddr (pfx : Bytes) (content : CashAddrContent) : Except Stop Bytes :=
  (packAddrData content.hash content.type).map (cashAddrEncode pfx)

def nullContent : CashAddrContent := ⟨0,[]⟩

def hashSize (version : UInt8) : Nat := (20+4*(version &&& 0x03).toNat)*(if version &&& 0x04 ≠ 0 then 2 else 1)

def decodeCashAddrContent (addr expectedPrefix : Bytes) : Except Stop CashAddrContent :=
  match cashAddrDecode addr expectedPrefix with
  | .error e => .error e
  | .ok (pfx,payload) =>
    if pfx ≠ expectedPrefix then .ok nullContent
    else if payload = [] then .ok nullContent
    else
      match convertBits 5 8 false payload with
      | none => .ok nullContent
      | some [] => .error (.logicError "data[0]")
      | some (version::hash) =>
        if version &&& 0x80 ≠ 0 then .ok nullContent
        else if (version::hash).length ≠ hashSize version+1 then .ok nullContent
        else .ok ⟨(version >>> 3) &&& 0x1f,hash⟩

theorem convertBits_roundTrip (data : Bytes) : ∃ payload, convertBits 8 5 true data = some payload ∧ FiveBits payload ∧
    convertBits 5 8 false payload = some data := by
  have hin : ∀ d ∈ data, d.toNat < 2^8 := fun d _ => d.toNat_lt
  obtain ⟨payload,z,hout,hfive,hbits,hzero,hlen⟩ := convertBits_pad 8 5 (by decide) (by decide) data hin
  refine ⟨payload,hout,hfive,(convertBits_exact 5 8 (by decide) (by decide) payload data hfive).mpr ?_⟩
  exact ⟨hin,z,hbits,hzero,by omega,hlen⟩

theorem convertBits_unique {data payload : Bytes} (hp : FiveBits payload) (h : convertBits 5 8 false payload = some data) :
    convertBits 8 5 true data = some payload := by
  obtain ⟨-,z,hbits,hzero,-,hlen⟩ := (convertBits_exact 5 8 (by decide) (by decide) payload data hp).mp h
  obtain ⟨out,z',hout,hfive,hbits',hzero',hlen'⟩ := convertBits_pad 8 5 (by decide) (by decide) data
    (fun d _ => d.toNat_lt)
  have hcount := congrArg length hbits
  have hcount' := congrArg length hbits'
  simp only [valueBits,groups_length,length_append,length_map] at hcount hcount'
  have hz : z' = z := by
    apply padding_unique (w := 5) (n := 8*data.length) hzero' hzero hlen' hlen
    · rw [← hcount']
      exact Nat.dvd_mul_right 5 _
    · rw [← hcount]
      exact Nat.dvd_mul_right 5 _
  have hsame : valueBits 5 out++[] = valueBits 5 payload++[] := by
    rw [append_nil,append_nil]
    exact hbits'.trans ((congrArg _ hz).trans hbits.symm)
  rw [hout,(valueBits_rest hfive hp (by simp) (by simp) hsame).1]

private theorem version_decoded : ∀ version : UInt8, version &&& 0x80 = 0 →
    encodedSize (hashSize version*8) = some (version &&& 0x07) ∧
    ((((version >>> 3) &&& 0x1f) <<< 3) ||| (version &&& 0x07)) = version :=
  forall_byte (by decide +kernel)

private theorem version_encoded : ∀ type : Fin 16, ∀ size ∈ [20,24,28,32,40,48,56,64], ∃ code : Fin 8,
    encodedSize (size*8) = some (UInt8.ofNat code) ∧ ((UInt8.ofNat type <<< 3) ||| UInt8.ofNat code) &&& 0x80 = 0 ∧
    ((((UInt8.ofNat type <<< 3) ||| UInt8.ofNat code) >>> 3) &&& 0x1f) = UInt8.ofNat type ∧
    hashSize ((UInt8.ofNat type <<< 3) ||| UInt8.ofNat code) = size := by
  decide +kernel
end Contents

section Addresses

def canonicalAddress (pfx s : Bytes) : Bytes :=
  if charOf ':' ∈ s then s.map toLower else pfx++[charOf ':']++s.map toLower

theorem canonicalAddress_decoded {str pfx values : Bytes} (h : decodeValues str pfx = some (pfx,values)) :
    canonicalAddress pfx str = pfx++[charOf ':']++values.map fun c => cashAddrCharset.getD (c.toNat%32) 0 := by
  obtain ⟨s,hscan,hpfx,hvals,-⟩ := decodeValues_some h
  have hchars := (mapM_decodeChar hvals).2
  rw [hchars]
  rcases CashAddrScan.run_some hscan with ⟨hsize,hno⟩ | ⟨-,-,pre,rest,hstr,hsize,hne,hletters,-⟩
  · rw [canonicalAddress,if_neg hno,if_pos hsize]
    rfl
  · rw [Nat.zero_add] at hsize hne
    have hsep : toLower (charOf ':') = charOf ':' := by decide
    rw [if_neg (by rw [hsize]; exact hne)] at hpfx ⊢
    have hpre : pre.map toLower = pfx := by
      rw [hpfx,hsize,hstr,take_left]
      exact (map_congr_left fun c hc => lowerCase_letter (hletters c hc)).symm
    have hdrop : str.drop (s.prefixSize+1) = rest := by
      rw [hsize,hstr,append_cons]
      exact drop_left' (by simp)
    have hmem : charOf ':' ∈ str := by simp [hstr]
    rw [canonicalAddress,if_pos hmem,hdrop,hstr,map_append,map_cons,hpre,hsep]
    simp

theorem decodeCashAddrContent_some {addr pfx : Bytes} {content : CashAddrContent}
    (h : decodeCashAddrContent addr pfx = .ok content) (hnull : content.isNull = false) :
    ∃ values version, decodeValues addr pfx = some (pfx,values) ∧ 8 ≤ values.length ∧
      convertBits 5 8 false (values.take (values.length-8)) = some (version::content.hash) ∧ version &&& 0x80 = 0 ∧
      content.hash.length = hashSize version ∧ content.type = (version >>> 3) &&& 0x1f := by
  have hnot : ∀ {c}, Except.ok nullContent = (Except.ok c : Except Stop CashAddrContent) → c.isNull = false → False := by
    intro c hc hn
    rw [← Except.ok.inj hc] at hn
    cases hn
  rw [decodeCashAddrContent,cashAddrDecode] at h
  cases hvalues : decodeValues addr pfx with
  | none =>
    simp only [hvalues,if_true] at h
    split at h
    · exact (hnot h hnull).elim
    · exact (hnot h hnull).elim
  | some r =>
    obtain ⟨p,values⟩ := r
    simp only [hvalues] at h
    by_cases hlen : values.length < 8
    · simp [hlen] at h
    simp only [if_neg hlen] at h
    split at h
    · exact (hnot h hnull).elim
    rename_i hp
    split at h
    · exact (hnot h hnull).elim
    split at h
    · exact (hnot h hnull).elim
    · cases h
    · rename_i version hash hconv
      split at h
      · exact (hnot h hnull).elim
      rename_i hversion
      split at h
      · exact (hnot h hnull).elim
      rename_i hsize
      cases h
      refine ⟨values,version,by rw [not_not.mp hp],by omega,hconv,not_not.mp hversion,?_,rfl⟩
      have := not_not.mp hsize
      simpa using this

theorem verifyChecksum_split {pfx values : Bytes} (hv : FiveBits values) (hlen : 8 ≤ values.length)
    (h : verifyChecksum pfx values = true) :
    values = values.take (values.length-8)++createChecksum pfx (values.take (values.length-8)) := by
  have hpayload : FiveBits (values.take (values.length-8)) := fun d hd => hv d (mem_of_mem_take hd)
  have hcreate := verifyChecksum_create pfx _ hpayload
  have hsplit := take_append_drop (values.length-8) values
  have hlast : values.drop (values.length-8) = createChecksum pfx (values.take (values.length-8)) := by
    apply verifyChecksum_window (t := []) (fun d hd => hv d (mem_of_mem_drop hd)) (createChecksum_fiveBits _ _)
    · rw [createChecksum_length,length_drop]
      omega
    · rw [length_drop]
      omega
    · rw [append_nil,hsplit]
      exact h
    · rw [append_nil]
      exact hcreate
  rw [← hlast,hsplit]

/-- Every content has one address, up to case and the prefix that may be left out. -/
theorem cashAddr_one_to_one :
    (∀ (pfx : Bytes) (content : CashAddrContent), pfx ≠ [] → (∀ c ∈ pfx, isLower c = true) → content.type.toNat < 16 →
      content.hash.length ∈ [20,24,28,32,40,48,56,64] →
      ∃ s, encodeCashAddr pfx content = .ok s ∧ decodeCashAddrContent s pfx = .ok content) ∧
    ∀ (pfx s : Bytes) (content : CashAddrContent), decodeCashAddrContent s pfx = .ok content → content.isNull = false →
      encodeCashAddr pfx content = .ok (canonicalAddress pfx s) := by
  constructor
  · intro pfx content hne hlower htype hsize
    obtain ⟨code,hcode,hreserved,hdecoded,hhash⟩ := version_encoded ⟨content.type.toNat,htype⟩ _ hsize
    rw [UInt8.ofNat_toNat] at hreserved hdecoded hhash
    obtain ⟨payload,hpack,hfive,hback⟩ := convertBits_roundTrip (((content.type <<< 3) ||| UInt8.ofNat code)::content.hash)
    refine ⟨cashAddrEncode pfx payload,?_,?_⟩
    · rw [encodeCashAddr,packAddrData,hcode]
      dsimp only
      rw [hpack]
      rfl
    · have hpayload : payload ≠ [] := by
        rintro rfl
        cases hback
      have hlen := createChecksum_length pfx payload
      have hdec : cashAddrDecode (cashAddrEncode pfx payload) pfx = .ok (pfx,payload) := by
        rw [cashAddrDecode,decodeValues_encode hne hlower hfive]
        dsimp only
        rw [if_neg (by rw [length_append]; omega)]
        rw [length_append,hlen,Nat.add_sub_cancel,take_left]
      rw [decodeCashAddrContent,hdec]
      simp only [ne_eq,not_true_eq_false,if_false,hpayload,hback,hreserved,length_cons,hhash,hdecoded]
  · intro pfx s content hdec hnull
    obtain ⟨values,version,hvalues,hlen,hconv,hversion,hsize,htype⟩ := decodeCashAddrContent_some hdec hnull
    obtain ⟨scan,-,-,hvals,hver⟩ := decodeValues_some hvalues
    have hfive := (mapM_decodeChar hvals).1
    have hpack := convertBits_unique (fun d hd => hfive d (mem_of_mem_take hd)) hconv
    have htable := version_decoded version hversion
    have hsplit := verifyChecksum_split hfive hlen hver
    rw [encodeCashAddr,packAddrData,hsize,htable.1,htype]
    dsimp only
    rw [htable.2,hpack,canonicalAddress_decoded hvalues]
    simp only [Option.getD_some,Except.map,cashAddrEncode]
    rw [← hsplit]
end Addresses
end BitfiniteCore
