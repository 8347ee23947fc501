import BitfiniteCore.Chain.Abla

/-! # One step of the block size limit -/

namespace BitfiniteCore

def u64Mul (x y : Nat) : Nat := x*y%2^64

def u64Div (x y : Nat) : Except Stop Nat := if y = 0 then .error (.runtimeError "division by zero") else .ok (x/y)

namespace AblaConfig

variable (config : AblaConfig)

def setMax : Except Stop AblaConfig :=
  (u64Div (2^64-1) config.zeta_xB7).bind fun quotient =>
  let maxSafeBlocksizeLimit := u64Mul quotient 128
  (u64Div (u64Mul (u64Sub config.zeta_xB7 128) config.thetaReciprocal) config.gammaReciprocal).bind fun ratio =>
  let maxElasticBufferRatioNumerator := u64Mul config.delta ratio
  let maxElasticBufferRatioDenominator := u64Add ratio 128
  (u64Div maxSafeBlocksizeLimit (u64Add maxElasticBufferRatioNumerator maxElasticBufferRatioDenominator)).map
    fun quotient =>
      let epsilonMax := u64Mul quotient maxElasticBufferRatioDenominator
      { config with epsilonMax, betaMax := u64Sub maxSafeBlocksizeLimit epsilonMax }

/-- `Config::IsValid`, with the text of the first failed check. -/
def isValid : Except Stop (Option String) :=
  if config.epsilonMax < config.epsilon0 then
    .ok "Error, initial control block size limit sanity check failed (epsilonMax)"
  else if config.betaMax < config.beta0 then
    .ok "Error, initial elastic buffer size sanity check failed (betaMax)"
  else if config.zeta_xB7 < 129 || 256 < config.zeta_xB7 then .ok "Error, zeta sanity check failed"
  else if config.gammaReciprocal < 9484 || 151744 < config.gammaReciprocal then
    .ok "Error, gammaReciprocal sanity check failed"
  else if u64Add config.delta 1 ≤ 0 || 32 < config.delta then .ok "Error, delta sanity check failed"
  else if config.thetaReciprocal < 9484 || 151744 < config.thetaReciprocal then
    .ok "Error, thetaReciprocal sanity check failed"
  else (muldiv config.gammaReciprocal 128 (u64Sub config.zeta_xB7 128)).map fun least =>
    if config.epsilon0 < least then
      some "Error, epsilon0 sanity check failed. Too low relative to gamma and zeta."
    else none

def makeDefault (defaultBlockSize : Nat) (fixedSize : Bool) : Except Stop AblaConfig :=
  let ret : AblaConfig := ⟨defaultBlockSize/2,defaultBlockSize/2,37938,192,37938,10,0,0⟩
  if !fixedSize then ret.setMax else .ok { ret with epsilonMax := ret.epsilon0, betaMax := ret.beta0 }
end AblaConfig

def checkedAdd (x y : Nat) : Except Stop Nat := if x+y < 2^64 then .ok (x+y) else .error .overflow

def checkedSub (x y : Nat) : Except Stop Nat := if y ≤ x then .ok (x-y) else .error .overflow

def checkedMul (x y : Nat) : Except Stop Nat := if x*y < 2^64 then .ok (x*y) else .error .overflow

def checkedDiv (x y : Nat) : Except Stop Nat := if y = 0 then .error .overflow else .ok (x/y)

namespace AblaState

variable (st : AblaState) (config : AblaConfig)

def checkedControl (amplifiedCurrentBlockSize : Nat) : Except Stop Nat :=
  if st.controlBlockSize < amplifiedCurrentBlockSize then
    (checkedSub amplifiedCurrentBlockSize st.controlBlockSize).bind fun bytesToAdd =>
    (checkedAdd st.controlBlockSize st.elasticBufferSize).bind fun blockSizeLimit =>
    (muldiv config.zeta_xB7 blockSizeLimit 128).bind fun amplifiedBlockSizeLimit =>
    (checkedSub amplifiedBlockSizeLimit st.controlBlockSize).bind fun bytesMax =>
    (muldiv config.zeta_xB7 st.elasticBufferSize 128).bind fun amplifiedBuffer =>
    (muldiv amplifiedBuffer bytesToAdd bytesMax).bind fun scalingOffset =>
    (checkedSub bytesToAdd scalingOffset).bind fun scaled =>
    (checkedDiv scaled config.gammaReciprocal).bind fun growth => checkedAdd st.controlBlockSize growth
  else
    (checkedSub st.controlBlockSize amplifiedCurrentBlockSize).bind fun bytesToRemove =>
    (checkedDiv bytesToRemove config.gammaReciprocal).bind fun decline =>
    (checkedSub st.controlBlockSize decline).map (max · config.epsilon0)

def checkedElastic (amplifiedCurrentBlockSize controlBlockSize : Nat) : Except Stop Nat :=
  (checkedDiv st.elasticBufferSize config.thetaReciprocal).bind fun bufferDecay =>
  if st.controlBlockSize < amplifiedCurrentBlockSize then
    (checkedSub controlBlockSize st.controlBlockSize).bind fun growth =>
    (checkedMul growth config.delta).bind fun bytesToAdd =>
    (checkedSub st.elasticBufferSize bufferDecay).bind fun decayed => checkedAdd decayed bytesToAdd
  else checkedSub st.elasticBufferSize bufferDecay

/-- `NextBlockState` that stops where an operation would wrap around. -/
def checkedNext (nextBlockSize : Nat) : Except Stop AblaState :=
  (checkedAdd st.controlBlockSize st.elasticBufferSize).bind fun blockSizeLimit =>
  (muldiv config.zeta_xB7 (min st.blockSize blockSizeLimit) 128).bind fun amplifiedCurrentBlockSize =>
  (st.checkedControl config amplifiedCurrentBlockSize).bind fun controlBlockSize =>
  (st.checkedElastic config amplifiedCurrentBlockSize controlBlockSize).bind fun elasticBufferSize =>
  let ret : AblaState := ⟨nextBlockSize,min controlBlockSize config.epsilonMax,
    min (max elasticBufferSize config.beta0) config.betaMax⟩
  if ret.isValid config then .ok ret else .error (.assertion "ret.IsValid(config)")

def amplified : Nat := config.zeta_xB7*min st.blockSize (st.controlBlockSize+st.elasticBufferSize)/128

def growth : Nat := (st.amplified config-st.controlBlockSize-
    config.zeta_xB7*st.elasticBufferSize/128*(st.amplified config-st.controlBlockSize)/
      (config.zeta_xB7*(st.controlBlockSize+st.elasticBufferSize)/128-st.controlBlockSize))/config.gammaReciprocal

def exactControl : Nat :=
  if st.controlBlockSize < st.amplified config then st.controlBlockSize+st.growth config
  else max (st.controlBlockSize-(st.controlBlockSize-st.amplified config)/config.gammaReciprocal) config.epsilon0

def exactElastic : Nat :=
  if st.controlBlockSize < st.amplified config then
    st.elasticBufferSize-st.elasticBufferSize/config.thetaReciprocal+st.growth config*config.delta
  else st.elasticBufferSize-st.elasticBufferSize/config.thetaReciprocal

def exactNext (nextBlockSize : Nat) : AblaState := ⟨nextBlockSize,min (st.exactControl config) config.epsilonMax,
    min (max (st.exactElastic config) config.beta0) config.betaMax⟩
end AblaState

/-- What the bounds of a step need from a configuration. -/
structure AblaConfig.Safe (config : AblaConfig) : Prop where
  epsilon : config.epsilon0 ≤ config.epsilonMax
  beta : config.beta0 ≤ config.betaMax
  zeta : 129 ≤ config.zeta_xB7
  gamma : 9484 ≤ config.gammaReciprocal
  theta : 9484 ≤ config.thetaReciprocal
  delta : config.delta ≤ 32
  limit : config.zeta_xB7*(config.epsilonMax+config.betaMax) ≤ (2^64-1)*128

section

variable {config : AblaConfig} {st : AblaState} {x y z : Nat}

theorem u64Add_of_lt (h : x+y < 2^64) : u64Add x y = x+y := Nat.mod_eq_of_lt h

theorem u64Sub_of_le (hx : x < 2^64) (h : y ≤ x) : u64Sub x y = x-y := by
  unfold u64Sub
  omega

theorem u64Mul_of_lt (h : x*y < 2^64) : u64Mul x y = x*y := Nat.mod_eq_of_lt h

theorem muldiv_ok (hz : 0 < z) (h : x*y/z ≤ 2^64-1) : muldiv x y z = .ok (x*y/z) := by
  rw [muldiv,if_neg (by omega),if_neg (by omega)]

theorem AblaConfig.isValid_ranges (hvalid : config.isValid = .ok none) :
    config.epsilon0 ≤ config.epsilonMax ∧ config.beta0 ≤ config.betaMax ∧ 129 ≤ config.zeta_xB7 ∧
      config.zeta_xB7 ≤ 256 ∧ 9484 ≤ config.gammaReciprocal ∧ config.gammaReciprocal ≤ 151744 ∧
      9484 ≤ config.thetaReciprocal ∧ config.thetaReciprocal ≤ 151744 ∧ config.delta ≤ 32 := by
  rw [AblaConfig.isValid] at hvalid
  simp only [Bool.or_eq_true,decide_eq_true_eq] at hvalid
  split_ifs at hvalid
  -- Only the last case is without a text.
  · simp at hvalid
  · simp at hvalid
  · simp at hvalid
  · simp at hvalid
  · simp at hvalid
  · simp at hvalid
  · omega

theorem AblaConfig.setMax_sum (hset : config.setMax = .ok config) (hzeta : 129 ≤ config.zeta_xB7)
    (hzeta' : config.zeta_xB7 ≤ 256) (hgamma : 9484 ≤ config.gammaReciprocal)
    (htheta : config.thetaReciprocal ≤ 151744) (hdelta : config.delta ≤ 32) :
    config.epsilonMax+config.betaMax = (2^64-1)/config.zeta_xB7*128 := by
  have hquot : (2^64-1)/config.zeta_xB7 ≤ (2^64-1)/129 := Nat.div_le_div_left hzeta (by decide)
  have hsafe : u64Mul ((2^64-1)/config.zeta_xB7) 128 = (2^64-1)/config.zeta_xB7*128 := u64Mul_of_lt (by omega)
  have hprod : (config.zeta_xB7-128)*config.thetaReciprocal ≤ 128*151744 :=
    Nat.mul_le_mul (by omega) htheta
  have hmul : u64Mul (u64Sub config.zeta_xB7 128) config.thetaReciprocal =
      (config.zeta_xB7-128)*config.thetaReciprocal := by
    have hsub : u64Sub config.zeta_xB7 128 = config.zeta_xB7-128 := u64Sub_of_le (by omega) (by omega)
    rw [hsub]
    exact u64Mul_of_lt (lt_of_le_of_lt hprod (by decide))
  have hscaled : 128*151744 ≤ config.gammaReciprocal*2048 := by omega
  have hratio : (config.zeta_xB7-128)*config.thetaReciprocal/config.gammaReciprocal ≤ 2048 :=
    Nat.div_le_of_le_mul (le_trans hprod hscaled)
  have hnum := Nat.mul_le_mul hdelta hratio
  rw [AblaConfig.setMax,u64Div,if_neg (by omega)] at hset
  simp only [Except.bind,hsafe,hmul,u64Div,if_neg (by omega : ¬ config.gammaReciprocal = 0)] at hset
  generalize (config.zeta_xB7-128)*config.thetaReciprocal/config.gammaReciprocal = ratio at hratio hnum hset
  have hlt : (2^64-1)/config.zeta_xB7*128 < 2^64 := by omega
  generalize (2^64-1)/config.zeta_xB7*128 = safe at hset hlt ⊢
  rw [u64Add_of_lt (by omega : ratio+128 < 2^64),u64Mul_of_lt (by omega : config.delta*ratio < 2^64),
    u64Add_of_lt (by omega : config.delta*ratio+(ratio+128) < 2^64),if_neg (by omega)] at hset
  have hmax : safe/(config.delta*ratio+(ratio+128))*(ratio+128) ≤ safe :=
    le_trans (Nat.mul_le_mul_left _ (Nat.le_add_left _ _)) (Nat.div_mul_le_self _ _)
  simp only [Except.map,u64Mul_of_lt (lt_of_le_of_lt hmax hlt),u64Sub_of_le hlt hmax] at hset
  have hepsilon := congrArg AblaConfig.epsilonMax (Except.ok.inj hset)
  have hbeta := congrArg AblaConfig.betaMax (Except.ok.inj hset)
  dsimp only at hepsilon hbeta
  omega

theorem AblaConfig.safe (hvalid : config.isValid = .ok none) (hset : config.setMax = .ok config) : config.Safe := by
  obtain ⟨hepsilon,hbeta,hzeta,hzeta',hgamma,_,htheta,htheta',hdelta⟩ := AblaConfig.isValid_ranges hvalid
  refine ⟨hepsilon,hbeta,hzeta,hgamma,htheta,hdelta,?_⟩
  rw [AblaConfig.setMax_sum hset hzeta hzeta' hgamma htheta' hdelta,← Nat.mul_assoc]
  exact Nat.mul_le_mul_right 128 (Nat.mul_div_le _ _)

section

variable (hconfig : config.Safe) (hst : st.isValid config = true)

include hst in
theorem AblaState.isValid_ranges : config.epsilon0 ≤ st.controlBlockSize ∧ st.controlBlockSize ≤ config.epsilonMax ∧
    config.beta0 ≤ st.elasticBufferSize ∧ st.elasticBufferSize ≤ config.betaMax := by
  simpa [AblaState.isValid,and_assoc] using hst

include hconfig hst in
theorem AblaState.limit_le : config.zeta_xB7*(st.controlBlockSize+st.elasticBufferSize) ≤ (2^64-1)*128 ∧
    129*(st.controlBlockSize+st.elasticBufferSize) ≤ (2^64-1)*128 := by
  obtain ⟨_,hc,_,he⟩ := AblaState.isValid_ranges hst
  have hlimit := le_trans (Nat.mul_le_mul_left config.zeta_xB7 (Nat.add_le_add hc he)) hconfig.limit
  exact ⟨hlimit,le_trans (Nat.mul_le_mul_right _ hconfig.zeta) hlimit⟩

include hconfig hst in
theorem AblaState.muldiv_limit (hx : x ≤ st.controlBlockSize+st.elasticBufferSize) :
    muldiv config.zeta_xB7 x 128 = .ok (config.zeta_xB7*x/128) := by
  apply muldiv_ok (by decide)
  have hle := le_trans (Nat.mul_le_mul_left config.zeta_xB7 hx) (AblaState.limit_le hconfig hst).1
  omega

structure Growing (config : AblaConfig) (st : AblaState) : Prop where
  amplified : st.amplified config ≤ config.zeta_xB7*(st.controlBlockSize+st.elasticBufferSize)/128
  buffer : st.controlBlockSize+config.zeta_xB7*st.elasticBufferSize/128 ≤
    config.zeta_xB7*(st.controlBlockSize+st.elasticBufferSize)/128
  offset : config.zeta_xB7*st.elasticBufferSize/128*(st.amplified config-st.controlBlockSize)/
      (config.zeta_xB7*(st.controlBlockSize+st.elasticBufferSize)/128-st.controlBlockSize) ≤
    st.amplified config-st.controlBlockSize
  growth : st.growth config*9484 ≤ st.amplified config-st.controlBlockSize

include hconfig in
theorem AblaState.growing (st : AblaState) : Growing config st := by
  have hzeta := hconfig.zeta
  have hamplified : st.amplified config ≤ config.zeta_xB7*(st.controlBlockSize+st.elasticBufferSize)/128 :=
    Nat.div_le_div_right (Nat.mul_le_mul_left _ (min_le_right _ _))
  have hbuffer : st.controlBlockSize+config.zeta_xB7*st.elasticBufferSize/128 ≤
      config.zeta_xB7*(st.controlBlockSize+st.elasticBufferSize)/128 := by
    have hcontrol := Nat.mul_le_mul_right st.controlBlockSize (by omega : 128 ≤ config.zeta_xB7)
    rw [Nat.le_div_iff_mul_le (by decide),Nat.mul_add]
    omega
  have hoffset : config.zeta_xB7*st.elasticBufferSize/128*(st.amplified config-st.controlBlockSize)/
        (config.zeta_xB7*(st.controlBlockSize+st.elasticBufferSize)/128-st.controlBlockSize) ≤
      st.amplified config-st.controlBlockSize :=
    Nat.div_le_of_le_mul (Nat.mul_le_mul_right _ (by omega))
  refine ⟨hamplified,hbuffer,hoffset,?_⟩
  calc st.growth config*9484 ≤ st.growth config*config.gammaReciprocal := Nat.mul_le_mul_left _ hconfig.gamma
    _ ≤ _ := Nat.div_mul_le_self _ _
    _ ≤ st.amplified config-st.controlBlockSize := Nat.sub_le _ _

theorem checkedSub_ok (h : y ≤ x) : checkedSub x y = .ok (x-y) := if_pos h

theorem checkedAdd_ok (h : x+y < 2^64) : checkedAdd x y = .ok (x+y) := if_pos h

theorem checkedMul_ok (h : x*y < 2^64) : checkedMul x y = .ok (x*y) := if_pos h

theorem checkedDiv_ok (h : 9484 ≤ y) : checkedDiv x y = .ok (x/y) := if_neg (by omega)

theorem AblaState.nextControl_of {amplified limit buffer offset : Nat} (hgrow : st.controlBlockSize < amplified)
    (hlimit : muldiv config.zeta_xB7 (u64Add st.controlBlockSize st.elasticBufferSize) 128 = .ok limit)
    (hbuffer : muldiv config.zeta_xB7 st.elasticBufferSize 128 = .ok buffer)
    (hoffset : muldiv buffer (u64Sub amplified st.controlBlockSize) (u64Sub limit st.controlBlockSize) = .ok offset) :
    st.nextControlBlockSize config amplified = .ok (u64Add st.controlBlockSize
      (u64Sub (u64Sub amplified st.controlBlockSize) offset/config.gammaReciprocal)) := by
  rw [AblaState.nextControlBlockSize,if_pos hgrow,hlimit,Except.bind,hbuffer,Except.bind,hoffset,Except.map]

include hconfig hst in
theorem AblaState.control_growing (hgrow : st.controlBlockSize < st.amplified config) :
    st.nextControlBlockSize config (st.amplified config) = .ok (st.controlBlockSize+st.growth config) ∧
    st.checkedControl config (st.amplified config) = .ok (st.controlBlockSize+st.growth config) := by
  obtain ⟨hamplified,hbuffer,hoffset,hgrowth⟩ := AblaState.growing hconfig st
  obtain ⟨hlimit,hroom⟩ := AblaState.limit_le hconfig hst
  have hgamma := hconfig.gamma
  have hfits : config.zeta_xB7*(st.controlBlockSize+st.elasticBufferSize)/128 < 2^64 := by omega
  have hsum : st.controlBlockSize+st.elasticBufferSize < 2^64 := by omega
  have hcontrol : st.controlBlockSize+st.growth config < 2^64 := by omega
  have hmuldiv := AblaState.muldiv_limit hconfig hst (le_refl _)
  have hmuldiv' := AblaState.muldiv_limit hconfig hst (Nat.le_add_left st.elasticBufferSize st.controlBlockSize)
  rw [AblaState.growth] at hcontrol ⊢
  generalize config.zeta_xB7*(st.controlBlockSize+st.elasticBufferSize)/128 = amplifiedLimit at *
  generalize config.zeta_xB7*st.elasticBufferSize/128 = amplifiedBuffer at *
  generalize st.amplified config = amplified at *
  have hadd : amplified < 2^64 := by omega
  have hscaled : amplifiedBuffer*(amplified-st.controlBlockSize)/(amplifiedLimit-st.controlBlockSize) ≤ 2^64-1 := by
    omega
  have hoff := muldiv_ok (by omega : 0 < amplifiedLimit-st.controlBlockSize) hscaled
  have hsub : amplified-st.controlBlockSize < 2^64 := by omega
  have hle : st.controlBlockSize ≤ amplifiedLimit := by omega
  constructor
  · have hadd' := u64Sub_of_le hadd hgrow.le
    rw [← u64Add_of_lt hsum] at hmuldiv
    rw [← hadd',← u64Sub_of_le hfits hle] at hoff
    rw [AblaState.nextControl_of hgrow hmuldiv hmuldiv' hoff,u64Sub_of_le hfits hle,hadd',u64Sub_of_le hsub hoffset,
      u64Add_of_lt hcontrol]
  · simp only [AblaState.checkedControl,if_pos hgrow,checkedAdd_ok hsum,hmuldiv,hmuldiv',Except.bind,
      checkedSub_ok hgrow.le,checkedSub_ok hle,hoff,checkedSub_ok hoffset,checkedDiv_ok hgamma,checkedAdd_ok hcontrol]

include hconfig hst in
theorem AblaState.control_declining (hgrow : ¬ st.controlBlockSize < st.amplified config) :
    st.nextControlBlockSize config (st.amplified config) = .ok (st.exactControl config) ∧
    st.checkedControl config (st.amplified config) = .ok (st.exactControl config) := by
  have hroom := (AblaState.limit_le hconfig hst).2
  have hfits : st.controlBlockSize < 2^64 := by omega
  have hle : st.amplified config ≤ st.controlBlockSize := Nat.le_of_not_lt hgrow
  have hdecline : (st.controlBlockSize-st.amplified config)/config.gammaReciprocal ≤ st.controlBlockSize :=
    le_trans (Nat.div_le_self _ _) (Nat.sub_le _ _)
  have hexact : st.exactControl config = max (st.controlBlockSize-
      (st.controlBlockSize-st.amplified config)/config.gammaReciprocal) config.epsilon0 := if_neg hgrow
  rw [hexact]
  constructor
  · rw [← u64Sub_of_le hfits hdecline,← u64Sub_of_le hfits hle,AblaState.nextControlBlockSize,if_neg hgrow]
  · simp only [AblaState.checkedControl,if_neg hgrow,checkedSub_ok hle,Except.bind,checkedDiv_ok hconfig.gamma,
      checkedSub_ok hdecline,Except.map]

include hconfig hst in
theorem AblaState.control_ok : st.nextControlBlockSize config (st.amplified config) = .ok (st.exactControl config) ∧
    st.checkedControl config (st.amplified config) = .ok (st.exactControl config) := by
  by_cases hgrow : st.controlBlockSize < st.amplified config
  · have hexact : st.exactControl config = st.controlBlockSize+st.growth config := if_pos hgrow
    rw [hexact]
    exact AblaState.control_growing hconfig hst hgrow
  · exact AblaState.control_declining hconfig hst hgrow

def AblaState.nextElastic (st : AblaState) (config : AblaConfig) (amplified control : Nat) : Nat :=
  if st.controlBlockSize < amplified then
    u64Add (u64Sub st.elasticBufferSize (st.elasticBufferSize/config.thetaReciprocal))
      (u64Sub control st.controlBlockSize*config.delta%2^64)
  else u64Sub st.elasticBufferSize (st.elasticBufferSize/config.thetaReciprocal)

include hconfig hst in
theorem AblaState.elastic_ok :
    st.nextElastic config (st.amplified config) (st.exactControl config) = st.exactElastic config ∧
    st.checkedElastic config (st.amplified config) (st.exactControl config) = .ok (st.exactElastic config) := by
  obtain ⟨hlimit,hroom⟩ := AblaState.limit_le hconfig hst
  have hfits : st.elasticBufferSize < 2^64 := by omega
  have hdecay : st.elasticBufferSize/config.thetaReciprocal ≤ st.elasticBufferSize := Nat.div_le_self _ _
  by_cases hgrow : st.controlBlockSize < st.amplified config
  · obtain ⟨hamplified,_,_,hgrowth⟩ := AblaState.growing hconfig st
    have hmul := Nat.mul_le_mul_left (st.growth config) hconfig.delta
    have hcontrol : st.exactControl config = st.controlBlockSize+st.growth config := if_pos hgrow
    have hexact : st.exactElastic config = st.elasticBufferSize-st.elasticBufferSize/config.thetaReciprocal+
      st.growth config*config.delta := if_pos hgrow
    have hscaled : st.growth config*9484 ≤ 2^64-1 := by omega
    have hprod : st.growth config*config.delta ≤ 2^64/296 := by omega
    have hadd : st.elasticBufferSize-st.elasticBufferSize/config.thetaReciprocal+st.growth config*config.delta < 2^64 := by
      have hlarge : st.elasticBufferSize < 2^64-2^64/296 := by omega
      have hsub := Nat.sub_le st.elasticBufferSize (st.elasticBufferSize/config.thetaReciprocal)
      omega
    have hprod : st.growth config*config.delta < 2^64 := by omega
    have hle : st.controlBlockSize ≤ st.controlBlockSize+st.growth config := Nat.le_add_right _ _
    have hlt : st.controlBlockSize+st.growth config < 2^64 := by omega
    rw [hexact,hcontrol]
    constructor
    · rw [AblaState.nextElastic,if_pos hgrow,u64Sub_of_le hlt hle,Nat.add_sub_cancel_left,Nat.mod_eq_of_lt hprod,
        u64Sub_of_le hfits hdecay,u64Add_of_lt hadd]
    · have hsub := checkedSub_ok hle
      rw [Nat.add_sub_cancel_left] at hsub
      simp only [AblaState.checkedElastic,checkedDiv_ok hconfig.theta,Except.bind,if_pos hgrow,hsub,
        checkedMul_ok hprod,checkedSub_ok hdecay,checkedAdd_ok hadd]
  · have hexact : st.exactElastic config = st.elasticBufferSize-st.elasticBufferSize/config.thetaReciprocal :=
      if_neg hgrow
    rw [hexact]
    constructor
    · rw [AblaState.nextElastic,if_neg hgrow,u64Sub_of_le hfits hdecay]
    · simp only [AblaState.checkedElastic,checkedDiv_ok hconfig.theta,Except.bind,if_neg hgrow,checkedSub_ok hdecay]

include hconfig hst in
theorem AblaState.exactNext_isValid (nextBlockSize : Nat) : (st.exactNext config nextBlockSize).isValid config = true := by
  obtain ⟨hc,_,_,_⟩ := AblaState.isValid_ranges hst
  have hcontrol : config.epsilon0 ≤ st.exactControl config := by
    rw [AblaState.exactControl]
    split_ifs
    · omega
    · exact le_max_right _ _
  have hepsilon := hconfig.epsilon
  have hbeta := hconfig.beta
  simp [AblaState.exactNext,AblaState.isValid,hcontrol,hepsilon,hbeta]

theorem AblaState.nextBlockState_of {amplified control nextBlockSize : Nat} (hamplified : muldiv config.zeta_xB7
      (min st.blockSize (u64Add st.controlBlockSize st.elasticBufferSize)) 128 = .ok amplified)
    (hcontrol : st.nextControlBlockSize config amplified = .ok control)
    (hvalid : (AblaState.mk nextBlockSize (min control config.epsilonMax)
      (min (max (st.nextElastic config amplified control) config.beta0) config.betaMax)).isValid config = true) :
    st.nextBlockState config nextBlockSize = .ok ⟨nextBlockSize,min control config.epsilonMax,
      min (max (st.nextElastic config amplified control) config.beta0) config.betaMax⟩ := by
  rw [AblaState.nextBlockState,hamplified,Except.bind,hcontrol,Except.bind]
  exact if_pos hvalid

include hconfig hst in
theorem AblaState.next_ok (nextBlockSize : Nat) :
    st.nextBlockState config nextBlockSize = .ok (st.exactNext config nextBlockSize) ∧
    st.checkedNext config nextBlockSize = .ok (st.exactNext config nextBlockSize) := by
  have hroom := (AblaState.limit_le hconfig hst).2
  have hsum : st.controlBlockSize+st.elasticBufferSize < 2^64 := by omega
  have hvalid := AblaState.exactNext_isValid hconfig hst nextBlockSize
  have hamplified : muldiv config.zeta_xB7 (min st.blockSize (st.controlBlockSize+st.elasticBufferSize)) 128 =
      .ok (st.amplified config) := AblaState.muldiv_limit hconfig hst (min_le_right _ _)
  obtain ⟨hcontrol,hcontrol'⟩ := AblaState.control_ok hconfig hst
  obtain ⟨helastic,helastic'⟩ := AblaState.elastic_ok hconfig hst
  rw [AblaState.exactNext] at hvalid ⊢
  constructor
  · rw [← u64Add_of_lt hsum] at hamplified
    rw [← helastic] at hvalid ⊢
    exact AblaState.nextBlockState_of hamplified hcontrol hvalid
  · simp only [AblaState.checkedNext,checkedAdd_ok hsum,Except.bind,hamplified,hcontrol',helastic',if_pos hvalid]
end
end

/-- A step meets no assertion, wraps around nowhere and gives the result of the formula. -/
theorem nextBlockState_exact {config : AblaConfig} (hvalid : config.isValid = .ok none)
    (hset : config.setMax = .ok config) {st : AblaState} (hst : st.isValid config = true) (nextBlockSize : Nat) :
    st.nextBlockState config nextBlockSize = .ok (st.exactNext config nextBlockSize) ∧
    st.checkedNext config nextBlockSize = .ok (st.exactNext config nextBlockSize) ∧
    (st.exactNext config nextBlockSize).isValid config = true := by
  have hconfig := AblaConfig.safe hvalid hset
  obtain ⟨hnext,hchecked⟩ := AblaState.next_ok hconfig hst nextBlockSize
  exact ⟨hnext,hchecked,AblaState.exactNext_isValid hconfig hst nextBlockSize⟩

theorem nextBlockState_exact_default : ∃ config, AblaConfig.makeDefault 32000000 false = .ok config ∧
    config.isValid = .ok none ∧ config.setMax = .ok config ∧
    (AblaState.ofConfig config 32000000).nextBlockState config 1000000 = .ok ⟨1000000,16000210,16001679⟩ := by
  refine ⟨_,rfl,rfl,rfl,?_⟩
  rw [(nextBlockState_exact rfl rfl rfl 1000000).1]
  rfl
end BitfiniteCore
