import BitfiniteCore.Chain.AblaStep
import Mathlib.Tactic.Linarith

/-! # The look-ahead limit -/

namespace BitfiniteCore

namespace AblaState

variable (st : AblaState) (config : AblaConfig)

def lookaheadLoop : Nat → AblaState → Except Stop AblaState
  | 0, lookaheadState => .ok lookaheadState
  | count+1, lookaheadState =>
    (lookaheadState.getNextBlockSizeLimit config).bind fun maxSize =>
    (lookaheadState.nextBlockState config maxSize).bind (lookaheadLoop count)

def calcLookaheadBlockSizeLimit (count : Nat) : Except Stop Nat :=
  (lookaheadLoop config count st).map getBlockSizeLimit

inductive Advanced (size : Nat) : AblaState → Prop
  | first : Advanced size (ofConfig config size)
  | next {st st' : AblaState} {blockSize : Nat} (h : Advanced size st)
      (hnext : st.nextBlockState config blockSize = .ok st') : Advanced size st'

def limitsInForce : AblaState → List Nat → Except Stop (List Nat)
  | _, [] => .ok []
  | st, blockSize::blockSizes =>
    (st.getNextBlockSizeLimit config).bind fun limit =>
    (st.nextBlockState config blockSize).bind fun st => (limitsInForce st blockSizes).map (limit::·)
end AblaState

def defaultAbla : AblaConfig := ⟨16000000,16000000,37938,192,37938,10,2837960626724546304,9459868755748488064⟩

theorem makeDefault_eq : AblaConfig.makeDefault 32000000 false = .ok defaultAbla := by
  simp [AblaConfig.makeDefault,AblaConfig.setMax,u64Div,u64Mul,u64Sub,u64Add,Except.bind,Except.map,defaultAbla]

theorem defaultAbla_safe : defaultAbla.Safe := by
  constructor <;> simp [defaultAbla]

section

variable {a b m : Nat}

theorem sub_share_le (ha : a ≤ m) (hb : b ≤ m) : a-b*a/m ≤ m-b := by
  rcases Nat.eq_zero_or_pos m with rfl | hm
  · omega
  obtain ⟨k,rfl⟩ := Nat.exists_eq_add_of_le ha
  rcases Nat.lt_or_ge b k with hbk | hkb
  · exact le_trans (Nat.sub_le _ _) (by omega)
  · obtain ⟨j,rfl⟩ := Nat.exists_eq_add_of_le hkb
    have hj : j ≤ (k+j)*a/(a+k) := by
      rw [Nat.le_div_iff_mul_le hm]
      have hjk := Nat.mul_le_mul_right k (by omega : j ≤ a)
      calc j*(a+k) = j*a+j*k := Nat.mul_add j a k
        _ ≤ j*a+a*k := by omega
        _ = (k+j)*a := by ring
    omega

theorem sub_share_ge (hm : 0 < m) (hb : b ≤ m) (hnear : 99*m ≤ 100*a) : 99*(m-b) ≤ 100*(a-b*a/m) := by
  obtain ⟨c,rfl⟩ := Nat.exists_eq_add_of_le hb
  have hshare : b*a/(b+c)*(b+c) ≤ b*a := Nat.div_mul_le_self _ _
  have hle : b*a/(b+c) ≤ a := Nat.div_le_of_le_mul (Nat.mul_le_mul_right a hb)
  obtain ⟨d,hd⟩ := Nat.exists_eq_add_of_le hle
  generalize b*a/(b+c) = s at *
  have hfinal : 99*c*(b+c) ≤ 100*d*(b+c) := by
    nlinarith
  have hcancel := Nat.le_of_mul_le_mul_right hfinal hm
  omega
end

section

variable {st s l : AblaState}

/-- What blocks of any sizes keep: the buffer is never much more than ten thirds of the control size. -/
structure InRatio (st : AblaState) : Prop where
  control : 16000000 ≤ st.controlBlockSize
  controlMax : st.controlBlockSize ≤ 2837960626724546304
  elastic : 16000000 ≤ st.elasticBufferSize
  elasticMax : st.elasticBufferSize ≤ 9459868755748488064
  ratio : 3*st.elasticBufferSize ≤ 10*st.controlBlockSize+200000

theorem InRatio.isValid (h : InRatio st) : st.isValid defaultAbla = true := by
  simp [AblaState.isValid,defaultAbla,h.control,h.controlMax,h.elastic,h.elasticMax]

def AblaState.fullGrowth (st : AblaState) : Nat :=
  192*(st.controlBlockSize+st.elasticBufferSize)/128-st.controlBlockSize-192*st.elasticBufferSize/128

theorem fullGrowth_bounds (st : AblaState) :
    st.controlBlockSize/2 ≤ st.fullGrowth ∧ st.fullGrowth ≤ (st.controlBlockSize+1)/2 := by
  unfold AblaState.fullGrowth
  omega

theorem growth_le (st : AblaState) : st.growth defaultAbla ≤ st.fullGrowth/37938 := by
  obtain ⟨hamplified,hbuffer,_,_⟩ := AblaState.growing defaultAbla_safe st
  exact Nat.div_le_div_right (sub_share_le (Nat.sub_le_sub_right hamplified _) (by omega))

theorem growth_full (hfull : st.controlBlockSize+st.elasticBufferSize ≤ st.blockSize) (hpos : 16000000 ≤ st.controlBlockSize) :
    st.growth defaultAbla = st.fullGrowth/37938 := by
  have hamplified : st.amplified defaultAbla = 192*(st.controlBlockSize+st.elasticBufferSize)/128 := by
    rw [AblaState.amplified,min_eq_right hfull]
    rfl
  rw [AblaState.growth,hamplified]
  show (_-_-192*st.elasticBufferSize/128*(192*(st.controlBlockSize+st.elasticBufferSize)/128-st.controlBlockSize)/
    (192*(st.controlBlockSize+st.elasticBufferSize)/128-st.controlBlockSize))/37938 = _
  rw [Nat.mul_div_cancel _ (by omega)]
  rfl

theorem ablaStep_cases (st : AblaState) (nextBlockSize : Nat) : (st.controlBlockSize < st.amplified defaultAbla ∧
      (st.exactNext defaultAbla nextBlockSize).controlBlockSize =
        min (st.controlBlockSize+st.growth defaultAbla) 2837960626724546304 ∧
      (st.exactNext defaultAbla nextBlockSize).elasticBufferSize = min (max (st.elasticBufferSize-
        st.elasticBufferSize/37938+st.growth defaultAbla*10) 16000000) 9459868755748488064) ∨
    (¬ st.controlBlockSize < st.amplified defaultAbla ∧
      (st.exactNext defaultAbla nextBlockSize).controlBlockSize = min (max (st.controlBlockSize-
        (st.controlBlockSize-st.amplified defaultAbla)/37938) 16000000) 2837960626724546304 ∧
      (st.exactNext defaultAbla nextBlockSize).elasticBufferSize =
        min (max (st.elasticBufferSize-st.elasticBufferSize/37938) 16000000) 9459868755748488064) := by
  by_cases hgrow : st.controlBlockSize < st.amplified defaultAbla
  · left
    refine ⟨hgrow,?_,?_⟩
    · rw [AblaState.exactNext,AblaState.exactControl,if_pos hgrow]
      rfl
    · rw [AblaState.exactNext,AblaState.exactElastic,if_pos hgrow]
      rfl
  · right
    refine ⟨hgrow,?_,?_⟩
    · rw [AblaState.exactNext,AblaState.exactControl,if_neg hgrow]
      rfl
    · rw [AblaState.exactNext,AblaState.exactElastic,if_neg hgrow]
      rfl

theorem InRatio.next (h : InRatio st) (nextBlockSize : Nat) : InRatio (st.exactNext defaultAbla nextBlockSize) := by
  obtain ⟨hc,hcmax,he,hemax,hratio⟩ := h
  have hgrowth := growth_le st
  obtain ⟨_,hfull⟩ := fullGrowth_bounds st
  rcases ablaStep_cases st nextBlockSize with ⟨_,hcontrol,helastic⟩ | ⟨_,hcontrol,helastic⟩
  · generalize st.growth defaultAbla = g at *
    generalize st.fullGrowth = f at *
    constructor <;> omega
  · have hdecline : (st.controlBlockSize-st.amplified defaultAbla)/37938 ≤ st.controlBlockSize/37938 :=
      Nat.div_le_div_right (Nat.sub_le _ _)
    generalize (st.controlBlockSize-st.amplified defaultAbla)/37938 = d at *
    constructor <;> omega

/-- A state of the loop after a block of the limit. -/
structure Ahead (l : AblaState) : Prop extends InRatio l where
  blockSize : l.blockSize = min (l.controlBlockSize+l.elasticBufferSize) 2000000000

theorem Ahead.next_of_le (hl : Ahead l) (hcap : l.controlBlockSize+l.elasticBufferSize ≤ 2000000000)
    (nextBlockSize : Nat) :
    (l.exactNext defaultAbla nextBlockSize).controlBlockSize = l.controlBlockSize+l.fullGrowth/37938 ∧
    (l.exactNext defaultAbla nextBlockSize).elasticBufferSize =
      max (l.elasticBufferSize-l.elasticBufferSize/37938+l.fullGrowth/37938*10) 16000000 := by
  obtain ⟨⟨hc,_,he,_,_⟩,hsize⟩ := hl
  rw [min_eq_left hcap] at hsize
  have hgrowth := growth_full hsize.ge hc
  have hamplified : l.amplified defaultAbla = 192*(l.controlBlockSize+l.elasticBufferSize)/128 := by
    rw [AblaState.amplified,hsize,min_self]
    rfl
  obtain ⟨_,hfull⟩ := fullGrowth_bounds l
  rw [← hgrowth]
  rcases ablaStep_cases l nextBlockSize with ⟨_,hcontrol,helastic⟩ | ⟨hgrow,_,_⟩
  · rw [hcontrol,helastic,hgrowth]
    omega
  · omega

theorem Ahead.stays (hl : Ahead l) (hcap : 2000000000 ≤ l.controlBlockSize+l.elasticBufferSize) (nextBlockSize : Nat) :
    2000000000 ≤ (l.exactNext defaultAbla nextBlockSize).controlBlockSize+
      (l.exactNext defaultAbla nextBlockSize).elasticBufferSize := by
  obtain ⟨⟨hc,_,he,_,hratio⟩,hsize⟩ := hl
  rw [min_eq_right hcap] at hsize
  have hamplified : l.amplified defaultAbla = 3000000000 := by
    rw [AblaState.amplified,hsize,min_eq_left hcap]
    rfl
  rcases ablaStep_cases l nextBlockSize with ⟨hgrow,hcontrol,helastic⟩ | ⟨hgrow,hcontrol,helastic⟩
  · rw [hcontrol,helastic]
    by_cases htrivial : 2000000000 ≤ l.controlBlockSize+(l.elasticBufferSize-l.elasticBufferSize/37938)
    · omega
    · -- The limit is only just above the cap, so the block is nearly full.
      have hnear : 99*(192*(l.controlBlockSize+l.elasticBufferSize)/128-l.controlBlockSize) ≤
          100*(3000000000-l.controlBlockSize) := by omega
      have hshare := sub_share_ge (b := 192*l.elasticBufferSize/128) (by omega) (by omega) hnear
      have hgrowth : l.growth defaultAbla = (3000000000-l.controlBlockSize-192*l.elasticBufferSize/128*
          (3000000000-l.controlBlockSize)/
          (192*(l.controlBlockSize+l.elasticBufferSize)/128-l.controlBlockSize))/37938 := by
        rw [AblaState.growth,hamplified]
        rfl
      generalize 3000000000-l.controlBlockSize-192*l.elasticBufferSize/128*(3000000000-l.controlBlockSize)/
        (192*(l.controlBlockSize+l.elasticBufferSize)/128-l.controlBlockSize) = scaled at hshare hgrowth
      rw [hgrowth]
      omega
  · rw [hcontrol,helastic]
    omega

def Dominated (s l : AblaState) : Prop :=
  (s.controlBlockSize = l.controlBlockSize ∧ s.elasticBufferSize = l.elasticBufferSize) ∨
    (s.controlBlockSize < l.controlBlockSize ∧ s.elasticBufferSize ≤ l.elasticBufferSize)

theorem decay_mono {a b : Nat} (h : a ≤ b) : a-a/37938 ≤ b-b/37938 := by omega

theorem Dominated.next (hd : Dominated s l) (hl : Ahead l)
    (hcap : l.controlBlockSize+l.elasticBufferSize ≤ 2000000000) (hs : InRatio s) (x y : Nat) :
    Dominated (s.exactNext defaultAbla x) (l.exactNext defaultAbla y) := by
  obtain ⟨hlcontrol,hlelastic⟩ := hl.next_of_le hcap y
  have hfull : s.fullGrowth ≤ l.fullGrowth := by
    rcases hd with ⟨hc,he⟩ | ⟨hc,_⟩
    · rw [AblaState.fullGrowth,AblaState.fullGrowth,hc,he]
    · have hsfull := (fullGrowth_bounds s).2
      have hlfull := (fullGrowth_bounds l).1
      omega
  have hgrowth : s.growth defaultAbla ≤ l.fullGrowth/37938 := le_trans (growth_le s) (Nat.div_le_div_right hfull)
  have hpos : 0 < l.fullGrowth/37938 := by
    have hlc := hl.control
    have hlfull := (fullGrowth_bounds l).1
    omega
  have hsmall : l.fullGrowth/37938 ≤ 2000000000 := by
    have hlfull := (fullGrowth_bounds l).2
    omega
  have hdecay : s.elasticBufferSize-s.elasticBufferSize/37938 ≤ l.elasticBufferSize-l.elasticBufferSize/37938 := by
    apply decay_mono
    rcases hd with ⟨_,he⟩ | ⟨_,he⟩
    · exact he.le
    · exact he
  have hlcap : l.elasticBufferSize-l.elasticBufferSize/37938 ≤ 2000000000 := le_trans (Nat.sub_le _ _) (by omega)
  have hsc := hs.control
  rw [Dominated,hlcontrol,hlelastic]
  generalize l.fullGrowth/37938 = full at *
  rcases ablaStep_cases s x with ⟨_,hcontrol,helastic⟩ | ⟨_,hcontrol,helastic⟩
  · rw [hcontrol,helastic]
    generalize s.growth defaultAbla = g at *
    rcases hd with ⟨hc,he⟩ | ⟨hc,_⟩
    · rw [hc,he]
      generalize l.elasticBufferSize-l.elasticBufferSize/37938 = decayed at *
      rcases Nat.eq_or_lt_of_le hgrowth with rfl | hlt
      · left
        omega
      · right
        omega
    · right
      generalize l.elasticBufferSize-l.elasticBufferSize/37938 = decayed at *
      generalize s.elasticBufferSize-s.elasticBufferSize/37938 = decayed' at *
      omega
  · rw [hcontrol,helastic]
    have hdecline := Nat.sub_le s.controlBlockSize ((s.controlBlockSize-s.amplified defaultAbla)/37938)
    have hle : s.controlBlockSize ≤ l.controlBlockSize := by
      rcases hd with ⟨hc,_⟩ | ⟨hc,_⟩
      · exact hc.le
      · exact hc.le
    generalize s.controlBlockSize-(s.controlBlockSize-s.amplified defaultAbla)/37938 = declined at *
    generalize l.elasticBufferSize-l.elasticBufferSize/37938 = decayed at *
    generalize s.elasticBufferSize-s.elasticBufferSize/37938 = decayed' at *
    right
    omega

def LimitCovers (l s : AblaState) : Prop := 2000000000 ≤ l.controlBlockSize+l.elasticBufferSize ∨ Dominated s l

theorem LimitCovers.next (h : LimitCovers l s) (hs : InRatio s) (hl : Ahead l) (x y : Nat) :
    LimitCovers (l.exactNext defaultAbla y) (s.exactNext defaultAbla x) := by
  rcases Nat.lt_or_ge (l.controlBlockSize+l.elasticBufferSize) 2000000000 with hlt | hge
  · exact .inr ((h.resolve_left (Nat.not_le_of_lt hlt)).next hl hlt.le hs x y)
  · exact .inl (hl.stays hge y)

theorem InRatio.limit_eq (h : InRatio st) :
    st.getBlockSizeLimit = min (st.controlBlockSize+st.elasticBufferSize) 2000000000 := by
  obtain ⟨_,hc,_,he,_⟩ := h
  rw [AblaState.getBlockSizeLimit,u64Add_of_lt (by omega)]

theorem LimitCovers.limit_le (h : LimitCovers l s) (hs : InRatio s) (hl : InRatio l) :
    s.getBlockSizeLimit ≤ l.getBlockSizeLimit := by
  rw [hs.limit_eq,hl.limit_eq]
  rw [LimitCovers,Dominated] at h
  omega

theorem Ahead.limit_le_next (hl : Ahead l) (y : Nat) :
    l.getBlockSizeLimit ≤ (l.exactNext defaultAbla y).getBlockSizeLimit := by
  rw [hl.limit_eq,(hl.next y).limit_eq]
  rcases Nat.lt_or_ge (l.controlBlockSize+l.elasticBufferSize) 2000000000 with hlt | hge
  · obtain ⟨hcontrol,helastic⟩ := hl.next_of_le hlt.le y
    obtain ⟨hfull,_⟩ := fullGrowth_bounds l
    obtain ⟨⟨hc,_,_,_,hratio⟩,_⟩ := hl
    rw [hcontrol,helastic]
    omega
  · have hstays := hl.stays hge y
    omega

theorem InRatio.next_eq (h : InRatio st) (x : Nat) :
    st.nextBlockState defaultAbla x = .ok (st.exactNext defaultAbla x) :=
  (AblaState.next_ok defaultAbla_safe h.isValid x).1

theorem InRatio.nextLimit_eq (h : InRatio st) (x : Nat) :
    st.getNextBlockSizeLimit defaultAbla = .ok (st.exactNext defaultAbla x).getBlockSizeLimit := by
  have hcontrol : (st.exactNext defaultAbla 0).controlBlockSize = (st.exactNext defaultAbla x).controlBlockSize := rfl
  have helastic : (st.exactNext defaultAbla 0).elasticBufferSize = (st.exactNext defaultAbla x).elasticBufferSize := rfl
  rw [AblaState.getNextBlockSizeLimit,h.next_eq,Except.map,AblaState.getBlockSizeLimit,AblaState.getBlockSizeLimit,
    hcontrol,helastic]

theorem InRatio.of_first (hc : st.controlBlockSize = 16000000) (he : st.elasticBufferSize = 16000000) : InRatio st := by
  constructor <;> omega

theorem InRatio.of_next (h : InRatio s) {x : Nat} (hnext : s.nextBlockState defaultAbla x = .ok st) : InRatio st := by
  rw [Except.ok.inj (hnext.symm.trans (h.next_eq x))]
  exact h.next x

theorem AblaState.Advanced.inRatio {size : Nat} (h : AblaState.Advanced defaultAbla size st) : InRatio st := by
  induction h with
  | first => exact .of_first rfl rfl
  | next _ hnext ih => exact ih.of_next hnext

def AblaState.aheadOf (l : AblaState) : AblaState :=
  l.exactNext defaultAbla (l.exactNext defaultAbla 0).getBlockSizeLimit

theorem InRatio.aheadOf (h : InRatio l) : Ahead l.aheadOf := by
  have hsize : l.aheadOf.blockSize = (l.exactNext defaultAbla 0).getBlockSizeLimit := rfl
  have hcontrol : l.aheadOf.controlBlockSize = (l.exactNext defaultAbla 0).controlBlockSize := rfl
  have helastic : l.aheadOf.elasticBufferSize = (l.exactNext defaultAbla 0).elasticBufferSize := rfl
  refine ⟨h.next _,?_⟩
  rw [hsize,(h.next 0).limit_eq,hcontrol,helastic]

theorem InRatio.lookaheadLoop_succ (h : InRatio l) (count : Nat) :
    AblaState.lookaheadLoop defaultAbla (count+1) l = AblaState.lookaheadLoop defaultAbla count l.aheadOf := by
  rw [AblaState.lookaheadLoop,h.nextLimit_eq 0,Except.bind,h.next_eq,Except.bind,AblaState.aheadOf]

theorem lookaheadLoop_ok (count : Nat) (h : InRatio l) : ∃ l', AblaState.lookaheadLoop defaultAbla count l = .ok l' ∧
      (Ahead l → l.getBlockSizeLimit ≤ l'.getBlockSizeLimit) := by
  induction count generalizing l with
  | zero => exact ⟨l,rfl,fun _ => le_refl _⟩
  | succ count ih =>
    obtain ⟨l',hl',hle⟩ := ih h.aheadOf.toInRatio
    refine ⟨l',?_,fun hahead => le_trans (hahead.limit_le_next _) (hle h.aheadOf)⟩
    rw [h.lookaheadLoop_succ,hl']

theorem limits_le_lookahead (blockSizes : List Nat) (count : Nat) (hcount : blockSizes.length ≤ count)
    (hl : InRatio l) (hs : InRatio s) (hcovers : ∀ x, LimitCovers l.aheadOf (s.exactNext defaultAbla x)) :
    ∃ limits l', AblaState.limitsInForce defaultAbla s blockSizes = .ok limits ∧
      AblaState.lookaheadLoop defaultAbla count l = .ok l' ∧ ∀ limit ∈ limits, limit ≤ l'.getBlockSizeLimit := by
  induction blockSizes generalizing count l s with
  | nil =>
    obtain ⟨l',hl',_⟩ := lookaheadLoop_ok count hl
    exact ⟨[],l',rfl,hl',nofun⟩
  | cons x blockSizes ih =>
    obtain ⟨count,rfl⟩ : ∃ count', count = count'+1 := Nat.exists_eq_succ_of_ne_zero (by
      rw [List.length_cons] at hcount
      omega)
    obtain ⟨limits,l',hlimits,hl',hle⟩ := ih count (Nat.le_of_succ_le_succ hcount) hl.aheadOf.toInRatio (hs.next x)
      fun y => (hcovers x).next (hs.next x) hl.aheadOf y _
    obtain ⟨l'',hl'',hmono⟩ := lookaheadLoop_ok count hl.aheadOf.toInRatio
    cases hl'.symm.trans hl''
    refine ⟨(s.exactNext defaultAbla x).getBlockSizeLimit::limits,l',?_,?_,?_⟩
    · rw [AblaState.limitsInForce,hs.nextLimit_eq x,Except.bind,hs.next_eq,Except.bind,hlimits,Except.map]
    · rw [hl.lookaheadLoop_succ,hl']
    · intro limit hlimit
      rcases List.mem_cons.mp hlimit with rfl | hlimit
      · exact le_trans ((hcovers x).limit_le (hs.next x) hl.aheadOf.toInRatio) (hmono hl.aheadOf)
      · exact hle limit hlimit
end

/-- The look-ahead limit is at least every limit in force for that many blocks, whatever their sizes. -/
theorem lookahead_bounds_limits {config : AblaConfig} (hconfig : AblaConfig.makeDefault 32000000 false = .ok config)
    {size : Nat} {st : AblaState} (hst : AblaState.Advanced config size st) (n : Nat) (blockSizes : List Nat)
    (hlength : blockSizes.length ≤ n) :
    ∃ limits bound, AblaState.limitsInForce config st blockSizes = .ok limits ∧
      st.calcLookaheadBlockSizeLimit config n = .ok bound ∧ ∀ limit ∈ limits, limit ≤ bound := by
  cases makeDefault_eq.symm.trans hconfig
  have hratio := hst.inRatio
  -- The first block advances both states alike, since its own size only counts from the next one on.
  have hcovers : ∀ x, LimitCovers st.aheadOf (st.exactNext defaultAbla x) := fun x => .inr (.inl ⟨rfl,rfl⟩)
  obtain ⟨limits,l',hlimits,hl',hle⟩ := limits_le_lookahead blockSizes n hlength hratio hratio hcovers
  refine ⟨limits,l'.getBlockSizeLimit,hlimits,?_,hle⟩
  rw [AblaState.calcLookaheadBlockSizeLimit,hl',Except.map]

theorem lookahead_bounds_limits_two : ∃ config, AblaConfig.makeDefault 32000000 false = .ok config ∧
    ∃ limits bound, AblaState.limitsInForce config (.ofConfig config 1000000) [0,32000000] = .ok limits ∧
      (AblaState.ofConfig config 1000000).calcLookaheadBlockSizeLimit config 2 = .ok bound ∧
      ∀ limit ∈ limits, limit ≤ bound :=
  ⟨defaultAbla,makeDefault_eq,lookahead_bounds_limits makeDefault_eq .first 2 [0,32000000] (le_refl 2)⟩
end BitfiniteCore
