import BitfiniteCore.Chain.SkipList
import BitfiniteCore.Index.NeverSkips

/-! # Locators -/

namespace BitfiniteCore
open ParentTree BlockEntries List

structure CChain (α : Type*) where
  vChain : List (Option α) := []

namespace CChain

variable {α : Type*} [DecidableEq α] (s : BlockEntries α) (chain : CChain α)

/-- `operator[]`, for heights that are not negative. -/
def entry (nHeight : Nat) : Option α := (chain.vChain[nHeight]?).join

def tip : Option α := chain.vChain.getLast?.join

def height : Int := (chain.vChain.length : Int)-1

def contains (pindex : α) : Bool := chain.entry (s.nHeight pindex) == some pindex

def setTipLoop : Nat → Option α → List (Option α) → Except Stop (List (Option α))
  | _, none, vChain => .ok vChain
  | rounds, some pindex, vChain =>
    if vChain[s.nHeight pindex]? = some (some pindex) then .ok vChain
    else match rounds with
      | 0 => .error (.runtimeError "rounds")
      | rounds+1 => setTipLoop rounds (s.pprev pindex) (vChain.set (s.nHeight pindex) (some pindex))

def setTip (pindex : Option α) : Except Stop (CChain α) :=
  match pindex with
  | none => .ok {}
  | some pindex =>
    let size := s.nHeight pindex+1
    (setTipLoop s size (some pindex) (chain.vChain.take size++replicate (size-chain.vChain.length) none)).map
      fun vChain => { vChain }

/-- The loop of `GetLocator`. -/
def locatorLoop : Nat → Nat → Nat → α → Except Stop (List α)
  | rounds, nStep, size, pindex =>
    if s.nHeight pindex = 0 then .ok [pindex]
    else match rounds with
      | 0 => .error (.runtimeError "rounds")
      | rounds+1 =>
        let nHeight := s.nHeight pindex-nStep
        (if chain.contains s pindex then .ok (chain.entry nHeight) else s.getAncestor pindex nHeight).bind fun
          | none => .ok [pindex]
          | some next => (locatorLoop rounds (if 10 < size+1 then 2*nStep else nStep) (size+1) next).map (pindex::·)

def getLocator (pindex : Option α) : Except Stop (List α) :=
  match pindex.or chain.tip with
  | none => .ok []
  | some pindex => locatorLoop s chain (s.nHeight pindex) 1 0 pindex

def findForkInGlobalIndex : List α → Except Stop (Option α)
  | [] => .ok (chain.entry 0)
  | hash::vHave =>
    if hash ∈ s.known then
      if chain.contains s hash then .ok (some hash)
      else (s.getAncestor hash chain.height).bind fun a =>
        if a = chain.tip then .ok chain.tip else findForkInGlobalIndex vHave
    else findForkInGlobalIndex vHave

inductive Set : CChain α → Prop
  | empty : Set {}
  | setTip {chain chain' : CChain α} {pindex : Option α} (h : Set chain) (hknown : ∀ x, pindex = some x → x ∈ s.known)
      (hset : chain.setTip s pindex = .ok chain') : Set chain'
end CChain

section Chain

variable {α : Type*} [DecidableEq α] {s : BlockEntries α} {chain : CChain α} {t x p q : α}

def Holds (h : Linked s) (v : List (Option α)) (t : α) : Prop :=
  v.length = s.nHeight t+1 ∧ ∀ k, k ≤ s.nHeight t → v[k]? = some (h.tree.getAncestor t k)

def Grown (h : Linked s) (v : List (Option α)) (bound : Nat) : Prop :=
  ∀ x, s.nHeight x < bound → v[s.nHeight x]? = some (some x) →
    ∀ k, k ≤ s.nHeight x → v[k]? = some (h.tree.getAncestor x k)

theorem setTipLoop_holds (h : Linked s) (rounds : Nat) (v : List (Option α)) (hq : h.tree.Anc q t)
    (hlen : v.length = s.nHeight t+1) (habove : ∀ k, s.nHeight q < k → k ≤ s.nHeight t →
      v[k]? = some (h.tree.getAncestor t k)) (hgrown : Grown h v (s.nHeight q+1)) (hrounds : s.nHeight q < rounds) :
    ∃ v', CChain.setTipLoop s rounds (some q) v = .ok v' ∧ Holds h v' t := by
  induction rounds generalizing q v with
  | zero => omega
  | succ rounds ih =>
    rw [CChain.setTipLoop]
    split_ifs with hplace
    · refine ⟨v,rfl,hlen,fun k hk => ?_⟩
      rcases Nat.lt_or_ge (s.nHeight q) k with hlt | hge
      · exact habove k hlt hk
      · rw [hgrown q (Nat.lt_succ_self _) hplace k hge,getAncestor_of_anc h.tree hq hge]
    · have hset : ∀ k, s.nHeight q ≤ k → k ≤ s.nHeight t →
          (v.set (s.nHeight q) (some q))[k]? = some (h.tree.getAncestor t k) := by
        intro k hk hkt
        rcases Nat.eq_or_lt_of_le hk with rfl | hlt
        · rw [getElem?_set_self (by omega)]
          congr 1
          symm
          exact getAncestor_eq_some.mpr ⟨hq,rfl⟩
        · rw [getElem?_set_ne (by omega)]
          exact habove k hlt hkt
      cases hp : s.pprev q with
      | none =>
        have h0 := h.height_root hp
        refine ⟨_,by rw [CChain.setTipLoop],?_,fun k hk => hset k (by omega) hk⟩
        rw [length_set]
        exact hlen
      | some p =>
        have hpar := h.height_parent hp
        have hpt : h.tree.Anc p t := (Anc.of_parent hp).trans hq
        apply ih (v.set (s.nHeight q) (some q)) hpt
        · rw [length_set]
          exact hlen
        · intro k hk hkt
          exact hset k (by omega) hkt
        · intro x hx hxv k hk
          rw [getElem?_set_ne (by omega)] at hxv ⊢
          exact hgrown x (by omega) hxv k hk
        · omega

theorem set_holds (hs : Skipping s) (hc : CChain.Set s chain) :
    chain.vChain = [] ∨ ∃ t, t ∈ s.known ∧ Holds hs.toLinked chain.vChain t := by
  induction hc with
  | empty => exact .inl rfl
  | @setTip chain chain' pindex _ hknown hset ih =>
    cases pindex with
    | none =>
      cases hset
      exact .inl rfl
    | some t =>
      right
      refine ⟨t,hknown t rfl,?_⟩
      have hlen : (chain.vChain.take (s.nHeight t+1)++
          replicate (s.nHeight t+1-chain.vChain.length) none).length = s.nHeight t+1 := by
        rw [length_append,length_take,length_replicate]
        omega
      have hgrown : Grown hs.toLinked (chain.vChain.take (s.nHeight t+1)++
          replicate (s.nHeight t+1-chain.vChain.length) none) (s.nHeight t+1) := by
        intro x hx hxv k hk
        rcases ih with hempty | ⟨t0,_,hlen0,hholds⟩
        · rw [hempty,take_nil,nil_append,getElem?_replicate] at hxv
          split_ifs at hxv
          cases hxv
        · have hx0 : s.nHeight x < chain.vChain.length := by
            by_contra hge
            rw [getElem?_append_right (by rw [length_take]; omega),getElem?_replicate] at hxv
            split_ifs at hxv
            cases hxv
          have hold : ∀ j, j ≤ s.nHeight x → (chain.vChain.take (s.nHeight t+1)++
              replicate (s.nHeight t+1-chain.vChain.length) none)[j]? =
                some (hs.toLinked.tree.getAncestor t0 j) := by
            intro j hj
            rw [getElem?_append_left (by rw [length_take]; omega),getElem?_take_of_lt (by omega)]
            exact hholds j (by omega)
          rw [hold _ (le_refl _)] at hxv
          have hanc := (getAncestor_eq_some.mp (Option.some.inj hxv)).1
          rw [hold k hk,getAncestor_of_anc hs.toLinked.tree hanc hk]
      obtain ⟨v,hv,hholds⟩ := setTipLoop_holds hs.toLinked (s.nHeight t+1) _ (.refl t) hlen (fun k hk hk' => by omega)
        hgrown (Nat.lt_succ_self _)
      simp only [CChain.setTip,hv,Except.map] at hset
      cases hset
      exact hholds

variable {h : Linked s}

omit [DecidableEq α] in
theorem Holds.entry (hc : Holds h chain.vChain t) (k : Nat) : chain.entry k = h.tree.getAncestor t k := by
  rw [CChain.entry]
  by_cases hk : k ≤ s.nHeight t
  · rw [hc.2 k hk]
    rfl
  · rw [getElem?_eq_none (by rw [hc.1]; omega)]
    cases ha : h.tree.getAncestor t k with
    | none => rfl
    | some a =>
      obtain ⟨hanc,hah⟩ := getAncestor_eq_some.mp ha
      have hle := hanc.height_le
      rw [hah] at hle
      exact absurd hle hk

theorem Holds.contains (hc : Holds h chain.vChain t) (x : α) : chain.contains s x = decide (h.tree.Anc x t) := by
  rw [CChain.contains,hc.entry,Bool.eq_iff_iff,beq_iff_eq,decide_eq_true_eq]
  exact getAncestor_anc

omit [DecidableEq α] in
theorem Holds.tip (hc : Holds h chain.vChain t) : chain.tip = some t := by
  rw [CChain.tip,getLast?_eq_getElem?,hc.1,Nat.add_sub_cancel,hc.2 _ (le_refl _)]
  exact getAncestor_eq_some.mpr ⟨.refl t,rfl⟩

omit [DecidableEq α] in
theorem Holds.height (hc : Holds h chain.vChain t) : chain.height = s.nHeight t := by
  rw [CChain.height,hc.1]
  omega
end Chain

section Locator

variable {α : Type*} [DecidableEq α] {s : BlockEntries α} {chain : CChain α} {t p : α}

theorem locatorLoop_eq (hs : Skipping s) (hc : Holds hs.toLinked chain.vChain t) (rounds nStep size : Nat) (p : α)
    (hrounds : s.nHeight p ≤ rounds) (hstep : 0 < nStep) :
    CChain.locatorLoop s chain rounds nStep size p =
      .ok (BitfiniteCore.locatorLoop hs.toLinked.tree (some t) rounds nStep size p) := by
  induction rounds generalizing nStep size p with
  | zero =>
    rw [CChain.locatorLoop,if_pos (by omega)]
    rfl
  | succ rounds ih =>
    rw [CChain.locatorLoop,BitfiniteCore.locatorLoop]
    by_cases h0 : s.nHeight p = 0
    · rw [if_pos h0,if_pos (show hs.toLinked.tree.height p = 0 from h0)]
    rw [if_neg h0,if_neg (show hs.toLinked.tree.height p ≠ 0 from h0)]
    have hnext : (if chain.contains s p = true then Except.ok (chain.entry (s.nHeight p-nStep))
        else s.getAncestor p ((s.nHeight p-nStep : Nat) : Int)) =
        .ok (if hs.toLinked.tree.Anc p t then hs.toLinked.tree.getAncestor t (s.nHeight p-nStep)
          else hs.toLinked.tree.getAncestor p (s.nHeight p-nStep)) := by
      rw [hc.contains,hc.entry,hs.toLinked.getAncestor_eq hs.up]
      by_cases hanc : hs.toLinked.tree.Anc p t <;> simp [hanc]
    dsimp only
    rw [hnext]
    have hsame : (if hs.toLinked.tree.Anc p t then hs.toLinked.tree.getAncestor t (s.nHeight p-nStep)
        else hs.toLinked.tree.getAncestor p (s.nHeight p-nStep)) =
          hs.toLinked.tree.getAncestor p (s.nHeight p-nStep) := by
      split_ifs with hanc
      · exact getAncestor_of_anc hs.toLinked.tree hanc (Nat.sub_le _ _)
      · rfl
    change Except.bind (.ok _) _ = .ok (match (if hs.toLinked.tree.Anc p t then hs.toLinked.tree.getAncestor t
      (s.nHeight p-nStep) else hs.toLinked.tree.getAncestor p (s.nHeight p-nStep)) with | none => _ | some _ => _)
    rw [hsame]
    obtain ⟨a,ha,_,hah⟩ := exists_getAncestor (T := hs.toLinked.tree) (b := p) (h := s.nHeight p-nStep) (Nat.sub_le _ _)
    rw [ha]
    have hah' : s.nHeight a = s.nHeight p-nStep := hah
    have hih := ih (if 10 < size+1 then 2*nStep else nStep) (size+1) a (by omega) (by split_ifs <;> omega)
    simp only [Except.bind,hih,Except.map]
end Locator

section Distance

variable {α : Type*} [DecidableEq α] {T : ParentTree α}

theorem locatorLoop_succ (tip : Option α) (rounds nStep size : Nat) (p : α) (h0 : T.height p ≠ 0) :
    ∃ a, T.Anc a p ∧ T.height a = T.height p-nStep ∧ locatorLoop T tip (rounds+1) nStep size p =
      p::locatorLoop T tip rounds (if 10 < size+1 then 2*nStep else nStep) (size+1) a := by
  obtain ⟨a,ha,hanc,hah⟩ := exists_getAncestor (T := T) (b := p) (h := T.height p-nStep) (Nat.sub_le _ _)
  refine ⟨a,hanc,hah,?_⟩
  rw [locatorLoop,if_neg h0]
  cases tip with
  | none =>
    dsimp only
    rw [ha]
  | some t =>
    have hsame : (if T.Anc p t then T.getAncestor t (T.height p-nStep) else T.getAncestor p (T.height p-nStep)) =
        some a := by
      split_ifs with hpt
      · rw [getAncestor_of_anc T hpt (Nat.sub_le _ _),ha]
      · exact ha
    dsimp only
    rw [hsame]

theorem locatorLoop_last (tip : Option α) (rounds nStep size : Nat) (p : α) (hrounds : T.height p ≤ rounds) (hstep : 0 < nStep) :
    ∃ g, (locatorLoop T tip rounds nStep size p).getLast? = some g ∧ T.height g = 0 := by
  induction rounds generalizing nStep size p with
  | zero => exact ⟨p,rfl,by omega⟩
  | succ rounds ih =>
    by_cases h0 : T.height p = 0
    · rw [locatorLoop,if_pos h0]
      exact ⟨p,rfl,h0⟩
    · obtain ⟨a,_,hah,heq⟩ := locatorLoop_succ tip rounds nStep size p h0
      obtain ⟨g,hg,hg0⟩ := ih (if 10 < size+1 then 2*nStep else nStep) (size+1) a (by omega) (by split_ifs <;> omega)
      refine ⟨g,?_,hg0⟩
      rw [heq,getLast?_cons,hg]
      rfl

/-- Single steps at first; then every step is as long as the way so far, but for nine. -/
def StepAt (offset nStep size : Nat) : Prop :=
  size ≤ 10 ∧ nStep = 1 ∧ offset = size ∨ 11 ≤ size ∧ offset = 9+nStep ∧ 2 ≤ nStep

theorem StepAt.next {offset nStep size : Nat} (h : StepAt offset nStep size) :
    StepAt (offset+nStep) (if 10 < size+1 then 2*nStep else nStep) (size+1) := by
  unfold StepAt at h ⊢
  split_ifs <;> omega

theorem locatorLoop_near (tip : Option α) (rounds nStep size : Nat) {p fork : α} {top : Nat} (hfork : T.Anc fork p)
    (hrounds : T.height p ≤ rounds) (htop : T.height p ≤ top) (hstep : StepAt (top-T.height p) nStep size) :
    ∃ before x after, locatorLoop T tip rounds nStep size p = before++x::after ∧ T.Anc x fork ∧
      (∀ y ∈ before, T.Anc fork y ∧ y ≠ fork) ∧ top-T.height x ≤ 2*(top-T.height fork) ∧
      (top-T.height fork ≤ 11 → x = fork) := by
  induction rounds generalizing nStep size p with
  | zero =>
    have hp : fork = p := hfork.eq_of_height_le (by omega)
    exact ⟨[],p,[],rfl,hp ▸ .refl _,nofun,by rw [hp]; omega,fun _ => hp.symm⟩
  | succ rounds ih =>
    by_cases hp : fork = p
    · subst hp
      by_cases h0 : T.height fork = 0
      · rw [locatorLoop,if_pos h0]
        exact ⟨[],fork,[],rfl,.refl _,nofun,by omega,fun _ => rfl⟩
      · obtain ⟨a,_,_,heq⟩ := locatorLoop_succ tip rounds nStep size fork h0
        exact ⟨[],fork,_,heq,.refl _,nofun,by omega,fun _ => rfl⟩
    · have hlt : T.height fork < T.height p := by
        by_contra hge
        exact hp (hfork.eq_of_height_le (Nat.le_of_not_lt hge))
      have h0 : T.height p ≠ 0 := by omega
      obtain ⟨a,hap,hah,heq⟩ := locatorLoop_succ tip rounds nStep size p h0
      rcases Nat.lt_or_ge (T.height a) (T.height fork) with hover | hunder
      · -- the step goes past the fork, which only a doubled step can do
        have hxa : T.Anc a fork := hap.of_height_le hfork hover.le
        have hfirst : ∃ rest, locatorLoop T tip rounds (if 10 < size+1 then 2*nStep else nStep) (size+1) a = a::rest := by
          cases rounds with
          | zero => exact ⟨[],rfl⟩
          | succ rounds =>
            by_cases h0 : T.height a = 0
            · rw [locatorLoop,if_pos h0]
              exact ⟨[],rfl⟩
            · obtain ⟨b,_,_,hb⟩ := locatorLoop_succ tip rounds (if 10 < size+1 then 2*nStep else nStep)
                (size+1) a h0
              exact ⟨_,hb⟩
        obtain ⟨rest,hrest⟩ := hfirst
        refine ⟨[p],a,rest,by rw [heq,hrest]; rfl,hxa,?_,?_,?_⟩
        · intro y hy
          obtain rfl := mem_singleton.mp hy
          exact ⟨hfork,fun he => hp he.symm⟩
        · rcases hstep with ⟨_,rfl,_⟩ | ⟨_,hoff,_⟩
          · omega
          · omega
        · intro hd
          rcases hstep with ⟨_,rfl,_⟩ | ⟨_,hoff,_⟩
          · omega
          · omega
      · have hfa : T.Anc fork a := hfork.of_height_le hap hunder
        have hnext := hstep.next
        have hpos : 0 < nStep := by
          rcases hstep with ⟨_,rfl,_⟩ | ⟨_,_,h2⟩
          · exact Nat.one_pos
          · omega
        by_cases hfloor : nStep ≤ T.height p
        · have hoffset : top-T.height p+nStep = top-T.height a := by omega
          rw [hoffset] at hnext
          obtain ⟨before,x,after,hlist,hx,hbefore,hnear,hexact⟩ := ih _ _ hfa (by omega) (by omega) hnext
          refine ⟨p::before,x,after,by rw [heq,hlist]; rfl,hx,?_,hnear,hexact⟩
          intro y hy
          rcases mem_cons.mp hy with rfl | hy
          · exact ⟨hfork,fun he => hp he.symm⟩
          · exact hbefore y hy
        · -- the step would go below genesis, which is then the fork
          have ha0 : T.height a = 0 := by omega
          have hfa' : fork = a := hfa.eq_of_height_le (by omega)
          have hend : locatorLoop T tip rounds (if 10 < size+1 then 2*nStep else nStep) (size+1) a = [a] := by
            cases rounds with
            | zero => rfl
            | succ rounds => rw [locatorLoop,if_pos ha0]
          refine ⟨[p],a,[],by rw [heq,hend]; rfl,hfa' ▸ .refl _,?_,by rw [hfa']; omega,fun _ => hfa'.symm⟩
          intro y hy
          obtain rfl := mem_singleton.mp hy
          exact ⟨hfork,fun he => hp he.symm⟩
end Distance

section Fork

variable {α : Type*} [DecidableEq α] {s : BlockEntries α} {chain chain' : CChain α} {t t' p fork x : α}

theorem findFork_first (hs : Skipping s) (hc : Holds hs.toLinked chain.vChain t)
    (hfork : hs.toLinked.tree.lastCommonAncestor p t = some fork) (before after : List α)
    (hbefore : ∀ y ∈ before, y ∈ s.known ∧ hs.toLinked.tree.Anc y p ∧ hs.toLinked.tree.Anc fork y ∧ y ≠ fork)
    (hx : x ∈ s.known) (hxf : hs.toLinked.tree.Anc x fork) :
    chain.findForkInGlobalIndex s (before++x::after) = .ok (some x) ∨
      chain.findForkInGlobalIndex s (before++x::after) = .ok (some fork) := by
  obtain ⟨_,hft,hmax⟩ := lastCommonAncestor_eq_some.mp hfork
  induction before with
  | nil =>
    left
    rw [nil_append,CChain.findForkInGlobalIndex,if_pos hx,hc.contains,decide_eq_true (hxf.trans hft)]
    rfl
  | cons y before ih =>
    obtain ⟨hy,hyp,hfy,hne⟩ := hbefore y mem_cons_self
    have hnot : ¬ hs.toLinked.tree.Anc y t := fun hyt => hne ((hmax y hyp hyt).antisymm hfy)
    rw [cons_append,CChain.findForkInGlobalIndex,if_pos hy,hc.contains,decide_eq_false hnot,if_neg (by simp),
      hc.height,hs.toLinked.getAncestor_eq hs.up,hc.tip]
    simp only [Except.bind]
    split_ifs with htip
    · right
      have hty := (getAncestor_eq_some.mp htip).1
      rw [(hmax t (hty.trans hyp) (.refl t)).antisymm hft]
    · exact ih fun z hz => hbefore z (mem_cons_of_mem y hz)
end Fork

/-- The fork that a locator gives is the last common ancestor up to distance eleven, and at most twice as far beyond. -/
theorem locator_finds_fork {α : Type*} [DecidableEq α] {s : BlockEntries α} (hs : Built s) {chain chain' : CChain α}
    (hc : CChain.Set s chain) (hc' : CChain.Set s chain') (hne : chain.vChain ≠ []) (hne' : chain'.vChain ≠ [])
    {p : α} (hp : p ∈ s.known) :
    ∃ T : ParentTree α, T.parent = s.pprev ∧ T.height = s.nHeight ∧ ∃ t fork locator result,
      chain.tip = some t ∧ T.lastCommonAncestor p t = some fork ∧
      chain'.getLocator s (some p) = .ok locator ∧ (∃ g, locator.getLast? = some g ∧ s.pprev g = none) ∧
      chain.findForkInGlobalIndex s locator = .ok (some result) ∧ chain.contains s result = true ∧
      T.Anc result fork ∧ (s.nHeight p-s.nHeight fork ≤ 11 → result = fork) ∧
      s.nHeight p-s.nHeight result ≤ 2*(s.nHeight p-s.nHeight fork) := by
  have hk := hs.skipping
  obtain ⟨t,ht,hholds⟩ := (set_holds hk hc).resolve_left hne
  obtain ⟨t',_,hholds'⟩ := (set_holds hk hc').resolve_left hne'
  obtain ⟨fork,_,hfork⟩ := hk.lastCommonAncestor hp ht
  obtain ⟨hfp,hft,_⟩ := lastCommonAncestor_eq_some.mp hfork
  have hloc : chain'.getLocator s (some p) = .ok (locatorLoop hk.toLinked.tree (some t') (s.nHeight p) 1 0 p) :=
    locatorLoop_eq hk hholds' (s.nHeight p) 1 0 p (le_refl _) Nat.one_pos
  obtain ⟨g,hg,hg0⟩ := locatorLoop_last (T := hk.toLinked.tree) (some t') (s.nHeight p) 1 0 p (le_refl _) Nat.one_pos
  have hstep : StepAt (s.nHeight p-hk.toLinked.tree.height p) 1 0 := .inl ⟨by omega,rfl,Nat.sub_self _⟩
  obtain ⟨before,x,after,hlist,hxf,hbefore,hnear,hexact⟩ :=
    locatorLoop_near (some t') (s.nHeight p) 1 0 hfp (le_refl _) (le_refl _) hstep
  have hmem : ∀ y ∈ before, hk.toLinked.tree.Anc y p := by
    intro y hy
    apply locatorLoop_anc (s.nHeight p) 1 0 p
    rw [hlist]
    exact mem_append_left _ hy
  have hresult := findFork_first hk hholds hfork before after
    (fun y hy => ⟨hk.toLinked.known_of_anc (hmem y hy) hp,hmem y hy,hbefore y hy⟩)
    (hk.toLinked.known_of_anc (hxf.trans hfp) hp) hxf
  rw [← hlist] at hresult
  have hroot : s.pprev g = none := by
    cases hpg : s.pprev g with
    | none => rfl
    | some q =>
      have h1 := hk.height_parent hpg
      have h2 : s.nHeight g = 0 := hg0
      omega
  refine ⟨hk.toLinked.tree,rfl,rfl,t,fork,?_⟩
  rcases hresult with hr | hr
  · refine ⟨_,x,hholds.tip,hfork,hloc,⟨g,hg,hroot⟩,hr,?_,hxf,hexact,hnear⟩
    rw [hholds.contains,decide_eq_true (hxf.trans hft)]
  · refine ⟨_,fork,hholds.tip,hfork,hloc,⟨g,hg,hroot⟩,hr,?_,.refl _,fun _ => rfl,by omega⟩
    rw [hholds.contains,decide_eq_true hft]

theorem locator_finds_fork_branches : ∃ s : BlockEntries Nat, Built s ∧ s.known = [2,1,0] ∧
    ∃ chain chain' : CChain Nat, CChain.Set s chain ∧ CChain.Set s chain' ∧
      chain.vChain = [some 0,some 1] ∧ chain'.vChain = [some 0,some 2] ∧
      ∃ locator result fork, chain'.getLocator s (some 2) = .ok locator ∧
        chain.findForkInGlobalIndex s locator = .ok (some result) ∧
        ∃ T : ParentTree Nat, T.parent = s.pprev ∧ T.lastCommonAncestor 2 1 = some fork ∧ result = fork := by
  have h0 : Built (genesis 0) := .genesis 0
  have h1 := h0.insert (by decide) (by decide) (show (genesis 0).insert 1 0 = _ from rfl)
  have h2 := h1.insert (by decide) (by decide) (show BlockEntries.insert _ 2 0 = _ from rfl)
  have hset {s : BlockEntries Nat} {chain : CChain Nat} (_ : Built s) (t : Nat) (ht : t ∈ s.known)
      (h : CChain.setTip s {} (some t) = .ok chain) : CChain.Set s chain :=
    .setTip .empty (fun x hx => Option.some.inj hx ▸ ht) h
  have hc : CChain.Set _ (CChain.mk [some 0,some 1]) := hset h2 1 (by decide) rfl
  have hc' : CChain.Set _ (CChain.mk [some 0,some 2]) := hset h2 2 (by decide) rfl
  obtain ⟨T,hT,_,t,fork,locator,result,ht,hfork,hloc,_,hfind,_,_,hexact,_⟩ :=
    locator_finds_fork h2 hc hc' (by decide) (by decide) (p := 2) (by decide)
  obtain rfl : 1 = t := Option.some.inj ht
  refine ⟨_,h2,rfl,_,_,hc,hc',rfl,rfl,locator,result,fork,hloc,hfind,T,hT,hfork,hexact ?_⟩
  exact le_trans (Nat.sub_le _ _) (by decide)
end BitfiniteCore
