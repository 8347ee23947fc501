import Mathlib.Logic.Function.Iterate
import BitfiniteCore.Lib.ParentTree
import BitfiniteCore.Primitives.Amount

/-! # Skip pointers of the block index -/

namespace BitfiniteCore
open Function ParentTree List

def invertLowestOne (n : Nat) : Nat := n &&& (n-1)

def getSkipHeight (height : Nat) : Nat :=
  if height < 2 then 0
  else if height &&& 1 ≠ 0 then invertLowestOne (invertLowestOne (height-1))+1
  else invertLowestOne height

structure BlockEntries (α : Type*) where
  known : List α
  pprev : α → Option α
  nHeight : α → Nat
  pskip : α → Option α

namespace BlockEntries

variable {α : Type*} (s : BlockEntries α)

def ancestorLoop (height : Nat) : Nat → α → Nat → Except Stop α
  | 0, pindexWalk, heightWalk => if heightWalk ≤ height then .ok pindexWalk else .error (.runtimeError "rounds")
  | rounds+1, pindexWalk, heightWalk =>
    if heightWalk ≤ height then .ok pindexWalk
    else
      let heightSkip := getSkipHeight heightWalk
      let heightSkipPrev := getSkipHeight (heightWalk-1)
      match s.pskip pindexWalk,decide (heightSkip = height ∨
          height < heightSkip ∧ ¬(heightSkipPrev+2 < heightSkip ∧ height ≤ heightSkipPrev)) with
      | some pskip, true => ancestorLoop height rounds pskip heightSkip
      | _, _ =>
        match s.pprev pindexWalk with
        | none => .error (.assertion "pindexWalk->pprev")
        | some pprev => ancestorLoop height rounds pprev (heightWalk-1)

def getAncestor (pindex : α) (height : Int) : Except Stop (Option α) :=
  if s.nHeight pindex < height ∨ height < 0 then .ok none
  else (s.ancestorLoop height.toNat (s.nHeight pindex) pindex (s.nHeight pindex)).map some

variable [DecidableEq α]

def buildSkip (pindex : α) : Except Stop (BlockEntries α) :=
  match s.pprev pindex with
  | none => .ok s
  | some pprev => (s.getAncestor pprev (getSkipHeight (s.nHeight pindex))).map fun pskip =>
      { s with pskip := update s.pskip pindex pskip }

def insert (pindex pprev : α) : Except Stop (BlockEntries α) := buildSkip
    { known := pindex::s.known
      pprev := update s.pprev pindex (some pprev)
      nHeight := update s.nHeight pindex (s.nHeight pprev+1)
      pskip := update s.pskip pindex none } pindex

def genesis (pindex : α) : BlockEntries α := ⟨[pindex],fun _ => none,fun _ => 0,fun _ => none⟩

inductive Built : BlockEntries α → Prop
  | genesis (pindex : α) : Built (genesis pindex)
  | insert {s s' : BlockEntries α} {pindex pprev : α} (h : Built s) (hnew : pindex ∉ s.known)
      (hprev : pprev ∈ s.known) (hinsert : s.insert pindex pprev = .ok s') : Built s'

/-- The loop of `LastCommonAncestor`. -/
def commonLoop : Nat → Option α → Option α → Except Stop (Option α × Option α)
  | rounds, some pa, some pb =>
    if pa = pb then .ok (some pa,some pb)
    else match rounds with
      | 0 => .error (.runtimeError "rounds")
      | rounds+1 =>
        match s.pskip pa,s.pskip pb with
        | some sa, some sb =>
          if sa ≠ sb then
            if s.nHeight sa ≠ s.nHeight sb then .error (.assertion "pa->nHeight == pb->nHeight")
            else commonLoop rounds (some sa) (some sb)
          else commonLoop rounds (s.pprev pa) (s.pprev pb)
        | _, _ => commonLoop rounds (s.pprev pa) (s.pprev pb)
  | _, pa, pb => .ok (pa,pb)

def levelled (pa pb : α) : Except Stop (Option α × Option α) :=
  if s.nHeight pb < s.nHeight pa then (s.getAncestor pa (s.nHeight pb)).map fun pa => (pa,some pb)
  else if s.nHeight pa < s.nHeight pb then (s.getAncestor pb (s.nHeight pa)).map fun pb => (some pa,pb)
  else .ok (some pa,some pb)

def lastCommonAncestor (pa pb : α) : Except Stop (Option α) :=
  (s.levelled pa pb).bind fun p =>
    (s.commonLoop (min (s.nHeight pa) (s.nHeight pb)+1) p.1 p.2).bind fun p =>
      if p.1 = p.2 then .ok p.1 else .error (.assertion "pa == pb")

def areOnTheSameFork (pa pb : α) : Except Stop Bool := (s.levelled pa pb).map fun p => p.1 == p.2
end BlockEntries

theorem invertLowestOne_le (n : Nat) : invertLowestOne n ≤ n-1 := Nat.and_le_right

theorem getSkipHeight_lt {height : Nat} (h : 0 < height) : getSkipHeight height < height := by
  unfold getSkipHeight
  split_ifs with h2 hodd
  · exact h
  · have h1 := invertLowestOne_le (height-1)
    have h2' := invertLowestOne_le (invertLowestOne (height-1))
    omega
  · have h1 := invertLowestOne_le height
    omega

namespace BlockEntries

variable {α : Type*} {s s' : BlockEntries α} {a b c p x y : α}

structure Linked (s : BlockEntries α) : Prop where
  height_parent : ∀ {b p}, s.pprev b = some p → s.nHeight b = s.nHeight p+1
  height_root : ∀ {b}, s.pprev b = none → s.nHeight b = 0
  known : ∀ {b p}, s.pprev b = some p → b ∈ s.known ∧ p ∈ s.known
  root : ∀ {a b}, a ∈ s.known → b ∈ s.known → s.pprev a = none → s.pprev b = none → a = b

def Linked.tree (h : Linked s) : ParentTree α := ⟨s.pprev,s.nHeight,h.height_parent,h.height_root⟩

def Linked.SkipsUp (h : Linked s) : Prop :=
  ∀ {b q}, s.pskip b = some q → b ∈ s.known ∧ h.tree.Anc q b ∧ s.nHeight q = getSkipHeight (s.nHeight b) ∧
    s.nHeight q < s.nHeight b

variable (h : Linked s)

theorem Linked.ancestorLoop (hskip : h.SkipsUp) (height rounds : Nat) (walk : α)
    (hheight : height ≤ s.nHeight walk) (hrounds : s.nHeight walk ≤ height+rounds) :
    ∃ a, s.ancestorLoop height rounds walk (s.nHeight walk) = .ok a ∧ h.tree.Anc a walk ∧ s.nHeight a = height := by
  induction rounds generalizing walk with
  | zero =>
    refine ⟨walk,?_,.refl walk,by omega⟩
    rw [BlockEntries.ancestorLoop,if_pos (by omega)]
  | succ rounds ih =>
    rw [BlockEntries.ancestorLoop]
    split_ifs with hdone
    · exact ⟨walk,rfl,.refl walk,by omega⟩
    dsimp only
    split
    · rename_i q hq hcond
      obtain ⟨_,hanc,hq',hlt⟩ := hskip hq
      rw [decide_eq_true_eq] at hcond
      rw [← hq']
      obtain ⟨a,ha,haq,hah⟩ := ih q (by omega) (by omega)
      exact ⟨a,ha,haq.trans hanc,hah⟩
    · cases hp : s.pprev walk with
      | none =>
        have := h.height_root hp
        omega
      | some p =>
        have hpar := h.height_parent hp
        obtain ⟨a,ha,hap,hah⟩ := ih p (by omega) (by omega)
        have hwalk : s.nHeight walk-1 = s.nHeight p := by omega
        refine ⟨a,?_,hap.trans (.of_parent hp),hah⟩
        rw [← hwalk] at ha
        exact ha

theorem Linked.getAncestor_ok (hskip : h.SkipsUp) {height : Nat} (hh : height ≤ s.nHeight x) :
    ∃ a, s.getAncestor x height = .ok (some a) ∧ h.tree.getAncestor x height = some a ∧ h.tree.Anc a x ∧
      s.nHeight a = height := by
  obtain ⟨a,ha,hanc,hah⟩ := h.ancestorLoop hskip height (s.nHeight x) x hh (by omega)
  refine ⟨a,?_,getAncestor_eq_some.mpr ⟨hanc,hah⟩,hanc,hah⟩
  rw [getAncestor,if_neg (by omega),Int.toNat_natCast,ha]
  rfl

theorem Linked.getAncestor_eq (hskip : h.SkipsUp) (x : α) (height : Nat) :
    s.getAncestor x height = .ok (h.tree.getAncestor x height) := by
  by_cases hh : height ≤ s.nHeight x
  · obtain ⟨a,ha,ha',_⟩ := h.getAncestor_ok hskip hh
    rw [ha,ha']
  · rw [getAncestor,if_pos (by omega)]
    cases ha : h.tree.getAncestor x height with
    | none => rfl
    | some a =>
      obtain ⟨hanc,hah⟩ := getAncestor_eq_some.mp ha
      have hle := hanc.height_le
      rw [hah] at hle
      exact absurd hle hh

theorem Linked.known_of_anc (hab : h.tree.Anc a b) (hb : b ∈ s.known) : a ∈ s.known := by
  induction hab with
  | refl => exact hb
  | tail _ hp ih => exact ih (h.known hp).2

variable [DecidableEq α]

def attach (s : BlockEntries α) (b p : α) : BlockEntries α :=
  ⟨b::s.known,update s.pprev b (some p),update s.nHeight b (s.nHeight p+1),update s.pskip b none⟩

theorem Linked.attach_old (h : Linked s) (hb : b ∉ s.known) (hp : s.pprev x = some y) :
    (s.attach b p).pprev x = some y := by
  have hxb : x ≠ b := by
    rintro rfl
    exact hb (h.known hp).1
  exact (update_of_ne hxb _ _).trans hp

theorem attach_height (hb : b ∉ s.known) (hx : x ∈ s.known) : (s.attach b p).nHeight x = s.nHeight x := by
  have hxb : x ≠ b := by
    rintro rfl
    exact hb hx
  exact update_of_ne hxb _ _

theorem Linked.attach (h : Linked s) (hb : b ∉ s.known) (hp : p ∈ s.known) : Linked (s.attach b p) where
  height_parent {x y} hxy := by
    by_cases hxb : x = b
    · subst hxb
      obtain rfl : p = y := by simpa [BlockEntries.attach] using hxy
      rw [attach_height hb hp]
      simp [BlockEntries.attach]
    · have hxy' : s.pprev x = some y := by simpa [BlockEntries.attach,hxb] using hxy
      obtain ⟨hx,hy⟩ := h.known hxy'
      rw [attach_height hb hx,attach_height hb hy]
      exact h.height_parent hxy'
  height_root {x} hx := by
    by_cases hxb : x = b
    · subst hxb
      simp [BlockEntries.attach] at hx
    · have hx' : s.pprev x = none := by simpa [BlockEntries.attach,hxb] using hx
      simpa [BlockEntries.attach,hxb] using h.height_root hx'
  known {x y} hxy := by
    by_cases hxb : x = b
    · subst hxb
      obtain rfl : p = y := by simpa [BlockEntries.attach] using hxy
      exact ⟨mem_cons_self,mem_cons_of_mem _ hp⟩
    · obtain ⟨hx,hy⟩ := h.known (by simpa [BlockEntries.attach,hxb] using hxy)
      exact ⟨mem_cons_of_mem _ hx,mem_cons_of_mem _ hy⟩
  root {x y} hx hy hx0 hy0 := by
    have hold : ∀ z ∈ (s.attach b p).known, (s.attach b p).pprev z = none → z ∈ s.known ∧ s.pprev z = none := by
      intro z hz hz0
      rcases mem_cons.mp hz with rfl | hz
      · simp [BlockEntries.attach] at hz0
      · exact ⟨hz,by simpa [BlockEntries.attach,show z ≠ b from fun he => hb (he ▸ hz)] using hz0⟩
    obtain ⟨hx',hx0'⟩ := hold x hx hx0
    obtain ⟨hy',hy0'⟩ := hold y hy hy0
    exact h.root hx' hy' hx0' hy0'

theorem Linked.attach_anc (hb : b ∉ s.known) (hp : p ∈ s.known) (hxy : h.tree.Anc x y) :
    (h.attach hb hp).tree.Anc x y := by
  induction hxy with
  | refl => exact .refl _
  | tail _ hp' ih => exact ih.trans (.of_parent (h.attach_old hb hp'))

theorem Linked.attach_skipsUp (hskip : h.SkipsUp) (hb : b ∉ s.known) (hp : p ∈ s.known) :
    (h.attach hb hp).SkipsUp := by
  intro x q hq
  have hxb : x ≠ b := by
    rintro rfl
    simp [BlockEntries.attach] at hq
  have hq' : s.pskip x = some q := by simpa [BlockEntries.attach,hxb] using hq
  obtain ⟨hx,hanc,hheight,hlt⟩ := hskip hq'
  rw [attach_height hb hx,attach_height hb (h.known_of_anc hanc hx)]
  exact ⟨mem_cons_of_mem _ hx,h.attach_anc hb hp hanc,hheight,hlt⟩

theorem Linked.insert_ok (hskip : h.SkipsUp) (hb : b ∉ s.known) (hp : p ∈ s.known) :
    ∃ q, s.insert b p = .ok { s.attach b p with pskip := update s.pskip b (some q) } ∧
      (h.attach hb hp).tree.Anc q p ∧ (s.attach b p).nHeight q = getSkipHeight (s.nHeight p+1) := by
  have hpos : getSkipHeight (s.nHeight p+1) ≤ (s.attach b p).nHeight p := by
    rw [attach_height hb hp]
    exact Nat.lt_succ_iff.mp (getSkipHeight_lt (Nat.succ_pos _))
  obtain ⟨q,hq,_,hanc,hheight⟩ := (h.attach hb hp).getAncestor_ok (h.attach_skipsUp hskip hb hp) hpos
  refine ⟨q,?_,hanc,hheight⟩
  have hprev : (s.attach b p).pprev b = some p := by simp [BlockEntries.attach]
  have hself : (s.attach b p).nHeight b = s.nHeight p+1 := by simp [BlockEntries.attach]
  show (s.attach b p).buildSkip b = _
  rw [buildSkip,hprev]
  dsimp only
  rw [hself,hq]
  simp [Except.map,BlockEntries.attach]

/-- What every tree of entries that was built has. -/
structure Skipping (s : BlockEntries α) : Prop extends Linked s where
  up : Linked.SkipsUp toLinked
  all : ∀ {b p}, s.pprev b = some p → ∃ q, s.pskip b = some q

theorem Built.skipping (hs : Built s) : Skipping s := by
  induction hs with
  | genesis b =>
    refine ⟨⟨nofun,fun _ => rfl,nofun,?_⟩,nofun,nofun⟩
    intro x y hx hy _ _
    rw [mem_singleton.mp hx,mem_singleton.mp hy]
  | @insert s s' b p _ hb hp hinsert ih =>
    obtain ⟨q,hq,hanc,hheight⟩ := ih.toLinked.insert_ok ih.up hb hp
    cases hinsert.symm.trans hq
    have hlinked := ih.toLinked.attach hb hp
    have hself : (s.attach b p).nHeight b = s.nHeight p+1 := by simp [BlockEntries.attach]
    refine ⟨⟨hlinked.height_parent,hlinked.height_root,hlinked.known,hlinked.root⟩,?_,?_⟩
    · intro x r hr
      by_cases hxb : x = b
      · subst hxb
        obtain rfl : q = r := by simpa using hr
        refine ⟨mem_cons_self,hanc.trans (.of_parent (by simp [Linked.tree,BlockEntries.attach])),?_,?_⟩
        · rw [hheight,hself]
        · rw [hheight,hself]
          exact getSkipHeight_lt (Nat.succ_pos _)
      · have hr' : (s.attach b p).pskip x = some r := by
          simpa [BlockEntries.attach,hxb] using hr
        exact ih.toLinked.attach_skipsUp ih.up hb hp hr'
    · intro x y hxy
      by_cases hxb : x = b
      · subst hxb
        exact ⟨q,update_self ..⟩
      · have hxy' : s.pprev x = some y := by simpa [BlockEntries.attach,hxb] using hxy
        obtain ⟨r,hr⟩ := ih.all hxy'
        exact ⟨r,(update_of_ne hxb _ _).trans hr⟩

variable (hs : Skipping s)

theorem Skipping.commonLoop (rounds : Nat) (ha : a ∈ s.known) (hb : b ∈ s.known) (hh : s.nHeight a = s.nHeight b)
    (hrounds : s.nHeight a < rounds) :
    ∃ c, s.commonLoop rounds (some a) (some b) = .ok (some c,some c) ∧ hs.toLinked.tree.Anc c a ∧
      hs.toLinked.tree.Anc c b ∧ ∀ d, hs.toLinked.tree.Anc d a → hs.toLinked.tree.Anc d b →
        hs.toLinked.tree.Anc d c := by
  induction rounds generalizing a b with
  | zero => omega
  | succ rounds ih =>
    by_cases hab : a = b
    · subst hab
      refine ⟨a,?_,.refl a,.refl a,fun d hd _ => hd⟩
      rw [BlockEntries.commonLoop.eq_def]
      simp
    have hparents : ∃ pa pb, s.pprev a = some pa ∧ s.pprev b = some pb := by
      cases hpa : s.pprev a with
      | none =>
        have h0 := hs.height_root hpa
        cases hpb : s.pprev b with
        | none => exact absurd (hs.root ha hb hpa hpb) hab
        | some pb =>
          have := hs.height_parent hpb
          omega
      | some pa =>
        cases hpb : s.pprev b with
        | none =>
          have h0 := hs.height_root hpb
          have := hs.height_parent hpa
          omega
        | some pb => exact ⟨pa,pb,rfl,rfl⟩
    obtain ⟨pa,pb,hpa,hpb⟩ := hparents
    obtain ⟨qa,hqa⟩ := hs.all hpa
    obtain ⟨qb,hqb⟩ := hs.all hpb
    obtain ⟨_,hqa1,hqa2,hqa3⟩ := hs.up hqa
    obtain ⟨_,hqb1,hqb2,hqb3⟩ := hs.up hqb
    rw [BlockEntries.commonLoop.eq_def]
    simp only [hab,if_false,hqa,hqb]
    by_cases hq : qa = qb
    · have hheights : s.nHeight pa = s.nHeight pb := by
        have := hs.height_parent hpa
        have := hs.height_parent hpb
        omega
      have hpar := hs.height_parent hpa
      obtain ⟨c,hc,hca,hcb,hmax⟩ := ih (hs.known hpa).2 (hs.known hpb).2 hheights (by omega)
      refine ⟨c,?_,hca.trans (.of_parent hpa),hcb.trans (.of_parent hpb),fun d hda hdb => ?_⟩
      · simp only [hq,ne_eq,not_true_eq_false,if_false,hpa,hpb,hc]
      · obtain ⟨h1,h2⟩ := common_parent hs.toLinked.tree hab hh hpa hpb hda hdb
        exact hmax d h1 h2
    · have hheights : s.nHeight qa = s.nHeight qb := by rw [hqa2,hqb2,hh]
      obtain ⟨c,hc,hca,hcb,hmax⟩ := ih (hs.toLinked.known_of_anc hqa1 ha) (hs.toLinked.known_of_anc hqb1 hb)
        hheights (by omega)
      refine ⟨c,?_,hca.trans hqa1,hcb.trans hqb1,fun d hda hdb => ?_⟩
      · simp only [hq,ne_eq,not_false_eq_true,if_true,hheights,not_true_eq_false,if_false,hc]
      · obtain ⟨h1,h2⟩ := common_skip hs.toLinked.tree hq hheights hqa1 hqb1 hda hdb
        exact hmax d h1 h2

omit [DecidableEq α] in
theorem Skipping.levelled (hx : x ∈ s.known) (hy : y ∈ s.known) :
    ∃ a b, s.levelled x y = .ok (some a,some b) ∧ a ∈ s.known ∧ b ∈ s.known ∧
      hs.toLinked.tree.Anc a x ∧ hs.toLinked.tree.Anc b y ∧ s.nHeight a = min (s.nHeight x) (s.nHeight y) ∧
      s.nHeight b = min (s.nHeight x) (s.nHeight y) := by
  unfold BlockEntries.levelled
  split_ifs with h1 h2
  · obtain ⟨a,ha,_,hanc,hheight⟩ := hs.toLinked.getAncestor_ok hs.up h1.le
    rw [ha]
    exact ⟨a,y,rfl,hs.toLinked.known_of_anc hanc hx,hy,hanc,.refl y,by omega,by omega⟩
  · obtain ⟨b,hb,_,hanc,hheight⟩ := hs.toLinked.getAncestor_ok hs.up h2.le
    rw [hb]
    exact ⟨x,b,rfl,hx,hs.toLinked.known_of_anc hanc hy,.refl x,hanc,by omega,by omega⟩
  · exact ⟨x,y,rfl,hx,hy,.refl x,.refl y,by omega,by omega⟩

theorem Skipping.lastCommonAncestor (hx : x ∈ s.known) (hy : y ∈ s.known) :
    ∃ c, s.lastCommonAncestor x y = .ok (some c) ∧ hs.toLinked.tree.lastCommonAncestor x y = some c := by
  obtain ⟨a,b,hlevel,ha,hb,hax,hby,hha,hhb⟩ := hs.levelled hx hy
  obtain ⟨c,hc,hca,hcb,hmax⟩ := hs.commonLoop (min (s.nHeight x) (s.nHeight y)+1) ha hb (hha.trans hhb.symm) (by omega)
  refine ⟨c,?_,lastCommonAncestor_eq_some.mpr ⟨hca.trans hax,hcb.trans hby,fun d hdx hdy => ?_⟩⟩
  · rw [BlockEntries.lastCommonAncestor,hlevel]
    show Except.bind (s.commonLoop _ _ _) _ = _
    rw [hc]
    simp [Except.bind]
  · have h1 : s.nHeight d ≤ s.nHeight x := hdx.height_le
    have h2 : s.nHeight d ≤ s.nHeight y := hdy.height_le
    apply hmax d
    · exact hdx.of_height_le hax (show s.nHeight d ≤ s.nHeight a by omega)
    · exact hdy.of_height_le hby (show s.nHeight d ≤ s.nHeight b by omega)

theorem Skipping.areOnTheSameFork (hx : x ∈ s.known) (hy : y ∈ s.known) :
    s.areOnTheSameFork x y = .ok (decide (hs.toLinked.tree.Anc x y ∨ hs.toLinked.tree.Anc y x)) := by
  obtain ⟨a,b,hlevel,_,_,hax,hby,hha,hhb⟩ := hs.levelled hx hy
  rw [BlockEntries.areOnTheSameFork,hlevel]
  show Except.ok _ = _
  congr 1
  have hiff : (some a == some b) = true ↔ (hs.toLinked.tree.Anc x y ∨ hs.toLinked.tree.Anc y x) := by
    rw [beq_iff_eq,Option.some.injEq]
    constructor
    · rintro rfl
      rcases Nat.le_total (s.nHeight x) (s.nHeight y) with hle | hle
      · have hax' := hax.eq_of_height_le (show s.nHeight x ≤ s.nHeight a by omega)
        exact .inl (hax' ▸ hby)
      · have hby' := hby.eq_of_height_le (show s.nHeight y ≤ s.nHeight a by omega)
        exact .inr (hby' ▸ hax)
    · have hmeet : ∀ {u}, hs.toLinked.tree.Anc a u → hs.toLinked.tree.Anc b u → a = b := by
        intro u hau hbu
        exact (hau.of_height_le hbu (show s.nHeight a ≤ s.nHeight b by omega)).eq_of_height_le
          (show s.nHeight b ≤ s.nHeight a by omega)
      rintro (hxy | hyx)
      · exact hmeet (hax.trans hxy) hby
      · exact hmeet hax (hby.trans hyx)
  rw [Bool.eq_iff_iff,hiff,decide_eq_true_eq]

theorem Linked.iterate_pprev (h : Linked s) (k : Nat) (hk : k ≤ s.nHeight x) :
    (fun o : Option α => o.bind s.pprev)^[k] (some x) = h.tree.getAncestor x (s.nHeight x-k) := by
  induction k generalizing x with
  | zero =>
    symm
    exact getAncestor_eq_some.mpr ⟨.refl x,by simp [Linked.tree]⟩
  | succ k ih =>
    cases hp : s.pprev x with
    | none =>
      have := h.height_root hp
      omega
    | some p =>
      have hpar := h.height_parent hp
      rw [iterate_succ_apply,Option.bind_some,hp,ih (by omega)]
      obtain ⟨a,ha,hanc,hah⟩ := exists_getAncestor (T := h.tree) (b := p) (h := s.nHeight p-k) (Nat.sub_le _ _)
      rw [ha]
      symm
      refine getAncestor_eq_some.mpr ⟨hanc.trans (.of_parent hp),?_⟩
      rw [hah]
      omega
end BlockEntries

open BlockEntries

/-- The skip pointers give what the parents give, and a new entry can always be added. -/
theorem skip_list_is_parent_walk {α : Type*} [DecidableEq α] {s : BlockEntries α} (hs : Built s) :
    ∃ T : ParentTree α, T.parent = s.pprev ∧ T.height = s.nHeight ∧
      (∀ b p, b ∉ s.known → p ∈ s.known → ∃ s', s.insert b p = .ok s') ∧
      (∀ x (height : Int), 0 ≤ height ∧ height ≤ s.nHeight x → ∃ a, s.getAncestor x height = .ok (some a) ∧
        (fun o : Option α => o.bind s.pprev)^[s.nHeight x-height.toNat] (some x) = some a) ∧
      (∀ x (height : Int), ¬(0 ≤ height ∧ height ≤ s.nHeight x) → s.getAncestor x height = .ok none) ∧
      ∀ x ∈ s.known, ∀ y ∈ s.known, (∃ c, s.lastCommonAncestor x y = .ok (some c) ∧ T.Anc c x ∧ T.Anc c y ∧
          ∀ d, T.Anc d x → T.Anc d y → d ≠ c → T.height d < T.height c) ∧
        s.areOnTheSameFork x y = .ok (decide (T.Anc x y ∨ T.Anc y x)) := by
  have hk := hs.skipping
  refine ⟨hk.toLinked.tree,rfl,rfl,fun b p hb hp => ?_,fun x height hh => ?_,fun x height hh => ?_,fun x hx y hy => ⟨?_,?_⟩⟩
  · obtain ⟨q,hq,_⟩ := hk.toLinked.insert_ok hk.up hb hp
    exact ⟨_,hq⟩
  · obtain ⟨n,rfl⟩ := Int.eq_ofNat_of_zero_le hh.1
    have hn : n ≤ s.nHeight x := by omega
    obtain ⟨a,ha,ha',_⟩ := hk.toLinked.getAncestor_ok hk.up hn
    refine ⟨a,ha,?_⟩
    rw [Int.toNat_natCast,hk.toLinked.iterate_pprev _ (Nat.sub_le _ _),Nat.sub_sub_self hn,ha']
  · rw [BlockEntries.getAncestor,if_pos (by omega)]
  · obtain ⟨c,hc,hc'⟩ := hk.lastCommonAncestor hx hy
    obtain ⟨hcx,hcy,hmax⟩ := lastCommonAncestor_eq_some.mp hc'
    refine ⟨c,hc,hcx,hcy,fun d hdx hdy hne => ?_⟩
    by_contra hge
    exact hne ((hmax d hdx hdy).eq_of_height_le (Nat.le_of_not_lt hge))
  · exact hk.areOnTheSameFork hx hy

theorem skip_list_is_parent_walk_branches : ∃ s : BlockEntries Nat, Built s ∧ s.known = [4,3,2,1,0] ∧
    s.pskip 4 = some 1 ∧ ∃ T : ParentTree Nat, T.parent = s.pprev ∧
      ∃ c, s.lastCommonAncestor 4 2 = .ok (some c) ∧ T.Anc c 4 ∧ T.Anc c 2 := by
  have h0 : Built (genesis 0) := .genesis 0
  have h1 := h0.insert (by decide) (by decide) (show (genesis 0).insert 1 0 = _ from rfl)
  have h2 := h1.insert (by decide) (by decide) (show BlockEntries.insert _ 2 1 = _ from rfl)
  have h3 := h2.insert (by decide) (by decide) (show BlockEntries.insert _ 3 1 = _ from rfl)
  have h4 := h3.insert (by decide) (by decide) (show BlockEntries.insert _ 4 3 = _ from rfl)
  obtain ⟨T,hT,_,_,_,_,hlca⟩ := skip_list_is_parent_walk h4
  obtain ⟨⟨c,hc,hc4,hc2,_⟩,_⟩ := hlca 4 (by decide) 2 (by decide)
  exact ⟨_,h4,rfl,rfl,T,hT,c,hc,hc4,hc2⟩
end BitfiniteCore
