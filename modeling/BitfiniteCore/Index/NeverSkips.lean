import Mathlib.Data.List.Chain
import BitfiniteCore.Index.SyncSteps

/-! # The transaction index never skips a block -/

namespace BitfiniteCore
open ParentTree GuardedRun List Option

section

variable {B : Type*} {T : ParentTree B}

def Grounded (T : ParentTree B) (written : B → Prop) (x : B) : Prop := ∀ b, T.Anc b x → 1 ≤ T.height b → written b

def GroundedBelow (T : ParentTree B) (written : B → Prop) (x : B) : Prop :=
  ∀ b, T.Anc b x → b ≠ x → 1 ≤ T.height b → written b

variable {w w' : B → Prop} {x y p : B}

theorem Grounded.mono (h : Grounded T w x) (hw : ∀ b, w b → w' b) : Grounded T w' x := fun b hb h1 => hw b (h b hb h1)

theorem GroundedBelow.mono (h : GroundedBelow T w x) (hw : ∀ b, w b → w' b) : GroundedBelow T w' x :=
  fun b hb hne h1 => hw b (h b hb hne h1)

theorem Grounded.of_anc (h : Grounded T w x) (ha : T.Anc y x) : Grounded T w y := fun b hb h1 => h b (hb.trans ha) h1

theorem Grounded.below (h : Grounded T w p) (hp : T.parent x = some p) : GroundedBelow T w x := by
  intro b hb hne h1
  obtain ⟨q,hq,hbq⟩ := hb.parent_of_ne hne
  cases hp.symm.trans hq
  exact h b hbq h1

theorem groundedBelow_root (hx : T.parent x = none) : GroundedBelow T w x := fun _ hb hne _ => absurd (hb.root hx) hne

theorem GroundedBelow.grounded (h : GroundedBelow T w x) (hx : 1 ≤ T.height x → w x) : Grounded T w x := by
  classical
  intro b hb h1
  by_cases hne : b = x
  · subst hne
    exact hx h1
  · exact h b hb hne h1

theorem parent_none_of_height (h : T.height x = 0) : T.parent x = none := by
  cases hp : T.parent x with
  | none => rfl
  | some p =>
    have := T.height_parent hp
    omega
end

section Chain

variable {B : Type*} [DecidableEq B] {T : ParentTree B} {tip : Option B} {x y t p : B} {w : B → Prop}

theorem locatorLoop_anc (fuel nStep size : Nat) (pindex : B) (hx : x ∈ locatorLoop T tip fuel nStep size pindex) :
    T.Anc x pindex := by
  induction fuel generalizing nStep size pindex with
  | zero =>
    obtain rfl := mem_singleton.mp hx
    exact .refl _
  | succ fuel ih =>
    rw [locatorLoop] at hx
    split at hx
    · obtain rfl := mem_singleton.mp hx
      exact .refl _
    dsimp only at hx
    split at hx
    · obtain rfl := mem_singleton.mp hx
      exact .refl _
    · rename_i p hnext
      rcases mem_cons.mp hx with rfl | hx
      · exact .refl _
      · apply (ih _ _ p hx).trans
        split at hnext
        · split_ifs at hnext with hanc
          · obtain ⟨hpt,hh⟩ := getAncestor_eq_some.mp hnext
            exact hpt.of_height_le hanc (by omega)
          · exact (getAncestor_eq_some.mp hnext).1
        · exact (getAncestor_eq_some.mp hnext).1

theorem getLocator_anc (hx : x ∈ getLocator T tip (some p)) : T.Anc x p := locatorLoop_anc _ _ _ p hx

theorem findFork_grounded {known : B → Bool} {locator : List B} {fork : B}
    (h : findForkInGlobalIndex T known tip locator = some fork) (hloc : ∀ x ∈ locator, Grounded T w x) :
    Grounded T w fork := by
  cases tip with
  | none => cases h
  | some t =>
    simp only [findForkInGlobalIndex] at h
    rcases or_eq_some_iff.mp h with h | ⟨_,h⟩
    · obtain ⟨x,hx,hfork⟩ := exists_of_findSome?_eq_some h
      have hx' := hloc x (mem_of_mem_filter hx)
      split_ifs at hfork with h1 h2
      · cases hfork
        exact hx'
      · cases hfork
        exact hx'.of_anc (getAncestor_eq_some.mp h2).1
    · intro b hb h1
      have hh := (getAncestor_eq_some.mp h).2
      have := hb.height_le
      omega

theorem chainNext_some (h : chainNext T tip x = some y) : T.parent y = some x := by
  cases tip with
  | none => cases h
  | some t =>
    simp only [chainNext] at h
    split_ifs at h with hanc
    obtain ⟨hyt,hh⟩ := getAncestor_eq_some.mp h
    obtain ⟨p,hp,hxp⟩ := (hanc.of_height_le hyt (by omega)).parent_of_ne (by rintro rfl; omega)
    have := T.height_parent hp
    rw [hp,hxp.eq_of_height_le (by omega)]

theorem chainNext_none (h : chainNext T (some t) x = none) (hanc : T.Anc x t) : x = t := by
  rw [chainNext,if_pos hanc] at h
  by_contra hne
  have hlt : T.height x < T.height t := by
    by_contra hge
    exact hne (hanc.eq_of_height_le (Nat.le_of_not_lt hge))
  obtain ⟨a,ha,_⟩ := exists_getAncestor (T := T) (b := t) (h := T.height x+1) hlt
  rw [h] at ha
  cases ha

theorem nextSyncBlock_below {pindex : Option B} (h : nextSyncBlock T tip pindex = some y)
    (hp : ∀ x, pindex = some x → Grounded T w x) : GroundedBelow T w y := by
  cases pindex with
  | none =>
    cases tip with
    | none => cases h
    | some t => exact groundedBelow_root (parent_none_of_height (getAncestor_eq_some.mp h).2)
  | some x =>
    cases tip with
    | none => cases h
    | some t =>
      simp only [nextSyncBlock] at h
      rcases or_eq_some_iff.mp h with h | ⟨_,h⟩
      · exact (hp x rfl).below (chainNext_some h)
      · obtain ⟨f,hf,h⟩ := bind_eq_some_iff.mp h
        have hfx := (lastCommonAncestor_eq_some.mp hf).1
        exact ((hp x rfl).of_anc hfx).below (chainNext_some h)

theorem exists_lastCommonAncestor_of_root (hroot : ∀ a b : B, T.parent a = none → T.parent b = none → a = b)
    (a b : B) : ∃ c, T.lastCommonAncestor a b = some c := by
  obtain ⟨ra,_,hra,hha⟩ := exists_getAncestor (T := T) (b := a) (h := 0) (Nat.zero_le _)
  obtain ⟨rb,_,hrb,hhb⟩ := exists_getAncestor (T := T) (b := b) (h := 0) (Nat.zero_le _)
  obtain rfl := hroot ra rb (parent_none_of_height hha) (parent_none_of_height hhb)
  cases hc : T.lastCommonAncestor a b with
  | none =>
    have := find?_eq_none.mp hc ra (mem_lineage.mpr hra)
    simp [hrb] at this
  | some c => exact ⟨c,rfl⟩

theorem nextSyncBlock_none (hroot : ∀ a b : B, T.parent a = none → T.parent b = none → a = b)
    {pindex : Option B} (h : nextSyncBlock T (some t) pindex = none) : ∃ x, pindex = some x ∧ T.Anc t x := by
  cases pindex with
  | none =>
    obtain ⟨g,hg,_⟩ := exists_getAncestor (T := T) (b := t) (h := 0) (Nat.zero_le _)
    simp only [nextSyncBlock,hg] at h
    cases h
  | some x =>
    refine ⟨x,rfl,?_⟩
    simp only [nextSyncBlock,or_eq_none_iff] at h
    obtain ⟨f,hf⟩ := exists_lastCommonAncestor_of_root hroot x t
    obtain ⟨hfx,hft,_⟩ := lastCommonAncestor_eq_some.mp hf
    have hnone := h.2
    rw [hf,bind_some] at hnone
    exact chainNext_none hnone hft ▸ hfx

theorem connectsTo_below {best : Option B} (h : connectsTo T best y = true)
    (hbest : ∀ x, best = some x → Grounded T w x) : GroundedBelow T w y := by
  cases best with
  | none => exact groundedBelow_root (parent_none_of_height (by simpa [connectsTo] using h))
  | some x =>
    simp only [connectsTo,Bool.or_eq_true,beq_iff_eq] at h
    rcases h with h | h
    · exact groundedBelow_root (parent_none_of_height h)
    · cases hp : T.parent y with
      | none => exact groundedBelow_root hp
      | some p =>
        rw [hp] at h
        exact ((hbest x rfl).of_anc (getAncestor_eq_some.mp h).1).below hp

theorem connectsTo_of_parent (h : ∀ p, T.parent y = some p → T.Anc p x) : connectsTo T (some x) y = true := by
  simp only [connectsTo,Bool.or_eq_true,beq_iff_eq]
  cases hp : T.parent y with
  | none => exact .inl (T.height_root hp)
  | some p =>
    right
    exact getAncestor_eq_some.mpr ⟨h p hp,by have := T.height_parent hp; omega⟩
end Chain

section Queue

variable {B : Type*} [DecidableEq B] {T : ParentTree B} {m tip : Option B} {w w' : B → Prop} {a b : B}
  {q : List (Notification B)}

def connectedBlocks : List (Notification B) → List B
  | [] => []
  | .blockConnected b::q => b::connectedBlocks q
  | .chainStateFlushed _::q => connectedBlocks q

omit [DecidableEq B] in
theorem connectedBlocks_append (q q' : List (Notification B)) :
    connectedBlocks (q++q') = connectedBlocks q++connectedBlocks q' := by
  induction q with
  | nil => rfl
  | cons n q ih =>
    cases n with
    | blockConnected b => exact congrArg (List.cons b) ih
    | chainStateFlushed b => exact ih

def settleQueue (T : ParentTree B) : Option B → (B → Prop) → List (Notification B) → Option B × (B → Prop)
  | m, w, [] => (m,w)
  | m, w, .blockConnected b::q =>
    if connectsTo T m b then settleQueue T (some b) (fun x => w x ∨ x = b ∧ 1 ≤ T.height x) q else settleQueue T m w q
  | m, w, .chainStateFlushed _::q => settleQueue T m w q

theorem settleQueue_append (q q' : List (Notification B)) :
    settleQueue T m w (q++q') = settleQueue T (settleQueue T m w q).1 (settleQueue T m w q).2 q' := by
  induction q generalizing m w with
  | nil => rfl
  | cons n q ih =>
    cases n with
    | blockConnected b =>
      simp only [cons_append,settleQueue]
      split_ifs
      · exact ih
      · exact ih
    | chainStateFlushed b => exact ih

theorem settleQueue_grounded (hm : ∀ x, m = some x → Grounded T w x) :
    ∀ x, (settleQueue T m w q).1 = some x → Grounded T (settleQueue T m w q).2 x := by
  induction q generalizing m w with
  | nil => exact hm
  | cons n q ih =>
    cases n with
    | blockConnected b =>
      simp only [settleQueue]
      split_ifs with hb
      · apply ih
        intro x hx
        cases hx
        exact ((connectsTo_below hb hm).mono fun _ => .inl).grounded fun h1 => .inr ⟨rfl,h1⟩
      · exact ih hm
    | chainStateFlushed b => exact ih hm

theorem settleQueue_mono (hw : ∀ x, w x → w' x) : (settleQueue T m w q).1 = (settleQueue T m w' q).1 ∧
    ∀ x, (settleQueue T m w q).2 x → (settleQueue T m w' q).2 x := by
  induction q generalizing m w w' with
  | nil => exact ⟨rfl,hw⟩
  | cons n q ih =>
    cases n with
    | blockConnected b =>
      simp only [settleQueue]
      split_ifs
      · exact ih fun x hx => hx.imp_left (hw x)
      · exact ih hw
    | chainStateFlushed b => exact ih hw

def Follows (T : ParentTree B) (a b : B) : Prop := ∀ p, T.parent b = some p → T.Anc p a

theorem settleQueue_follows (h : List.IsChain (Follows T) (a::connectedBlocks q)) :
    (settleQueue T (some a) w q).1 = some ((connectedBlocks q).getLast?.getD a) := by
  induction q generalizing a w with
  | nil => rfl
  | cons n q ih =>
    cases n with
    | blockConnected b =>
      obtain ⟨hab,htail⟩ := isChain_cons_cons.mp h
      simp only [settleQueue,connectsTo_of_parent hab,if_true,connectedBlocks,getLast?_cons,getD_some]
      exact ih htail
    | chainStateFlushed b => exact ih h

theorem settleQueue_last (h : List.IsChain (Follows T) (connectedBlocks q)) : (settleQueue T m w q).1 = m ∨
      ∃ e, (connectedBlocks q).getLast? = some e ∧ (settleQueue T m w q).1 = some e := by
  induction q generalizing m w with
  | nil => exact .inl rfl
  | cons n q ih =>
    cases n with
    | blockConnected b =>
      simp only [settleQueue]
      split_ifs with hb
      · exact .inr ⟨_,by rw [connectedBlocks,getLast?_cons],settleQueue_follows h⟩
      · rcases ih h.tail with hm | ⟨e,he,hm⟩
        · exact .inl hm
        · refine .inr ⟨e,?_,hm⟩
          rw [connectedBlocks,getLast?_cons,he]
          rfl
    | chainStateFlushed b => exact ih h

structure Walk (T : ParentTree B) (q : List (Notification B)) (tip : Option B) : Prop where
  chain : List.IsChain (Follows T) (connectedBlocks q)
  last : ∀ e, (connectedBlocks q).getLast? = some e → ∃ t, tip = some t ∧ T.Anc t e

omit [DecidableEq B] in
theorem Walk.nil : Walk T ([] : List (Notification B)) tip := ⟨.nil,fun _ h => nomatch h⟩

omit [DecidableEq B] in
theorem Walk.tail {n : Notification B} (h : Walk T (n::q) tip) : Walk T q tip := by
  cases n with
  | blockConnected b =>
    refine ⟨h.chain.tail,fun e he => h.last e ?_⟩
    rw [connectedBlocks,getLast?_cons,he]
    rfl
  | chainStateFlushed b => exact ⟨h.chain,h.last⟩

omit [DecidableEq B] in
theorem Walk.connect (h : Walk T q tip) (hb : T.parent b = tip) : Walk T (q++[.blockConnected b]) (some b) := by
  refine ⟨?_,fun e he => ?_⟩
  · rw [connectedBlocks_append]
    refine isChain_append.mpr ⟨h.chain,.singleton b,?_⟩
    intro x hx y hy p hp
    obtain rfl : b = y := by simpa [connectedBlocks] using hy
    obtain ⟨t,ht,hanc⟩ := h.last x hx
    rw [hp] at hb
    cases hb.trans ht
    exact hanc
  · rw [connectedBlocks_append] at he
    obtain rfl : b = e := by simpa [connectedBlocks] using he
    exact ⟨b,rfl,.refl b⟩

omit [DecidableEq B] in
theorem Walk.disconnect {t p : B} (h : Walk T q (some t)) (hp : T.parent t = some p) : Walk T q (some p) := by
  refine ⟨h.chain,fun e he => ?_⟩
  obtain ⟨t',ht,hanc⟩ := h.last e he
  cases ht
  exact ⟨p,rfl,(Anc.of_parent hp).trans hanc⟩

omit [DecidableEq B] in
theorem Walk.flush (h : Walk T q tip) (b : B) : Walk T (q++[.chainStateFlushed b]) tip := by
  have hc : connectedBlocks (q++[.chainStateFlushed b]) = connectedBlocks q := by
    rw [connectedBlocks_append]
    exact append_nil _
  exact ⟨hc ▸ h.chain,fun e he => h.last e (hc ▸ he)⟩

/-- A best block, with what is written, from which the index has the chain. -/
structure Covers (T : ParentTree B) (r : Option B × (B → Prop)) (tip : Option B) : Prop where
  empty : tip = none → r.1 = none
  reached : ∀ t, tip = some t → ∃ x, r.1 = some x ∧ T.Anc t x
  grounded : ∀ x, r.1 = some x → Grounded T r.2 x

theorem Covers.of_walk (h : Walk T q tip) (hempty : tip = none → m = none)
    (hreached : ∀ t, tip = some t → ∃ x, m = some x ∧ T.Anc t x) (hm : ∀ x, m = some x → Grounded T w x) :
    Covers T (settleQueue T m w q) tip := by
  have hlast := settleQueue_last (m := m) (w := w) h.chain
  refine ⟨fun ht => ?_,fun t ht => ?_,settleQueue_grounded hm⟩
  · rcases hlast with hl | ⟨e,he,_⟩
    · exact hl.trans (hempty ht)
    · obtain ⟨t,ht',_⟩ := h.last e he
      rw [ht] at ht'
      cases ht'
  · rcases hlast with hl | ⟨e,he,hl⟩
    · rw [hl]
      exact hreached t ht
    · obtain ⟨t',ht',hanc⟩ := h.last e he
      cases ht.symm.trans ht'
      exact ⟨e,hl,hanc⟩

theorem Covers.connect (h : Covers T (settleQueue T m w q) tip) (hb : T.parent b = tip) :
    Covers T (settleQueue T m w (q++[.blockConnected b])) (some b) := by
  have hconn : connectsTo T (settleQueue T m w q).1 b = true := by
    cases ht : tip with
    | none =>
      rw [h.empty ht]
      simpa [connectsTo] using T.height_root (hb.trans ht)
    | some t =>
      obtain ⟨x,hx,hanc⟩ := h.reached t ht
      rw [hx]
      apply connectsTo_of_parent
      intro p hp
      cases (hp.symm.trans hb).trans ht
      exact hanc
  have hbelow := connectsTo_below hconn h.grounded
  rw [settleQueue_append]
  simp only [settleQueue,hconn,if_true]
  refine ⟨fun ht => (nomatch ht),fun t ht => ⟨b,rfl,?_⟩,fun x hx => ?_⟩
  · cases ht
    exact .refl _
  · cases hx
    exact (hbelow.mono fun _ => .inl).grounded fun h1 => .inr ⟨rfl,h1⟩

omit [DecidableEq B] in
theorem Covers.disconnect {r : Option B × (B → Prop)} {t p : B} (h : Covers T r (some t))
    (hp : T.parent t = some p) : Covers T r (some p) := by
  refine ⟨fun ht => (nomatch ht),fun t' ht => ?_,h.grounded⟩
  cases ht
  obtain ⟨x,hx,hanc⟩ := h.reached t rfl
  exact ⟨x,hx,(Anc.of_parent hp).trans hanc⟩

theorem Covers.flush (h : Covers T (settleQueue T m w q) tip) (b : B) :
    Covers T (settleQueue T m w (q++[.chainStateFlushed b])) tip := by
  rw [settleQueue_append]
  exact h

theorem Covers.mono (h : Covers T (settleQueue T m w q) tip) (hw : ∀ x, w x → w' x) :
    Covers T (settleQueue T m w' q) tip := by
  obtain ⟨hm,hww⟩ := settleQueue_mono (T := T) (m := m) (q := q) hw
  refine ⟨fun ht => hm ▸ h.empty ht,fun t ht => hm ▸ h.reached t ht,fun x hx => ?_⟩
  exact (h.grounded x (hm ▸ hx)).mono hww
end Queue

section Invariant

variable {B : Type*} [DecidableEq B] {T : ParentTree B} {s s' : IndexState B}

/-- What the sync thread relies on. Until the loop ends only the thread itself moves the best block. -/
def ThreadInv (T : ParentTree B) (w : B → Prop) (tip best : Option B) (synced : Bool) : SyncThread B → Prop
  | .top pindex => synced = false ∧ ∀ x, pindex = some x → Grounded T w x ∧ tip ≠ none
  | .chosen pindex => synced = false ∧ GroundedBelow T w pindex ∧ tip ≠ none
  | .committing pindex locator =>
    synced = false ∧ GroundedBelow T w pindex ∧ tip ≠ none ∧ ∀ x ∈ locator, Grounded T w x
  | .writing pindex => synced = false ∧ GroundedBelow T w pindex ∧ tip ≠ none
  | .stopping => True
  | .finishing => synced = true ∧ (best = none → tip = none)
  | .ending locator => ∀ x ∈ locator, Grounded T w x
  | .done => True

def HandlerInv (T : ParentTree B) (w : B → Prop) (best : Option B) (synced : Bool) : Handler B → Prop
  | .idle => True
  | .connecting pindex => synced = true ∧ GroundedBelow T w pindex
  | .wrote pindex => synced = true ∧ Grounded T w pindex
  | .flushing => synced = true ∧ best ≠ none
  | .committing locator => ∀ x ∈ locator, Grounded T w x

def IndexState.isWritten (s : IndexState B) (b : B) : Prop := s.written b = true

def IndexState.settled (T : ParentTree B) (s : IndexState B) : Option B × (B → Prop) :=
  match s.handler with
  | .connecting b => (some b,fun x => s.isWritten x ∨ x = b ∧ 1 ≤ T.height x)
  | .wrote b => (some b,s.isWritten)
  | _ => (s.bestBlock,s.isWritten)

structure IndexInv (T : ParentTree B) (s : IndexState B) : Prop where
  best : ∀ x, s.bestBlock = some x → Grounded T s.isWritten x
  locator : ∀ x ∈ s.locator, Grounded T s.isWritten x
  thread : ThreadInv T s.isWritten s.tip s.bestBlock s.synced s.thread
  handler : HandlerInv T s.isWritten s.bestBlock s.synced s.handler
  walk : s.synced = false → Walk T s.queue s.tip
  covers : s.synced = true → Covers T (settleQueue T (s.settled T).1 (s.settled T).2 s.queue) s.tip

variable {w w' : B → Prop} {tip tip' best best' : Option B} {synced : Bool}

omit [DecidableEq B] in
theorem ThreadInv.mono {th : SyncThread B} (h : ThreadInv T w tip best synced th) (hw : ∀ b, w b → w' b) :
    ThreadInv T w' tip best synced th := by
  cases th with
  | top pindex => exact ⟨h.1,fun x hx => ⟨(h.2 x hx).1.mono hw,(h.2 x hx).2⟩⟩
  | chosen pindex => exact ⟨h.1,h.2.1.mono hw,h.2.2⟩
  | committing pindex locator => exact ⟨h.1,h.2.1.mono hw,h.2.2.1,fun x hx => (h.2.2.2 x hx).mono hw⟩
  | writing pindex => exact ⟨h.1,h.2.1.mono hw,h.2.2⟩
  | stopping => trivial
  | finishing => exact h
  | ending locator => exact fun x hx => (h x hx).mono hw
  | done => trivial

omit [DecidableEq B] in
theorem HandlerInv.mono {hd : Handler B} (h : HandlerInv T w best synced hd) (hw : ∀ b, w b → w' b) :
    HandlerInv T w' best synced hd := by
  cases hd with
  | idle => trivial
  | connecting pindex => exact ⟨h.1,h.2.mono hw⟩
  | wrote pindex => exact ⟨h.1,h.2.mono hw⟩
  | flushing => exact h
  | committing locator => exact fun x hx => (h x hx).mono hw

omit [DecidableEq B] in
theorem ThreadInv.of_tip {th : SyncThread B} (h : ThreadInv T w tip best synced th) (hlock : th ≠ .finishing) (t : B) :
    ThreadInv T w (some t) best synced th := by
  cases th with
  | top pindex => exact ⟨h.1,fun x hx => ⟨(h.2 x hx).1,nofun⟩⟩
  | chosen pindex => exact ⟨h.1,h.2.1,nofun⟩
  | committing pindex locator => exact ⟨h.1,h.2.1,nofun,h.2.2.2⟩
  | writing pindex => exact ⟨h.1,h.2.1,nofun⟩
  | stopping => trivial
  | finishing => exact absurd rfl hlock
  | ending locator => exact h
  | done => trivial

omit [DecidableEq B] in
theorem ThreadInv.of_best {th : SyncThread B} (h : ThreadInv T w tip best true th) (b : B) :
    ThreadInv T w tip (some b) true th := by
  cases th with
  | top pindex => exact ⟨h.1,h.2⟩
  | chosen pindex => exact h
  | committing pindex locator => exact h
  | writing pindex => exact h
  | stopping => trivial
  | finishing => exact ⟨rfl,nofun⟩
  | ending locator => exact h
  | done => trivial

omit [DecidableEq B] in
theorem HandlerInv.unsynced {hd : Handler B} (h : HandlerInv T w best false hd) (synced' : Bool) :
    HandlerInv T w best' synced' hd := by
  cases hd with
  | idle => trivial
  | connecting pindex => exact absurd h.1 Bool.false_ne_true
  | wrote pindex => exact absurd h.1 Bool.false_ne_true
  | flushing => exact absurd h.1 Bool.false_ne_true
  | committing locator => exact h

omit [DecidableEq B] in
theorem settled_unsynced (h : HandlerInv T w best false s.handler) : s.settled T = (s.bestBlock,s.isWritten) := by
  unfold IndexState.settled
  cases hh : s.handler with
  | connecting pindex =>
    rw [hh] at h
    exact absurd h.1 Bool.false_ne_true
  | wrote pindex =>
    rw [hh] at h
    exact absurd h.1 Bool.false_ne_true
  | idle => rfl
  | flushing => rfl
  | committing locator => rfl

theorem getLocator_grounded {pindex : Option B} (hp : ∀ x, pindex = some x → Grounded T w x)
    (hnone : pindex = none → tip = none) : ∀ x ∈ getLocator T tip pindex, Grounded T w x := by
  intro x hx
  cases pindex with
  | none =>
    rw [hnone rfl] at hx
    cases hx
  | some p => exact (hp p rfl).of_anc (getLocator_anc hx)

theorem isWritten_writeBlock (pindex b : B) :
    ({ s with written := s.writeBlock T pindex } : IndexState B).isWritten b ↔
      s.isWritten b ∨ b = pindex ∧ 1 ≤ T.height b := by
  simp only [IndexState.isWritten,IndexState.writeBlock,Bool.or_eq_true,Bool.and_eq_true,beq_iff_eq,bne_iff_ne]
  have h : T.height b ≠ 0 ↔ 1 ≤ T.height b := Nat.one_le_iff_ne_zero.symm
  rw [h]

theorem isWritten_mono (pindex b : B) (h : s.isWritten b) :
    ({ s with written := s.writeBlock T pindex } : IndexState B).isWritten b :=
  (isWritten_writeBlock pindex b).mpr (.inl h)

theorem GroundedBelow.write {pindex : B} (h : GroundedBelow T s.isWritten pindex) :
    Grounded T ({ s with written := s.writeBlock T pindex } : IndexState B).isWritten pindex := by
  apply (h.mono (isWritten_mono pindex)).grounded
  intro h1
  exact (isWritten_writeBlock pindex pindex).mpr (.inr ⟨rfl,h1⟩)

section

variable (h : IndexInv T s)

include h

theorem IndexInv.move (hs : s.synced = false) {best : Option B} {th : SyncThread B}
    (hbest : ∀ x, best = some x → Grounded T s.isWritten x) (hth : ThreadInv T s.isWritten s.tip best s.synced th) :
    IndexInv T { s with bestBlock := best, thread := th } where
  best := hbest
  locator := h.locator
  thread := hth
  handler := by
    have hh := h.handler
    rw [hs] at hh
    exact hh.unsynced _
  walk := h.walk
  covers hs' := absurd (hs.symm.trans hs') Bool.false_ne_true

theorem IndexInv.store {locator : List B} (hl : ∀ x ∈ locator, Grounded T s.isWritten x) :
    IndexInv T { s with locator } :=
  ⟨h.best,hl,h.thread,h.handler,h.walk,h.covers⟩

theorem IndexInv.toThread {th : SyncThread B}
    (hth : ThreadInv T s.isWritten s.tip s.bestBlock s.synced th) : IndexInv T { s with thread := th } :=
  ⟨h.best,h.locator,hth,h.handler,h.walk,h.covers⟩

theorem IndexInv.toHandler {hd : Handler B}
    (hhd : HandlerInv T s.isWritten s.bestBlock s.synced hd)
    (hsettled : ({ s with handler := hd } : IndexState B).settled T = s.settled T) :
    IndexInv T { s with handler := hd } where
  best := h.best
  locator := h.locator
  thread := h.thread
  handler := hhd
  walk := h.walk
  covers hs := by
    have hc := h.covers hs
    rw [← hsettled] at hc
    exact hc

omit h in
theorem IndexInv.finish (hroot : ∀ a b : B, T.parent a = none → T.parent b = none → a = b) (h : IndexInv T s)
    {pindex : Option B} (hthread : s.thread = .top pindex) (hnext : nextSyncBlock T s.tip pindex = none) :
    IndexInv T { s with bestBlock := pindex, synced := true, thread := .finishing } := by
  have hth := h.thread
  rw [hthread] at hth
  obtain ⟨hs,hp⟩ := hth
  have hh := h.handler
  rw [hs] at hh
  have hground : ∀ x, pindex = some x → Grounded T s.isWritten x := fun x hx => (hp x hx).1
  have hreached : ∀ t, s.tip = some t → ∃ x, pindex = some x ∧ T.Anc t x := by
    intro t ht
    rw [ht] at hnext
    exact nextSyncBlock_none hroot hnext
  have hempty : s.tip = none → pindex = none := by
    intro ht
    by_contra hne
    obtain ⟨x,hx⟩ := ne_none_iff_exists'.mp hne
    exact (hp x hx).2 ht
  refine ⟨hground,h.locator,⟨rfl,fun hnone => ?_⟩,hh.unsynced true,fun hs' => (nomatch hs'),fun _ => ?_⟩
  · cases ht : s.tip with
    | none => rfl
    | some t =>
      obtain ⟨x,hx,_⟩ := hreached t ht
      cases hnone.symm.trans hx
  · rw [settled_unsynced (s := { s with bestBlock := pindex, synced := true, thread := .finishing }) (T := T) hh]
    exact .of_walk (h.walk hs) hempty hreached hground

theorem IndexInv.syncWrite {pindex : B} (hthread : s.thread = .writing pindex) :
    IndexInv T { s with written := s.writeBlock T pindex, thread := .top (some pindex) } := by
  have hth := h.thread
  rw [hthread] at hth
  obtain ⟨hs,hp,ht⟩ := hth
  have hw := isWritten_mono (T := T) (s := s) pindex
  refine ⟨fun x hx => (h.best x hx).mono hw,fun x hx => (h.locator x hx).mono hw,⟨hs,fun x hx => ⟨?_,ht⟩⟩,
    h.handler.mono hw,h.walk,fun hs' => absurd (hs.symm.trans hs') Bool.false_ne_true⟩
  cases hx
  exact hp.write

theorem IndexInv.handlerWrite {pindex : B} (hhandler : s.handler = .connecting pindex) :
    IndexInv T { s with written := s.writeBlock T pindex, handler := .wrote pindex } := by
  have hh := h.handler
  rw [hhandler] at hh
  have hw := isWritten_mono (T := T) (s := s) pindex
  refine ⟨fun x hx => (h.best x hx).mono hw,fun x hx => (h.locator x hx).mono hw,h.thread.mono hw,⟨hh.1,?_⟩,
    h.walk,fun hs => ?_⟩
  · exact hh.2.write
  · have hc := h.covers hs
    simp only [IndexState.settled,hhandler] at hc
    exact hc.mono fun b => (isWritten_writeBlock pindex b).mpr

theorem IndexInv.handlerAdvance {pindex : B} (hhandler : s.handler = .wrote pindex) :
    IndexInv T { s with bestBlock := some pindex, handler := .idle } := by
  have hh := h.handler
  rw [hhandler] at hh
  have hth := h.thread
  rw [hh.1] at hth
  refine ⟨fun x hx => ?_,h.locator,?_,trivial,h.walk,fun hs => ?_⟩
  · cases hx
    exact hh.2
  · have hth' := hth.of_best pindex
    rw [← hh.1] at hth'
    exact hth'
  · have hc := h.covers hs
    simp only [IndexState.settled,hhandler] at hc
    exact hc

theorem IndexInv.deliverConnected {pindex : B} {rest : List (Notification B)}
    (hidle : s.handler = .idle) (hqueue : s.queue = .blockConnected pindex::rest) (hs : s.synced = true) :
    IndexInv T { s with
      queue := rest
      handler := if connectsTo T s.bestBlock pindex then .connecting pindex else .idle } := by
  have hc := h.covers hs
  simp only [IndexState.settled,hidle,hqueue,settleQueue] at hc
  split_ifs at hc ⊢ with hconn
  · exact ⟨h.best,h.locator,h.thread,⟨hs,connectsTo_below hconn h.best⟩,
      fun hs' => absurd (hs'.symm.trans hs) Bool.false_ne_true,fun _ => hc⟩
  · exact ⟨h.best,h.locator,h.thread,trivial,fun hs' => absurd (hs'.symm.trans hs) Bool.false_ne_true,fun _ => hc⟩

theorem IndexInv.deliverFlushed {front : B} {rest : List (Notification B)}
    (hidle : s.handler = .idle) (hqueue : s.queue = .chainStateFlushed front::rest) (hs : s.synced = true) :
    IndexInv T { s with
      queue := rest
      handler := if s.known front && (s.bestBlock.bind fun x => T.getAncestor x (T.height front)) == some front
        then .flushing else .idle } := by
  have hc := h.covers hs
  simp only [IndexState.settled,hidle,hqueue,settleQueue] at hc
  split_ifs with hfront
  · refine ⟨h.best,h.locator,h.thread,⟨hs,fun hb => ?_⟩,
      fun hs' => absurd (hs'.symm.trans hs) Bool.false_ne_true,fun _ => hc⟩
    rw [hb] at hfront
    simp at hfront
  · exact ⟨h.best,h.locator,h.thread,trivial,fun hs' => absurd (hs'.symm.trans hs) Bool.false_ne_true,fun _ => hc⟩

theorem IndexInv.restart (tip : Option B) (known : B → Bool) : IndexInv T (s.init T tip known) := by
  obtain ⟨best,hbest⟩ : ∃ best, best =
    if s.locator = [] then none else findForkInGlobalIndex T known tip s.locator := ⟨_,rfl⟩
  simp only [IndexState.init,← hbest]
  have hfork : ∀ x, best = some x → findForkInGlobalIndex T known tip s.locator = some x := by
    intro x hx
    rw [hbest] at hx
    split_ifs at hx
    exact hx
  have hground : ∀ x, best = some x → Grounded T s.isWritten x :=
    fun x hx => findFork_grounded (hfork x hx) h.locator
  refine ⟨hground,h.locator,?_,trivial,fun _ => .nil,fun hs => ?_⟩
  · dsimp only
    split_ifs with hb
    · trivial
    · refine ⟨by simpa using hb,fun x hx => ⟨hground x hx,fun ht => ?_⟩⟩
      have hf := hfork x hx
      rw [ht] at hf
      cases hf
  · have hb : best = tip := by simpa using hs
    exact ⟨fun ht => hb.trans ht,fun t ht => ⟨t,hb.trans ht,.refl t⟩,hground⟩
end

theorem IndexInv.step (hroot : ∀ a b : B, T.parent a = none → T.parent b = none → a = b) {e : IndexEvent B}
    (h : IndexInv T s) (hg : CommitsWritten T s e) (hstep : IndexStep T s e s') : IndexInv T s' := by
  have hth := h.thread
  have hh := h.handler
  cases hstep with
  | connectTip hlock hparent =>
    exact ⟨h.best,h.locator,hth.of_tip hlock _,hh,fun hs => (h.walk hs).connect hparent,
      fun hs => (h.covers hs).connect hparent⟩
  | disconnectTip hlock htip hparent =>
    refine ⟨h.best,h.locator,hth.of_tip hlock _,hh,fun hs => ?_,fun hs => ?_⟩
    · exact Walk.disconnect (htip ▸ h.walk hs) hparent
    · exact Covers.disconnect (htip ▸ h.covers hs) hparent
  | flushChain front =>
    exact ⟨h.best,h.locator,hth,hh,fun hs => (h.walk hs).flush _,fun hs => (h.covers hs).flush _⟩
  | @chooseBlock pindex next hthread hnext =>
    rw [hthread] at hth
    have ht : s.tip ≠ none := by
      intro ht
      rw [ht] at hnext
      cases pindex with
      | none => cases hnext
      | some x => cases hnext
    exact h.move hth.1 h.best ⟨hth.1,nextSyncBlock_below hnext fun x hx => (hth.2 x hx).1,ht⟩
  | finish hthread hnext => exact h.finish hroot hthread hnext
  | @interrupt pindex hthread =>
    rw [hthread] at hth
    have hp : ∀ x, pindex = some x → Grounded T s.isWritten x := fun x hx => (hth.2 x hx).1
    exact h.move hth.1 hp trivial
  | stopCommit hthread => exact h.toThread (getLocator_grounded h.best hg)
  | @periodicCommit pindex hthread =>
    rw [hthread] at hth
    have hp : ∀ x, some pindex = some x → Grounded T s.isWritten x := by
      intro x hx
      cases hx
      exact hth.2.1.grounded (hg pindex hthread)
    exact h.move hth.1 hp ⟨hth.1,hth.2.1,hth.2.2,getLocator_grounded hp nofun⟩
  | skipCommit hthread =>
    rw [hthread] at hth
    exact h.toThread hth
  | @writeLocator pindex locator hthread =>
    rw [hthread] at hth
    have hmove : IndexInv T { s with thread := .writing pindex } := h.toThread ⟨hth.1,hth.2.1,hth.2.2.1⟩
    exact hmove.store hth.2.2.2
  | syncWriteBlock hthread => exact h.syncWrite hthread
  | finishCommit hthread =>
    rw [hthread] at hth
    exact h.toThread (getLocator_grounded h.best hth.2)
  | endSync hthread =>
    rw [hthread] at hth
    have hmove : IndexInv T { s with thread := .done } := h.toThread trivial
    exact hmove.store hth
  | deliverDrop hidle hqueue hs =>
    refine ⟨h.best,h.locator,hth,hh,fun hs => ?_,fun hs' => absurd (hs.symm.trans hs') Bool.false_ne_true⟩
    exact Walk.tail (hqueue ▸ h.walk hs)
  | deliverConnected hidle hqueue hs => exact h.deliverConnected hidle hqueue hs
  | deliverFlushed hidle hqueue hs => exact h.deliverFlushed hidle hqueue hs
  | handlerWrite hhandler => exact h.handlerWrite hhandler
  | handlerAdvance hhandler => exact h.handlerAdvance hhandler
  | handlerCommit hhandler =>
    rw [hhandler] at hh
    apply h.toHandler
    · exact getLocator_grounded h.best fun hb => absurd hb hh.2
    · simp only [IndexState.settled,hhandler]
      rfl
  | handlerWriteLocator hhandler =>
    rw [hhandler] at hh
    have hmove : IndexInv T { s with handler := .idle } := by
      apply h.toHandler
      · trivial
      · simp only [IndexState.settled,hhandler]
        rfl
    exact hmove.store hh
  | restart tip known => exact h.restart tip known

theorem indexInv_fresh (tip : Option B) (known : B → Bool) : IndexInv T (IndexState.fresh T tip known) := by
  apply IndexInv.restart
  exact ⟨nofun,nofun,trivial,trivial,fun _ => .nil,nofun⟩
end Invariant

section Runs

variable {B : Type*} [DecidableEq B]

/-- While every commit of the thread is for a written block, a synced index never skips a block. -/
theorem index_never_skips (T : ParentTree B) (hroot : ∀ a b : B, T.parent a = none → T.parent b = none → a = b)
    (tip : Option B) (known : B → Bool) {s : IndexState B}
    (run : Reaches (IndexStep T) (CommitsWritten T) (IndexState.fresh T tip known) s) :
    PositionSound T s ∧ SyncedComplete T s := by
  have h : IndexInv T s := run.invariant (indexInv_fresh tip known) fun hi hg hstep => hi.step hroot hg hstep
  constructor
  · intro fork hfork
    exact findFork_grounded hfork h.locator
  · intro hs hq hidle t ht
    have hc := h.covers hs
    rw [hq] at hc
    simp only [IndexState.settled,hidle,settleQueue] at hc
    obtain ⟨x,hx,hanc⟩ := hc.reached t ht
    exact (hc.grounded x hx).of_anc hanc
end Runs

def heightTree : ParentTree Nat where
  parent
    | 0 => none
    | n+1 => some n
  height n := n
  height_parent {a p} h := by
    cases a with
    | zero => cases h
    | succ n => exact congrArg (·+1) (some.inj h)
  height_root {a} h := by
    cases a with
    | zero => rfl
    | succ n => cases h

theorem heightTree_root (a b : Nat) (ha : heightTree.parent a = none) (hb : heightTree.parent b = none) : a = b :=
  (heightTree.height_root ha).trans (heightTree.height_root hb).symm

def heightStart : IndexState Nat := .fresh heightTree (some 1) fun _ => true

theorem heightTree_unsound {s : IndexState Nat} (hknown : s.known 1 = true) (htip : s.tip = some 1)
    (hloc : s.locator = [1,0]) (hw : s.written 1 = false) : ¬ PositionSound heightTree s := by
  intro h
  have hfork : findForkInGlobalIndex heightTree s.known s.tip s.locator = some 1 := by
    rw [htip,hloc]
    simp only [findForkInGlobalIndex,filter_cons,hknown,if_true,findSome?_cons,if_pos (Anc.refl 1)]
    rfl
  have h1 := h 1 hfork 1 (.refl 1) (le_refl 1)
  rw [hw] at h1
  cases h1

theorem index_commits_ahead :
    (∃ s, Reaches (IndexStep heightTree) (fun _ _ => True) heightStart s ∧ s.thread = .writing 1 ∧
      ¬ PositionSound heightTree s) ∧
    ∃ s, Reaches (IndexStep heightTree) (fun _ _ => True) heightStart s ∧ s.thread = .done ∧
      ¬ PositionSound heightTree s := by
  have h0 : Reaches (IndexStep heightTree) (fun _ _ => True) heightStart heightStart := .refl
  constructor
  · -- genesis is written, the next block only has its position stored
    have h1 := h0.tail trivial (.chooseBlock rfl rfl)
    have h2 := h1.tail trivial (.skipCommit rfl)
    have h3 := h2.tail trivial (.syncWriteBlock rfl)
    have h4 := h3.tail trivial (.chooseBlock rfl rfl)
    have h5 := h4.tail trivial (.periodicCommit rfl)
    have h6 := h5.tail trivial (.writeLocator rfl)
    exact ⟨_,h6,rfl,heightTree_unsound rfl rfl rfl rfl⟩
  · have h1 := h0.tail trivial (.interrupt rfl)
    have h2 := h1.tail trivial (.stopCommit rfl)
    have h3 := h2.tail trivial (.endSync rfl)
    exact ⟨_,h3,rfl,heightTree_unsound rfl rfl rfl rfl⟩

theorem index_never_skips_line : ∃ s, Reaches (IndexStep heightTree) (CommitsWritten heightTree) heightStart s ∧
    s.synced = true ∧ s.locator = [1,0] ∧ PositionSound heightTree s ∧ SyncedComplete heightTree s := by
  have h0 : Reaches (IndexStep heightTree) (CommitsWritten heightTree) heightStart heightStart := .refl
  have h1 := h0.tail (by exact trivial) (.chooseBlock rfl rfl)
  have h2 := h1.tail (by exact trivial) (.skipCommit rfl)
  have h3 := h2.tail (by exact trivial) (.syncWriteBlock rfl)
  have h4 := h3.tail (by exact trivial) (.chooseBlock rfl rfl)
  have h5 := h4.tail (by exact trivial) (.skipCommit rfl)
  have h6 := h5.tail (by exact trivial) (.syncWriteBlock rfl)
  have h7 := h6.tail (by exact trivial) (.finish rfl rfl)
  have h8 := h7.tail (by exact trivial) (.finishCommit rfl)
  have h9 := h8.tail (by exact trivial) (.endSync rfl)
  exact ⟨_,h9,rfl,rfl,index_never_skips heightTree heightTree_root _ _ h9⟩
end BitfiniteCore
