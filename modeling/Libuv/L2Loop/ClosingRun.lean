import Libuv.L2Loop.Closing

/-!
# The close protocol over whole runs

`Chain next p l`: the list that starts at `p` and goes on with `next` is `l`.

* `close_protocol`: in every reachable state the users' close callbacks have been called at
  most once each, from the pass over the closing handles only, with the handle finished;
  the pass finishes each handle it began with exactly once and never stops on an assertion;
  a handle that is closing is on one of the two lists, or waits for its fs_poll contexts;
  outside the pass the loop is alive while a handle is closing.
* `not_alive`: inside the pass it need not be, nor when `active_reqs` has wrapped.
-/
namespace Libuv.L2.Closing
open Libuv.L2.Handle List Option

/-! ## Linked lists -/

def Chain (next : ℕ → Option ℕ) : Option ℕ → List ℕ → Prop
  | p, [] => p = none
  | p, h :: l => p = some h ∧ Chain next (next h) l

theorem Chain.congr {next next' : ℕ → Option ℕ} {p : Option ℕ} {l : List ℕ} (hc : Chain next p l)
    (he : ∀ h ∈ l, next' h = next h) : Chain next' p l := by
  induction l generalizing p with
  | nil => exact hc
  | cons h l ih =>
    refine ⟨hc.1, ?_⟩
    rw [he h mem_cons_self]
    exact ih hc.2 fun a ha => he a (mem_cons_of_mem _ ha)

/-! ## The invariant -/

structure SameCore (x y : Handle) : Prop where
  kind : y.kind = x.kind
  closing : y.flags.closing = x.flags.closing
  closed : y.flags.closed = x.flags.closed
  nextClosing : y.nextClosing = x.nextClosing
  closeCb : y.closeCb = x.closeCb
  ctxs : y.ctxs = x.ctxs
  parent : y.parent = x.parent

def Pc.rest : Pc → Option ℕ
  | .idle | .pollCb _ => none
  | .pass p => p
  | .destroy _ q | .closeCb _ q => q

def Pc.cur : Pc → Option ℕ
  | .destroy p _ => some p
  | _ => none

/-- The context of the timer `c` is one of its handle's. -/
def Loop.Member (s : Loop) (c : ℕ) : Prop := c ∈ (s.handles (s.handles c).parent).ctxs

/-- The context has a stat request in flight, or its callback runs. -/
def Loop.Busy (s : Loop) (c : ℕ) : Prop := c ∈ s.stats ∨ s.pc = .pollCb c

def Loop.IsPending (s : Loop) (h : ℕ) : Prop :=
  h ∈ s.handleQueue ∧ (s.handles h).flags.closing = true ∧ (s.handles h).flags.closed = false

def Loop.IsTimer (s : Loop) (c : ℕ) : Prop :=
  c ∈ s.used ∧ (s.handles c).kind = .timer ∧ ((s.handles c).flags.closed = false → c ∈ s.handleQueue)

/-- The invariant; the handle `x` may be closing and on no list. -/
structure Inv (x : Option ℕ) (s : Loop) : Prop where
  closing : Chain (fun h => (s.handles h).nextClosing) s.closingHandles s.closing
  detached : Chain (fun h => (s.handles h).nextClosing) s.pc.rest s.detached
  nodup : (s.closing ++ s.detached).Nodup
  split : s.processed ++ s.detached = s.snapshot
  snapshot : s.snapshot.Nodup
  listed : ∀ h, h ∈ s.closing ∨ h ∈ s.detached → s.IsPending h ∧ (s.handles h).ctxs = []
  pending : ∀ h, s.IsPending h → x ≠ some h →
    h ∈ s.closing ∨ h ∈ s.detached ∨ ((s.handles h).kind = .fsPoll ∧ (s.handles h).ctxs ≠ [])
  finished : ∀ h ∈ s.handleQueue, (s.handles h).flags.closed = true → s.pc.cur = some h
  cur : ∀ h, s.pc.cur = some h → h ∈ s.handleQueue ∧ (s.handles h).flags.closing = true ∧
    (s.handles h).flags.closed = true ∧ (s.handles h).ctxs = []
  called : s.called.Nodup
  gone : ∀ h ∈ s.called, h ∈ s.used ∧ h ∉ s.handleQueue ∧ (s.handles h).flags.closed = true
  used : ∀ h ∈ s.handleQueue, h ∈ s.used
  ctxs : ∀ h, (s.handles h).ctxs ≠ [] → (s.handles h).kind = .fsPoll ∧ h ∈ s.handleQueue ∧
    (s.handles h).flags.closed = false
  members : ∀ h, ∀ c ∈ (s.handles h).ctxs, s.IsTimer c
  timers : ∀ c ∈ s.handleQueue, (s.handles c).flags.closing = true → (s.handles c).closeCb = .timerClose → s.Member c
  busy : ∀ c, s.Busy c → c ∈ s.used ∧ ((s.handles c).flags.closing = true ∨ s.Member c)

structure Agree (s t : Loop) : Prop where
  core : ∀ h, SameCore (s.handles h) (t.handles h)
  handleQueue : t.handleQueue = s.handleQueue
  closingHandles : t.closingHandles = s.closingHandles
  rest : t.pc.rest = s.pc.rest
  cur : t.pc.cur = s.pc.cur
  used : t.used = s.used
  closing : t.closing = s.closing
  detached : t.detached = s.detached
  snapshot : t.snapshot = s.snapshot
  processed : t.processed = s.processed
  called : t.called = s.called
  busy : ∀ c, t.Busy c → s.Busy c

namespace Agree
variable {s t : Loop} (h : Agree s t)
include h

theorem isPending (y : ℕ) : t.IsPending y ↔ s.IsPending y := by
  simp [Loop.IsPending, h.handleQueue, (h.core y).closing, (h.core y).closed]

theorem member (c : ℕ) : t.Member c ↔ s.Member c := by
  simp [Loop.Member, (h.core _).parent, (h.core _).ctxs]

theorem inv {x : Option ℕ} (hs : Inv x s) : Inv x t := by
  have hnext : (fun y => (t.handles y).nextClosing) = fun y => (s.handles y).nextClosing :=
    funext fun y => (h.core y).nextClosing
  constructor
  case closing => rw [hnext, h.closingHandles, h.closing]; exact hs.closing
  case detached => rw [hnext, h.rest, h.detached]; exact hs.detached
  case nodup => rw [h.closing, h.detached]; exact hs.nodup
  case split => rw [h.processed, h.detached, h.snapshot]; exact hs.split
  case snapshot => rw [h.snapshot]; exact hs.snapshot
  case listed =>
    intro y hy
    rw [h.closing, h.detached] at hy
    rw [h.isPending, (h.core y).ctxs]
    exact hs.listed y hy
  case pending =>
    intro y hy
    rw [h.closing, h.detached, (h.core y).kind, (h.core y).ctxs]
    exact hs.pending y ((h.isPending y).1 hy)
  case finished =>
    intro y hy
    rw [h.cur, (h.core y).closed]
    exact hs.finished y (h.handleQueue ▸ hy)
  case cur =>
    intro y hy
    rw [h.handleQueue, (h.core y).closing, (h.core y).closed, (h.core y).ctxs]
    exact hs.cur y (h.cur ▸ hy)
  case called => rw [h.called]; exact hs.called
  case gone =>
    intro y hy
    rw [h.used, h.handleQueue, (h.core y).closed]
    exact hs.gone y (h.called ▸ hy)
  case used => rw [h.handleQueue, h.used]; exact hs.used
  case ctxs =>
    intro y
    rw [(h.core y).ctxs, (h.core y).kind, h.handleQueue, (h.core y).closed]
    exact hs.ctxs y
  case members =>
    intro y c hc
    rw [(h.core y).ctxs] at hc
    rw [Loop.IsTimer, h.used, (h.core c).kind, (h.core c).closed, h.handleQueue]
    exact hs.members y c hc
  case timers =>
    intro y hy
    rw [(h.core y).closing, (h.core y).closeCb, h.member]
    exact hs.timers y (h.handleQueue ▸ hy)
  case busy =>
    intro y hy
    rw [h.used, (h.core y).closing, h.member]
    exact hs.busy y (h.busy y hy)

end Agree

@[simp] theorem put_self (s : Loop) (h : ℕ) (x : Handle) : (s.put h x).handles h = x := Function.update_self ..

variable {h : ℕ} {s t : Loop}

theorem put_other (s : Loop) {y : ℕ} (x : Handle) (hy : y ≠ h) : (s.put h x).handles y = s.handles y :=
  Function.update_of_ne hy ..

theorem SameCore.refl (x : Handle) : SameCore x x := ⟨rfl, rfl, rfl, rfl, rfl, rfl, rfl⟩

theorem agree_put {x : Handle} (hx : SameCore (s.handles h) x) : Agree s (s.put h x) := by
  refine ⟨fun y => ?_, rfl, rfl, rfl, rfl, rfl, rfl, rfl, rfl, rfl, rfl, fun _ => id⟩
  by_cases e : y = h
  · rw [e, put_self]
    exact hx
  · rw [put_other _ _ e]
    exact SameCore.refl _

/-- A macro that leaves `UV_HANDLE_CLOSING` and `UV_HANDLE_CLOSED` alone. -/
def Quiet (m : Flags → ℕ → Flags × ℕ) : Prop :=
  ∀ f n, (m f n).1.closing = f.closing ∧ (m f n).1.closed = f.closed

theorem quiet_start : Quiet handleStart := fun f n => by
  unfold handleStart
  split <;> exact ⟨rfl, rfl⟩

theorem quiet_stop : Quiet handleStop := fun f n => by
  unfold handleStop
  split <;> exact ⟨rfl, rfl⟩

theorem quiet_ref : Quiet handleRef := fun f n => by
  unfold handleRef
  split
  · exact ⟨rfl, rfl⟩
  · dsimp only
    split <;> exact ⟨rfl, rfl⟩

theorem quiet_unref : Quiet handleUnref := fun f n => by
  unfold handleUnref
  split
  · exact ⟨rfl, rfl⟩
  · dsimp only
    split <;> exact ⟨rfl, rfl⟩

theorem agree_flag (s : Loop) (h : ℕ) {m : Flags → ℕ → Flags × ℕ} (hm : Quiet m) : Agree s (s.flag h m) :=
  have hx := hm (s.handles h).flags s.activeHandles
  have a := agree_put (s := s) (h := h) (x := { s.handles h with flags := (m (s.handles h).flags s.activeHandles).1 })
    ⟨rfl, hx.1, hx.2, rfl, rfl, rfl, rfl⟩
  ⟨a.core, rfl, rfl, rfl, rfl, rfl, rfl, rfl, rfl, rfl, rfl, fun _ => id⟩

/-! ## What closing a handle leaves alone -/

/-- The requests and the callbacks called are as before. -/
structure Calls (s t : Loop) : Prop where
  stats : t.stats = s.stats
  others : t.others = s.others
  activeReqs : t.activeReqs = s.activeReqs
  called : t.called = s.called
  processed : t.processed = s.processed

structure Still (s t : Loop) : Prop extends Calls s t where
  ctxs : ∀ y, (t.handles y).ctxs = (s.handles y).ctxs

theorem Calls.refl (s : Loop) : Calls s s := ⟨rfl, rfl, rfl, rfl, rfl⟩

theorem Calls.trans {u : Loop} (h : Calls s t) (h' : Calls t u) : Calls s u :=
  ⟨h'.stats.trans h.stats, h'.others.trans h.others, h'.activeReqs.trans h.activeReqs, h'.called.trans h.called,
    h'.processed.trans h.processed⟩

theorem calls_put (s : Loop) (h : ℕ) (x : Handle) : Calls s (s.put h x) := ⟨rfl, rfl, rfl, rfl, rfl⟩

theorem Still.refl (s : Loop) : Still s s := ⟨Calls.refl s, fun _ => rfl⟩

theorem Still.trans {u : Loop} (h : Still s t) (h' : Still t u) : Still s u :=
  ⟨h.toCalls.trans h'.toCalls, fun y => (h'.ctxs y).trans (h.ctxs y)⟩

theorem ctxs_put {x : Handle} (hx : x.ctxs = (s.handles h).ctxs) (y : ℕ) :
    ((s.put h x).handles y).ctxs = (s.handles y).ctxs := by
  by_cases e : y = h
  · rw [e, put_self, hx]
  · rw [put_other _ _ e]

theorem still_mark (s : Loop) (h : ℕ) (cb : CloseCb) : Still s (markClosing s h cb) :=
  ⟨⟨rfl, rfl, rfl, rfl, rfl⟩, ctxs_put (by rfl)⟩

theorem still_flag (s : Loop) (h : ℕ) (m : Flags → ℕ → Flags × ℕ) : Still s (s.flag h m) :=
  ⟨⟨rfl, rfl, rfl, rfl, rfl⟩, ctxs_put (by rfl)⟩

theorem still_pending (ht : makeClosePending s h = some t) : Still s t := by
  unfold makeClosePending at ht
  dsimp only at ht
  split at ht
  · cases ht
    exact ⟨⟨rfl, rfl, rfl, rfl, rfl⟩, ctxs_put (by rfl)⟩
  · cases ht

theorem still_closeOther {cb : CloseCb} (ht : uvCloseOther s h cb = some t) : Still s t := by
  unfold uvCloseOther at ht
  split at ht
  · cases ht
  · exact ((still_mark s h cb).trans (still_flag _ h _)).trans (still_pending ht)

theorem still_fsPollStop (ht : fsPollStop s h = some t) : Still s t := by
  unfold fsPollStop at ht
  split at ht
  · cases ht
    exact Still.refl s
  · split at ht
    · cases ht
    · split at ht
      · obtain ⟨u, hu, rfl⟩ := map_eq_some_iff.1 ht
        refine Still.trans ?_ (still_flag u h _)
        split at hu
        · exact still_closeOther hu
        · cases hu
          exact Still.refl s
      · cases ht

theorem still_close {cb : CloseCb} (ht : uvClose s h cb = some t) : Still s t := by
  unfold uvClose at ht
  split at ht
  · split at ht
    · cases ht
    · obtain ⟨u, hu, ht⟩ := bind_eq_some_iff.1 ht
      refine Still.trans ((still_mark s h cb).trans (still_fsPollStop hu)) ?_
      split at ht
      · exact still_pending ht
      · cases ht
        exact Still.refl _
  · exact still_closeOther ht

theorem calls_pollOut {c : ℕ} (ht : pollOut s c = some t) : Calls s t := by
  unfold pollOut at ht
  dsimp only at ht
  split at ht
  · have h1 : Calls s { s with pc := .idle } := ⟨rfl, rfl, rfl, rfl, rfl⟩
    exact h1.trans (still_closeOther ht).toCalls
  · split at ht
    · cases ht
    · cases ht
      exact ⟨rfl, rfl, rfl, rfl, rfl⟩

/-! ## What the operations do to the lists -/

section Steps
variable {s t : Loop} {h : ℕ}

theorem Inv.link {x : Handle} (hs : Inv (some h) s) (hp : s.IsPending h) (hc : (s.handles h).ctxs = []) (h1 : h ∉ s.closing)
    (h2 : h ∉ s.detached) (hx : SameCore { s.handles h with nextClosing := s.closingHandles } x) :
    Inv none { s.put h x with closingHandles := some h, closing := h :: s.closing } := by
  have hself : (s.put h x).handles h = x := put_self ..
  have hother : ∀ y, y ≠ h → (s.put h x).handles y = s.handles y := fun y e => put_other s x e
  have hcore : ∀ y, SameCore { s.handles y with nextClosing := ((s.put h x).handles y).nextClosing } ((s.put h x).handles y) :=
    fun y => by
      by_cases e : y = h
      · rw [e, hself]
        exact ⟨hx.kind, hx.closing, hx.closed, rfl, hx.closeCb, hx.ctxs, hx.parent⟩
      · rw [hother y e]
        exact SameCore.refl _
  have hm : ∀ c, (s.put h x).Member c ↔ s.Member c := fun c => by
    simp [Loop.Member, (hcore _).parent, (hcore _).ctxs]
  constructor
  case closing =>
    refine ⟨rfl, ?_⟩
    dsimp only
    rw [hself, hx.nextClosing]
    exact hs.closing.congr fun y hy => by rw [hother y fun e => h1 (e ▸ hy)]
  case detached =>
    refine hs.detached.congr fun y hy => ?_
    rw [hother y fun e => h2 (e ▸ hy)]
  case nodup =>
    refine nodup_cons.2 ⟨fun hm => ?_, hs.nodup⟩
    exact (mem_append.1 hm).elim h1 h2
  case split => exact hs.split
  case snapshot => exact hs.snapshot
  case listed =>
    intro y hy
    simp only [Loop.IsPending, (hcore y).closing, (hcore y).closed, (hcore y).ctxs]
    by_cases e : y = h
    · rw [e]
      exact ⟨hp, hc⟩
    · refine hs.listed y (hy.imp_left fun hy => ?_)
      exact (mem_cons.1 hy).resolve_left e
  case pending =>
    intro y hy _
    simp only [Loop.IsPending, (hcore y).closing, (hcore y).closed] at hy
    simp only [(hcore y).kind, (hcore y).ctxs]
    by_cases e : y = h
    · rw [e]
      exact .inl mem_cons_self
    · exact (hs.pending y hy fun he => e (some.inj he).symm).imp_left (mem_cons_of_mem _)
  case finished =>
    intro y hy
    simp only [(hcore y).closed]
    exact hs.finished y hy
  case cur =>
    intro y hy
    simp only [(hcore y).closing, (hcore y).closed, (hcore y).ctxs]
    exact hs.cur y hy
  case called => exact hs.called
  case gone =>
    intro y hy
    simp only [(hcore y).closed]
    exact hs.gone y hy
  case used => exact hs.used
  case ctxs =>
    intro y
    simp only [(hcore y).kind, (hcore y).closed, (hcore y).ctxs]
    exact hs.ctxs y
  case members =>
    intro y c hc
    simp only [(hcore y).ctxs] at hc
    simp only [Loop.IsTimer, (hcore c).kind, (hcore c).closed]
    exact hs.members y c hc
  case timers =>
    intro y hy h1 h2
    simp only [(hcore y).closing, (hcore y).closeCb] at h1 h2
    exact (hm y).2 (hs.timers y hy h1 h2)
  case busy =>
    intro y hy
    simp only [(hcore y).closing]
    exact (hs.busy y hy).imp_right (Or.imp_right (hm y).2)

theorem Inv.push (hs : Inv (some h) s) (hp : s.IsPending h) (hc : (s.handles h).ctxs = []) (h1 : h ∉ s.closing)
    (h2 : h ∉ s.detached) : ∃ t, makeClosePending s h = some t ∧ Inv none t :=
  ⟨_, if_pos (by simp [hp.2.1, hp.2.2]), hs.link hp hc h1 h2 (SameCore.refl _)⟩

/-- A change of the fields of one handle, its link apart. -/
structure Change (x' : Option ℕ) (s : Loop) (h : ℕ) (r : Handle) : Prop where
  next : r.nextClosing = (s.handles h).nextClosing
  kind : r.kind = (s.handles h).kind
  parent : r.parent = (s.handles h).parent
  listed : h ∈ s.closing ∨ h ∈ s.detached → r.ctxs = []
  closing : (s.handles h).flags.closing = true → r.flags.closing = true
  closed : r.flags.closed = (s.handles h).flags.closed
  pending : h ∈ s.handleQueue → r.flags.closing = true → r.flags.closed = false → x' ≠ some h →
    h ∈ s.closing ∨ h ∈ s.detached ∨ (r.kind = .fsPoll ∧ r.ctxs ≠ [])
  cur : s.pc.cur = some h → r.ctxs = []
  ctxs : r.ctxs ≠ [] → r.kind = .fsPoll ∧ h ∈ s.handleQueue ∧ r.flags.closed = false
  members : ∀ c ∈ r.ctxs, s.IsTimer c
  member : ∀ c ∈ (s.handles h).ctxs, c ∈ r.ctxs ∨ (c ∉ s.handleQueue ∧ (s.handles c).flags.closing = true)
  timer : h ∈ s.handleQueue → r.flags.closing = true → r.closeCb = .timerClose → s.Member h

theorem Inv.put {x' : Option ℕ} {r : Handle} (hs : Inv none s) (hr : Change x' s h r) : Inv x' (s.put h r) := by
  have hself : (s.put h r).handles h = r := put_self ..
  have hother : ∀ y, y ≠ h → (s.put h r).handles y = s.handles y := fun y e => put_other s r e
  have hnext : ∀ y, ((s.put h r).handles y).nextClosing = (s.handles y).nextClosing := fun y => by
    by_cases e : y = h
    · rw [e, hself, hr.next]
    · rw [hother y e]
  have hclosed : ∀ y, ((s.put h r).handles y).flags.closed = (s.handles y).flags.closed := fun y => by
    by_cases e : y = h
    · rw [e, hself, hr.closed]
    · rw [hother y e]
  have hclosing : ∀ y, (s.handles y).flags.closing = true → ((s.put h r).handles y).flags.closing = true := fun y hy => by
    by_cases e : y = h
    · rw [e, hself]
      exact hr.closing (e ▸ hy)
    · rw [hother y e]
      exact hy
  have hparent : ∀ y, ((s.put h r).handles y).parent = (s.handles y).parent := fun y => by
    by_cases e : y = h
    · rw [e, hself, hr.parent]
    · rw [hother y e]
  have hkind : ∀ y, ((s.put h r).handles y).kind = (s.handles y).kind := fun y => by
    by_cases e : y = h
    · rw [e, hself, hr.kind]
    · rw [hother y e]
  have hmember : ∀ c, s.Member c → (s.put h r).Member c ∨ (c ∉ s.handleQueue ∧ (s.handles c).flags.closing = true) := by
    intro c h1
    unfold Loop.Member at h1 ⊢
    rw [hparent]
    by_cases e : (s.handles c).parent = h
    · rw [e] at h1 ⊢
      rw [hself]
      exact hr.member c h1
    · rw [hother _ e]
      exact .inl h1
  constructor
  case closing => exact hs.closing.congr fun y _ => hnext y
  case detached => exact hs.detached.congr fun y _ => hnext y
  case nodup => exact hs.nodup
  case split => exact hs.split
  case snapshot => exact hs.snapshot
  case listed =>
    intro y hy
    obtain ⟨⟨k1, k2, k3⟩, k4⟩ := hs.listed y hy
    refine ⟨⟨k1, hclosing y k2, (hclosed y).trans k3⟩, ?_⟩
    by_cases e : y = h
    · rw [e, hself]
      exact hr.listed (e ▸ hy)
    · rw [hother y e]
      exact k4
  case pending =>
    intro y ⟨k1, k2, k3⟩ hx
    by_cases e : y = h
    · rw [e, hself] at k2 k3 ⊢
      exact hr.pending (e ▸ k1) k2 k3 (e ▸ hx)
    · rw [hother y e] at k2 k3 ⊢
      exact hs.pending y ⟨k1, k2, k3⟩ nofun
  case finished =>
    intro y hy
    rw [hclosed]
    exact hs.finished y hy
  case cur =>
    intro y hy
    obtain ⟨k1, k2, k3, k4⟩ := hs.cur y hy
    refine ⟨k1, hclosing y k2, (hclosed y).trans k3, ?_⟩
    by_cases e : y = h
    · rw [e, hself]
      exact hr.cur (e ▸ hy)
    · rw [hother y e]
      exact k4
  case called => exact hs.called
  case gone =>
    intro y hy
    rw [hclosed]
    exact hs.gone y hy
  case used => exact hs.used
  case ctxs =>
    intro y
    by_cases e : y = h
    · rw [e, hself]
      exact hr.ctxs
    · rw [hother y e]
      exact hs.ctxs y
  case members =>
    intro y c hc
    rw [Loop.IsTimer, hkind, hclosed]
    by_cases e : y = h
    · rw [e, hself] at hc
      exact hr.members c hc
    · rw [hother y e] at hc
      exact hs.members y c hc
  case timers =>
    intro c hc k1 k2
    have hm : s.Member c := by
      by_cases e : c = h
      · rw [e, hself] at k1 k2
        rw [e]
        exact hr.timer (e ▸ hc) k1 k2
      · rw [hother c e] at k1 k2
        exact hs.timers c hc k1 k2
    exact (hmember c hm).resolve_right fun h3 => h3.1 hc
  case busy =>
    intro c hc
    obtain ⟨k1, k2⟩ := hs.busy c hc
    refine ⟨k1, ?_⟩
    rcases k2 with k2 | k2
    · exact .inl (hclosing c k2)
    · exact (hmember c k2).symm.imp_left fun h3 => hclosing c h3.2

theorem isClosing_eq_false {f : Flags} : f.isClosing = false ↔ f.closing = false ∧ f.closed = false := by
  exact Bool.or_eq_false_iff

theorem Inv.unlisted {x : Option ℕ} (hs : Inv x s) (hc : (s.handles h).flags.closing = false) :
    ¬ (h ∈ s.closing ∨ h ∈ s.detached) := by
  intro hl
  have hclosing := (hs.listed h hl).1.2.1
  rw [hc] at hclosing
  cases hclosing

variable {cb : CloseCb} {c : ℕ}

theorem Inv.mark (hs : Inv none s) (ho : (s.handles h).flags.isClosing = false)
    (hcb : cb = .timerClose → s.Member h) :
    Inv (some h) (markClosing s h cb) ∧ ((s.handles h).ctxs ≠ [] → Inv none (markClosing s h cb)) := by
  obtain ⟨ho, hc⟩ := isClosing_eq_false.1 ho
  have hl := hs.unlisted ho
  have change : ∀ {x'}, (x' ≠ some h → (s.handles h).kind = .fsPoll ∧ (s.handles h).ctxs ≠ []) → Change x' s h
      { s.handles h with flags := { (s.handles h).flags with closing := true }, closeCb := cb } := fun hx =>
    { next := rfl, kind := rfl, parent := rfl, closed := rfl
      listed := fun h1 => absurd h1 hl
      closing := fun _ => rfl
      pending := fun _ _ _ hne => .inr (.inr (hx hne))
      cur := fun h1 => (hs.cur h h1).2.2.2
      ctxs := hs.ctxs h
      members := hs.members h
      member := fun _ => .inl
      timer := fun _ _ => hcb }
  exact ⟨hs.put (change fun hne => absurd rfl hne), fun hne => hs.put (change fun _ => ⟨(hs.ctxs h hne).1, hne⟩)⟩

theorem Inv.closeOther (hs : Inv none s) (hq : h ∈ s.handleQueue) (hk : (s.handles h).kind ≠ .fsPoll)
    (hcb : cb = .timerClose → s.Member h) (he : uvCloseOther s h cb = some t) : Inv none t := by
  unfold uvCloseOther at he
  split at he
  · cases he
  · next ho =>
    have ho : (s.handles h).flags.isClosing = false := by simpa using ho
    have hctxs : (s.handles h).ctxs = [] := by
      by_contra hne
      exact hk (hs.ctxs h hne).1
    have hl := hs.unlisted (isClosing_eq_false.1 ho).1
    have a := agree_flag (markClosing s h cb) h quiet_stop
    have hp : (markClosing s h cb).IsPending h := ⟨hq, by simp [markClosing], by simp [markClosing, isClosing_eq_false.1 ho]⟩
    have hc : ((markClosing s h cb).handles h).ctxs = [] := by simp [markClosing, hctxs]
    obtain ⟨t', ht', hinv⟩ := (a.inv (hs.mark ho hcb).1).push ((a.isPending h).2 hp) ((a.core h).ctxs.trans hc)
      (fun hm => hl (.inl hm)) (fun hm => hl (.inr hm))
    cases ht'.symm.trans he
    exact hinv

theorem Inv.fsPollStop (hs : Inv none s) (he : fsPollStop s h = some t) : Inv none t := by
  unfold Closing.fsPollStop at he
  split at he
  · cases he
    exact hs
  · cases hc : (s.handles h).ctxs with
    | nil => simp [hc] at he
    | cons c l =>
      simp only [hc] at he
      split at he
      · next hpar =>
        obtain ⟨u, hu, rfl⟩ := map_eq_some_iff.1 he
        refine (agree_flag u h quiet_stop).inv ?_
        split at hu
        · obtain ⟨k1, k2, k3⟩ := hs.members h c (by simp [hc])
          have hopen : (s.handles c).flags.closed = false := by
            unfold uvCloseOther at hu
            split at hu
            · cases hu
            · next ho => exact (isClosing_eq_false.1 (by simpa using ho)).2
          exact hs.closeOther (k3 hopen) (by rw [k2]; nofun) (fun _ => by rw [Loop.Member, hpar, hc]; exact mem_cons_self) hu
        · cases hu
          exact hs
      · cases he

theorem Inv.close (hs : Inv none s) (hq : h ∈ s.handleQueue) (hcb : cb ≠ .timerClose)
    (he : uvClose s h cb = some t) : Inv none t := by
  unfold uvClose at he
  split at he
  · split at he
    · cases he
    · next ho =>
      have ho : (s.handles h).flags.isClosing = false := by simpa using ho
      obtain ⟨u, hu, he⟩ := bind_eq_some_iff.1 he
      have hctxs : (u.handles h).ctxs = (s.handles h).ctxs := by
        rw [(still_fsPollStop hu).ctxs, markClosing, put_self]
      obtain ⟨hm, hm'⟩ := hs.mark ho fun e : cb = .timerClose => absurd e hcb
      by_cases hc : (s.handles h).ctxs = []
      · -- nothing was started, so there is nothing to stop
        have hu : u = markClosing s h cb := by
          have hmc : ((markClosing s h cb).handles h).ctxs = [] := by rw [markClosing, put_self, hc]
          unfold Closing.fsPollStop at hu
          rw [hmc] at hu
          split at hu
          · exact (some.inj hu).symm
          · cases hu
        rw [if_pos (hctxs.trans hc), hu] at he
        have hl := hs.unlisted (isClosing_eq_false.1 ho).1
        obtain ⟨t', ht', hinv⟩ := hm.push ⟨hq, by simp [markClosing], by simp [markClosing, isClosing_eq_false.1 ho]⟩
          (by rw [markClosing, put_self, hc]) (fun h1 => hl (.inl h1)) (fun h1 => hl (.inr h1))
        cases ht'.symm.trans he
        exact hinv
      · rw [if_neg fun e => hc (hctxs.symm.trans e)] at he
        cases he
        exact (hm' hc).fsPollStop hu
  · next hk => exact hs.closeOther hq hk (fun e => absurd e hcb) he

theorem Inv.init {x : Handle} (hs : Inv none s) (hn : h ∉ s.used) (hx : x.ctxs = []) : Inv none (init s h x) := by
  have hne : ∀ y, y ∈ s.used → y ≠ h := fun y hy e => hn (e ▸ hy)
  have hself : (Closing.init s h x).handles h = { x with flags := handleInit, nextClosing := none } := put_self ..
  have hother : ∀ y, y ≠ h → (Closing.init s h x).handles y = s.handles y := fun y e => put_other s _ e
  have hlist : ∀ y, y ∈ s.closing ∨ y ∈ s.detached → y ≠ h := fun y hy => hne y (hs.used y (hs.listed y hy).1.1)
  have hctxs : ∀ y, (s.handles y).ctxs ≠ [] → y ≠ h := fun y hy => hne y (hs.used y (hs.ctxs y hy).2.1)
  have hmember : ∀ c, c ∈ s.used → s.Member c → (Closing.init s h x).Member c := fun c hc hm => by
    unfold Loop.Member at hm ⊢
    rw [hother c (hne c hc), hother _ (hctxs _ (ne_nil_of_mem hm))]
    exact hm
  have hqueue : ∀ y, y ≠ h → y ∈ (Closing.init s h x).handleQueue → y ∈ s.handleQueue := fun y e hy =>
    (mem_append.1 hy).resolve_right fun h1 => e (mem_singleton.1 h1)
  constructor
  case closing => exact hs.closing.congr fun y hy => by rw [hother y (hlist y (.inl hy))]
  case detached => exact hs.detached.congr fun y hy => by rw [hother y (hlist y (.inr hy))]
  case nodup => exact hs.nodup
  case split => exact hs.split
  case snapshot => exact hs.snapshot
  case listed =>
    intro y hy
    obtain ⟨⟨k1, k2, k3⟩, k4⟩ := hs.listed y hy
    rw [Loop.IsPending, hother y (hlist y hy)]
    exact ⟨⟨mem_append_left _ k1, k2, k3⟩, k4⟩
  case pending =>
    intro y ⟨k1, k2, k3⟩ _
    by_cases e : y = h
    · rw [e, hself] at k2
      cases k2
    · rw [hother y e] at k2 k3 ⊢
      exact hs.pending y ⟨hqueue y e k1, k2, k3⟩ nofun
  case finished =>
    intro y k1 k2
    by_cases e : y = h
    · rw [e, hself] at k2
      cases k2
    · rw [hother y e] at k2
      exact hs.finished y (hqueue y e k1) k2
  case cur =>
    intro y hy
    obtain ⟨k1, k2, k3, k4⟩ := hs.cur y hy
    rw [hother y (hne y (hs.used y k1))]
    exact ⟨mem_append_left _ k1, k2, k3, k4⟩
  case called => exact hs.called
  case gone =>
    intro y hy
    obtain ⟨k1, k2, k3⟩ := hs.gone y hy
    rw [hother y (hne y k1)]
    exact ⟨mem_cons_of_mem _ k1, fun hm => k2 (hqueue y (hne y k1) hm), k3⟩
  case used =>
    intro y hy
    by_cases e : y = h
    · rw [e]
      exact mem_cons_self
    · exact mem_cons_of_mem _ (hs.used y (hqueue y e hy))
  case ctxs =>
    intro y hne'
    by_cases e : y = h
    · rw [e, hself] at hne'
      exact absurd hx hne'
    · rw [hother y e] at hne' ⊢
      obtain ⟨k1, k2, k3⟩ := hs.ctxs y hne'
      exact ⟨k1, mem_append_left _ k2, k3⟩
  case members =>
    intro y c hc
    by_cases e : y = h
    · rw [e, hself, hx] at hc
      cases hc
    · rw [hother y e] at hc
      obtain ⟨k1, k2, k3⟩ := hs.members y c hc
      rw [Loop.IsTimer, hother c (hne c k1)]
      exact ⟨mem_cons_of_mem _ k1, k2, fun h1 => mem_append_left _ (k3 h1)⟩
  case timers =>
    intro c hc k1 k2
    by_cases e : c = h
    · rw [e, hself] at k1
      cases k1
    · rw [hother c e] at k1 k2
      exact hmember c (hs.used c (hqueue c e hc)) (hs.timers c (hqueue c e hc) k1 k2)
  case busy =>
    intro c hc
    obtain ⟨k1, k2⟩ := hs.busy c hc
    rw [hother c (hne c k1)]
    exact ⟨mem_cons_of_mem _ k1, k2.imp_right (hmember c k1)⟩

theorem Inv.addCtx (hs : Inv none s) (hq : h ∈ s.handleQueue) (hk : (s.handles h).kind = .fsPoll)
    (ho : (s.handles h).flags.isClosing = false) (hc : s.IsTimer c) (hpar : (s.handles c).parent = h) :
    Inv none { s.put h { s.handles h with ctxs := c :: (s.handles h).ctxs } with stats := c :: s.stats } := by
  obtain ⟨ho, hcl⟩ := isClosing_eq_false.1 ho
  have hl := hs.unlisted ho
  have hinv : Inv none (s.put h { s.handles h with ctxs := c :: (s.handles h).ctxs }) := hs.put
    { next := rfl, kind := rfl, parent := rfl, closed := rfl
      listed := fun h1 => absurd h1 hl
      closing := id
      pending := fun _ h1 => by simp [ho] at h1
      cur := fun h1 => by
        have := (hs.cur h h1).2.1
        rw [ho] at this
        cases this
      ctxs := fun _ => ⟨hk, hq, hcl⟩
      members := forall_mem_cons.2 ⟨hc, hs.members h⟩
      member := fun _ h1 => .inl (mem_cons_of_mem _ h1)
      timer := fun h1 => hs.timers h h1 }
  refine { hinv with busy := fun d hd => ?_ }
  have hd : d = c ∨ s.Busy d := by
    rcases hd with hd | hd
    · exact (mem_cons.1 hd).imp_right .inl
    · exact .inr (.inr hd)
  rcases hd with rfl | hd
  · refine ⟨hc.1, .inr ?_⟩
    unfold Loop.Member
    have e : d ≠ h := fun e => by
      have := hc.2.1
      rw [e, hk] at this
      cases this
    have hput : (s.put h { s.handles h with ctxs := d :: (s.handles h).ctxs }).handles d = s.handles d := put_other _ _ e
    rw [hput, hpar, put_self]
    exact mem_cons_self
  · exact hinv.busy d hd

theorem agree_reqs (s : Loop) (n m : ℕ) (l : List ℕ) :
    Agree s { s with activeReqs := n, others := m, pendingQueue := l } :=
  ⟨fun _ => SameCore.refl _, rfl, rfl, rfl, rfl, rfl, rfl, rfl, rfl, rfl, rfl, fun _ => id⟩

theorem Inv.fsPollStart {ok : Bool} (hs : Inv none s) (hq : h ∈ s.handleQueue) (hk : (s.handles h).kind = .fsPoll)
    (ho : (s.handles h).flags.isClosing = false) (hc : c ∉ s.used) : Inv none (fsPollStart s h c ok) := by
  unfold Closing.fsPollStart
  split
  · exact hs
  · have hne : h ≠ c := fun e => hc (e ▸ hs.used h hq)
    dsimp only
    generalize hx : ({ s.handles c with kind := .timer, internal := true, ctxs := [], parent := h } : Handle) = x
    have h1 : Inv none ((Closing.init s c x).flag c handleUnref) :=
      (agree_flag _ c quiet_unref).inv (hs.init hc (by rw [← hx]))
    have hh : ((Closing.init s c x).flag c handleUnref).handles h = s.handles h :=
      (put_other _ _ hne).trans (put_other _ _ hne)
    have hcc : SameCore { x with flags := handleInit, nextClosing := none } (((Closing.init s c x).flag c handleUnref).handles c) := by
      have a := (agree_flag (Closing.init s c x) c quiet_unref).core c
      rwa [Closing.init, put_self] at a
    have hqueue : h ∈ ((Closing.init s c x).flag c handleUnref).handleQueue := mem_append_left _ hq
    have hcq : c ∈ ((Closing.init s c x).flag c handleUnref).handleQueue :=
      mem_append_right _ (mem_singleton_self c)
    have hcu : c ∈ ((Closing.init s c x).flag c handleUnref).used := mem_cons_self
    generalize (Closing.init s c x).flag c handleUnref = u at *
    have htimer : u.IsTimer c := ⟨hcu, by rw [hcc.kind, ← hx], fun _ => hcq⟩
    have hpar : (u.handles c).parent = h := by rw [hcc.parent, ← hx]
    split
    · have h2 := h1.addCtx hqueue (hh ▸ hk) (hh ▸ ho) htimer hpar
      exact (agree_flag _ h quiet_start).inv ((agree_reqs _ ((u.activeReqs + 1) % uintMax) _ _).inv h2)
    · exact h1

theorem agree_idle (hr : s.pc.rest = none) (hc : s.pc.cur = none) : Agree s { s with pc := .idle } := by
  refine ⟨fun _ => SameCore.refl _, rfl, rfl, hr.symm, hc.symm, rfl, rfl, rfl, rfl, rfl, rfl, fun c h => ?_⟩
  rcases h with h | h
  · exact .inl h
  · cases h

theorem Inv.pollOut (hs : Inv none s) (hr : s.pc.rest = none) (hp : s.pc.cur = none)
    (hc : (s.handles c).flags.closing = true ∨ s.Member c) (he : pollOut s c = some t) : Inv none t := by
  have hi := (agree_idle hr hp).inv hs
  unfold Closing.pollOut at he
  dsimp only at he
  split at he
  · have ho : (s.handles c).flags.isClosing = false := by
      unfold uvCloseOther at he
      split at he
      · cases he
      · next ho => simpa using ho
    have hm : s.Member c := hc.resolve_left (by simp [(isClosing_eq_false.1 ho).1])
    obtain ⟨k1, k2, k3⟩ := hs.members _ c hm
    exact hi.closeOther (k3 (isClosing_eq_false.1 ho).2) (by dsimp only; rw [k2]; nofun) (fun _ => hm) he
  · split at he
    · cases he
    · cases he
      exact (agree_flag _ c quiet_start).inv ((agree_flag _ c quiet_stop).inv hi)

theorem Inv.pollCb {calls : Bool} (hs : Inv none s) (hpc : s.pc = .idle) (hc : c ∈ s.stats)
    (he : pollCb s c calls = some t) : Inv none t := by
  obtain ⟨u, hu, he⟩ := bind_eq_some_iff.1 he
  have hb := (hs.busy c (.inl hc)).2
  have hu : Inv none { u with stats := u.stats.erase c } ∧ u.handles = s.handles ∧ u.used = s.used ∧ u.pc = .idle := by
    unfold reqUnregister at hu
    split at hu
    · cases hu
    · cases hu
      refine ⟨?_, rfl, rfl, hpc⟩
      have a : Agree s { s with activeReqs := (s.activeReqs + (uintMax - 1)) % uintMax, stats := s.stats.erase c } :=
        ⟨fun _ => SameCore.refl _, rfl, rfl, rfl, rfl, rfl, rfl, rfl, rfl, rfl, rfl, fun d h => h.imp_left mem_of_mem_erase⟩
      exact a.inv hs
  obtain ⟨hi, hh, hused, hidle⟩ := hu
  have hb : (u.handles c).flags.closing = true ∨ u.Member c := by
    unfold Loop.Member
    rw [hh]
    exact hb
  dsimp only at he
  split at he
  · cases he
    -- the callback is called, with nothing else changed
    refine { hi with detached := ?_, finished := ?_, cur := ?_, busy := ?_ }
    · have := hi.detached
      rwa [hidle] at this
    · have := hi.finished
      rwa [hidle] at this
    · exact fun _ h => by cases h
    · intro d hd
      rcases hd with hd | hd
      · exact hi.busy d (.inl hd)
      · cases hd
        refine ⟨?_, hb⟩
        rw [show ({ u with pc := .pollCb c, stats := u.stats.erase c } : Loop).used = s.used from hused]
        exact (hs.busy c (.inl hc)).1
  · exact hi.pollOut (by dsimp only; rw [hidle]; rfl) (by dsimp only; rw [hidle]; rfl) hb he

theorem Inv.timerCb (hs : Inv none s) (hc : c ∈ s.handleQueue) (he : timerCb s c = some t) : Inv none t := by
  unfold Closing.timerCb at he
  dsimp only at he
  have hi := (agree_flag s c quiet_stop).inv hs
  have hq : c ∈ (s.flag c handleStop).used := hs.used c hc
  generalize s.flag c handleStop = u at he hi hq
  split at he
  · next hh =>
    cases he
    have hinv : Inv none { u with stats := c :: u.stats } := { hi with
      busy := fun d hd => by
        rcases hd with hd | hd
        · rcases mem_cons.1 hd with rfl | hd
          · exact ⟨hq, .inr (mem_of_head? hh)⟩
          · exact hi.busy d (.inl hd)
        · exact hi.busy d (.inr hd) }
    exact (agree_reqs _ ((u.activeReqs + 1) % uintMax) _ _).inv hinv
  · cases he

/-- `timer_close_cb` takes the context of a finished timer off its handle, and puts the
handle on the list if it waited for this one only. -/
theorem Inv.timerCloseCb (hs : Inv none s) (hq : c ∉ s.handleQueue) (hc : (s.handles c).flags.closing = true)
    (hm : s.Member c) : ∃ t, timerCloseCb s c = some t ∧ Inv none t ∧ Calls s t := by
  unfold Closing.timerCloseCb
  dsimp only
  unfold Loop.Member at hm
  generalize (s.handles c).parent = h at hm
  have hne : (s.handles h).ctxs ≠ [] := ne_nil_of_mem hm
  obtain ⟨k1, k2, k3⟩ := hs.ctxs h hne
  have hl : ¬ (h ∈ s.closing ∨ h ∈ s.detached) := fun hl => hne (hs.listed h hl).2
  have change : ∀ {x' : Option ℕ} {l : List ℕ}, (∀ d ∈ (s.handles h).ctxs, d ≠ c → d ∈ l) → (∀ d ∈ l, d ∈ (s.handles h).ctxs) →
      (x' = some h ∨ l ≠ [] ∨ (s.handles h).flags.closing = false) → Change x' s h { s.handles h with ctxs := l } := by
    intro x' l h1 h2 h3
    refine { next := rfl, kind := rfl, parent := rfl, closed := rfl, closing := id
             listed := fun h4 => absurd h4 hl, pending := fun _ h4 _ h5 => .inr (.inr ⟨k1, ?_⟩)
             cur := fun h4 => absurd (hs.cur h h4).2.2.2 hne, ctxs := fun _ => ⟨k1, k2, k3⟩
             members := fun d hd => hs.members h d (h2 d hd), member := fun d hd => ?_
             timer := fun h4 => hs.timers h h4 }
    · rcases h3 with h3 | h3 | h3
      · exact absurd h3 h5
      · exact h3
      · exact absurd h4 (by simp [h3])
    · by_cases e : d = c
      · rw [e]
        exact .inr ⟨hq, hc⟩
      · exact .inl (h1 d hd e)
  cases hl' : (s.handles h).ctxs with
  | nil => exact absurd hl' hne
  | cons d rest =>
    rw [hl'] at hm change
    dsimp only
    by_cases e : c = d
    · rw [if_pos e]
      have h1 : ∀ a ∈ d :: rest, a ≠ c → a ∈ rest := fun a ha hac =>
        (mem_cons.1 ha).resolve_left fun h2 => hac (h2.trans e.symm)
      have h2 : ∀ a ∈ rest, a ∈ d :: rest := fun a ha => mem_cons_of_mem _ ha
      split
      · next hcond =>
        have hclosing : (s.handles h).flags.closing = true := by
          have := hcond.2
          simpa [Flags.isClosing, k3] using this
        have hinv : Inv (some h) (s.put h { s.handles h with ctxs := rest }) := hs.put (change h1 h2 (.inl rfl))
        obtain ⟨t, ht, hinv⟩ := hinv.push ⟨k2, by simpa using hclosing, by simpa using k3⟩ (by simpa using hcond.1)
          (fun hx => hl (.inl hx)) (fun hx => hl (.inr hx))
        exact ⟨t, ht, hinv, (calls_put s h _).trans (still_pending ht).toCalls⟩
      · next hcond =>
        refine ⟨_, rfl, hs.put (change h1 h2 (.inr ?_)), ⟨rfl, rfl, rfl, rfl, rfl⟩⟩
        by_cases hr : rest = []
        · right
          cases hcl : (s.handles h).flags.closing with
          | false => rfl
          | true => exact absurd ⟨hr, by simp [Flags.isClosing, hcl]⟩ hcond
        · exact .inl hr
    · have hmem : c ∈ rest := (mem_cons.1 hm).resolve_left e
      rw [if_neg e, if_pos hmem]
      refine ⟨_, rfl, hs.put (change (fun a ha hac => ?_) (fun a ha => ?_) (.inr (.inl nofun))), ⟨rfl, rfl, rfl, rfl, rfl⟩⟩
      · exact (mem_cons.1 ha).elim (fun h1 => h1 ▸ mem_cons_self) fun h1 =>
          mem_cons_of_mem _ ((mem_erase_of_ne hac).2 h1)
      · exact (mem_cons.1 ha).elim (fun h1 => h1 ▸ mem_cons_self) fun h1 =>
          mem_cons_of_mem _ (mem_of_mem_erase h1)

theorem Inv.leave {p : ℕ} {q : Option ℕ} (hs : Inv none s) (hpc : s.pc = .destroy p q) :
    Inv none { s with handleQueue := s.handleQueue.filter (· ≠ p), pc := .pass q } := by
  have hcur : s.pc.cur = some p := by rw [hpc]; rfl
  obtain ⟨k1, k2, k3, k4⟩ := hs.cur p hcur
  have mem : ∀ y, y ∈ s.handleQueue.filter (· ≠ p) ↔ y ∈ s.handleQueue ∧ y ≠ p := fun y => by
    simp [mem_filter]
  have hopen : ∀ y, (s.handles y).flags.closed = false → y ≠ p := fun y hy e => by
    rw [e, k3] at hy
    cases hy
  constructor
  case closing => exact hs.closing
  case detached =>
    have := hs.detached
    rwa [hpc] at this
  case nodup => exact hs.nodup
  case split => exact hs.split
  case snapshot => exact hs.snapshot
  case listed =>
    intro y hy
    obtain ⟨⟨h1, h2, h3⟩, h4⟩ := hs.listed y hy
    exact ⟨⟨(mem y).2 ⟨h1, hopen y h3⟩, h2, h3⟩, h4⟩
  case pending => exact fun y hy => hs.pending y ⟨((mem y).1 hy.1).1, hy.2⟩
  case finished =>
    intro y hy hc
    obtain ⟨h1, h2⟩ := (mem y).1 hy
    have := hs.finished y h1 hc
    rw [hcur] at this
    exact absurd (some.inj this).symm h2
  case cur => exact fun y hy => by cases hy
  case called => exact hs.called
  case gone =>
    intro y hy
    obtain ⟨h1, h2, h3⟩ := hs.gone y hy
    exact ⟨h1, fun hm => h2 ((mem y).1 hm).1, h3⟩
  case used => exact fun y hy => hs.used y ((mem y).1 hy).1
  case ctxs =>
    intro y hy
    obtain ⟨h1, h2, h3⟩ := hs.ctxs y hy
    exact ⟨h1, (mem y).2 ⟨h2, hopen y h3⟩, h3⟩
  case members =>
    intro y c hc
    obtain ⟨h1, h2, h3⟩ := hs.members y c hc
    exact ⟨h1, h2, fun h4 => (mem c).2 ⟨h3 h4, hopen c h4⟩⟩
  case timers => exact fun c hc => hs.timers c ((mem c).1 hc).1
  case busy =>
    intro c hc
    exact hs.busy c (hc.imp_right fun h1 => by cases h1)

/-- The handle is finished: it has left the queue, and its callback was called. -/
def Called (s t : Loop) (p : ℕ) : Prop :=
  t.called = s.called ++ [p] ∧ p ∉ t.handleQueue ∧ (t.handles p).flags.closing = true ∧ (t.handles p).flags.closed = true

/-- The requests are as before, and at most the close callback of `p` was called. -/
structure Finishes (s t : Loop) (p : ℕ) : Prop where
  stats : t.stats = s.stats
  others : t.others = s.others
  activeReqs : t.activeReqs = s.activeReqs
  called : t.called = s.called ∨ Called s t p

theorem Inv.finishRest {p : ℕ} {q : Option ℕ} (hs : Inv none s) (hpc : s.pc = .destroy p q) :
    ∃ t, finishRest s p q = some t ∧ Inv none t ∧ Finishes s t p ∧ t.processed = s.processed := by
  have a := agree_flag s p quiet_unref
  have hi := (a.inv hs).leave (p := p) (q := q) hpc
  obtain ⟨k1, k2, k3, k4⟩ := hs.cur p (by rw [hpc]; rfl)
  have hnot : p ∉ (s.flag p handleUnref).handleQueue.filter (· ≠ p) := by simp [mem_filter]
  have hclosing : ((s.flag p handleUnref).handles p).flags.closing = true := ((a.core p).closing).trans k2
  have hclosed : ((s.flag p handleUnref).handles p).flags.closed = true := ((a.core p).closed).trans k3
  have hcb : ((s.flag p handleUnref).handles p).closeCb = (s.handles p).closeCb := (a.core p).closeCb
  unfold Closing.finishRest
  dsimp only
  rw [hcb]
  cases hc : (s.handles p).closeCb with
  | null => exact ⟨_, rfl, hi, ⟨rfl, rfl, rfl, .inl rfl⟩, rfl⟩
  | user =>
    refine ⟨_, rfl, ?_, ⟨rfl, rfl, rfl, .inr ⟨rfl, hnot, hclosing, hclosed⟩⟩, rfl⟩
    refine { hi with called := ?_, gone := ?_, busy := ?_ }
    · refine List.Nodup.append hs.called (nodup_singleton p) ?_
      exact disjoint_singleton.2 fun hm => (hs.gone p hm).2.1 k1
    · refine forall_mem_append.2 ⟨hi.gone, forall_mem_singleton.2 ⟨hs.used p k1, hnot, hclosed⟩⟩
    · exact fun c hc => hi.busy c (hc.imp_right fun h1 => by cases h1)
  | timerClose =>
    have hm : s.Member p := hs.timers p k1 k2 hc
    obtain ⟨t, ht, hinv, hcalls⟩ := hi.timerCloseCb (c := p) hnot hclosing ((a.member p).2 hm)
    exact ⟨t, ht, hinv, ⟨hcalls.stats, hcalls.others, hcalls.activeReqs, .inl hcalls.called⟩, hcalls.processed⟩

section Pop
variable {p : ℕ}

/-- The pass takes `p` off the list it detached. -/
def Loop.popped (s : Loop) (p : ℕ) (q : Option ℕ) : Loop :=
  { s with detached := s.detached.tail, processed := s.processed ++ [p], pc := .pass q }

theorem Inv.pop (hs : Inv none s) (hpc : s.pc = .pass (some p)) :
    Inv (some p) (s.popped p (s.handles p).nextClosing) ∧ p ∉ s.closing ∧ p ∉ s.detached.tail ∧ s.IsPending p ∧
      (s.handles p).ctxs = [] := by
  have hd := hs.detached
  rw [hpc] at hd
  obtain ⟨l, hl⟩ : ∃ l, s.detached = p :: l := by
    cases hdet : s.detached with
    | nil =>
      rw [hdet] at hd
      cases hd
    | cons a l =>
      rw [hdet] at hd
      cases hd.1
      exact ⟨l, rfl⟩
  rw [hl] at hd
  have htail : s.detached.tail = l := by rw [hl]; rfl
  have hnd := hs.nodup
  rw [hl] at hnd
  have hp : p ∉ s.closing ∧ p ∉ l := by
    have h1 := (nodup_middle.1 hnd)
    have h2 := (nodup_cons.1 h1).1
    exact ⟨fun hm => h2 (mem_append_left _ hm), fun hm => h2 (mem_append_right _ hm)⟩
  have hlist := hs.listed p (.inr (by rw [hl]; exact mem_cons_self))
  have hsub : ∀ y ∈ l, y ∈ s.detached := fun y hy => by
    rw [hl]
    exact mem_cons_of_mem _ hy
  refine ⟨?_, hp.1, by rw [htail]; exact hp.2, hlist.1, hlist.2⟩
  have hcur : s.pc.cur = none := by rw [hpc]; rfl
  refine { hs with
    detached := ?_, nodup := ?_, split := ?_, listed := ?_, pending := ?_, finished := ?_, cur := ?_, busy := ?_ }
  · simp only [Loop.popped, htail]
    exact hd.2
  · simp only [Loop.popped, htail]
    exact (nodup_cons.1 (nodup_middle.1 hnd)).2
  · simp only [Loop.popped, htail]
    rw [← hs.split, hl, append_assoc, singleton_append]
  · simp only [Loop.popped, htail]
    exact fun y hy => hs.listed y (hy.imp_right (hsub y))
  · simp only [Loop.popped, htail]
    intro y hy hne
    rcases hs.pending y hy nofun with h1 | h1 | h1
    · exact .inl h1
    · rw [hl] at h1
      exact .inr (.inl ((mem_cons.1 h1).resolve_left fun e => hne (congrArg some e.symm)))
    · exact .inr (.inr h1)
  · intro y h1 h2
    have := hs.finished y h1 h2
    rw [hcur] at this
    cases this
  · exact fun y h1 => by cases h1
  · exact fun c hc => hs.busy c (hc.imp_right fun h1 => by cases h1)

/-- `p` is flagged as closed. -/
def Loop.flagged (s : Loop) (p : ℕ) (q : Option ℕ) : Loop :=
  { s.put p { s.handles p with flags := { (s.handles p).flags with closed := true } } with pc := .destroy p q }

theorem Inv.flag {q : Option ℕ} (hs : Inv (some p) s) (hpc : s.pc = .pass q) (hp : s.IsPending p) (h1 : p ∉ s.closing)
    (h2 : p ∉ s.detached) (hc : (s.handles p).ctxs = []) : Inv none (s.flagged p q) := by
  generalize hr : ({ s.handles p with flags := { (s.handles p).flags with closed := true } } : Handle) = r
  have hf : s.flagged p q = { s.put p r with pc := .destroy p q } := by rw [← hr]; rfl
  rw [hf]
  have hself : (s.put p r).handles p = r := put_self ..
  have hother : ∀ y, y ≠ p → (s.put p r).handles y = s.handles y := fun y e => put_other s r e
  have hfields : ∀ y, ((s.put p r).handles y).nextClosing = (s.handles y).nextClosing ∧
      ((s.put p r).handles y).flags.closing = (s.handles y).flags.closing ∧ ((s.put p r).handles y).ctxs = (s.handles y).ctxs ∧
      ((s.put p r).handles y).kind = (s.handles y).kind ∧ ((s.put p r).handles y).parent = (s.handles y).parent ∧
      ((s.put p r).handles y).closeCb = (s.handles y).closeCb := fun y => by
    by_cases e : y = p
    · rw [e, hself, ← hr]
      exact ⟨rfl, rfl, rfl, rfl, rfl, rfl⟩
    · rw [hother y e]
      exact ⟨rfl, rfl, rfl, rfl, rfl, rfl⟩
  have hcur : s.pc.cur = none := by rw [hpc]; rfl
  have hmember : ∀ c, s.Member c → (s.put p r).Member c := fun c hm => by
    unfold Loop.Member at hm ⊢
    rwa [(hfields c).2.2.2.2.1, (hfields _).2.2.1]
  constructor
  case closing => exact hs.closing.congr fun y _ => (hfields y).1
  case detached =>
    have := hs.detached
    rw [hpc] at this
    exact this.congr fun y _ => (hfields y).1
  case nodup => exact hs.nodup
  case split => exact hs.split
  case snapshot => exact hs.snapshot
  case listed =>
    intro y hy
    have e : y ≠ p := fun e => by
      rw [e] at hy
      exact hy.elim h1 h2
    simp only [Loop.IsPending, hother y e]
    exact hs.listed y hy
  case pending =>
    intro y ⟨k1, k2, k3⟩ _
    by_cases e : y = p
    · rw [e] at k3
      rw [hself, ← hr] at k3
      cases k3
    · rw [hother y e] at k2 k3 ⊢
      exact hs.pending y ⟨k1, k2, k3⟩ fun he => e (some.inj he).symm
  case finished =>
    intro y k1 k2
    by_cases e : y = p
    · rw [e]
      rfl
    · rw [hother y e] at k2
      have := hs.finished y k1 k2
      rw [hcur] at this
      cases this
  case cur =>
    intro y hy
    cases hy
    rw [hself, ← hr]
    exact ⟨hp.1, hp.2.1, rfl, hc⟩
  case called => exact hs.called
  case gone =>
    intro y hy
    obtain ⟨k1, k2, k3⟩ := hs.gone y hy
    rw [hother y fun e => k2 (e ▸ hp.1)]
    exact ⟨k1, k2, k3⟩
  case used => exact hs.used
  case ctxs =>
    intro y hy
    rw [(hfields y).2.2.1] at hy
    rw [hother y fun e => hy (e ▸ hc)]
    exact hs.ctxs y hy
  case members =>
    intro y c hcm
    rw [(hfields y).2.2.1] at hcm
    obtain ⟨k1, k2, k3⟩ := hs.members y c hcm
    refine ⟨k1, (hfields c).2.2.2.1.trans k2, fun h4 => ?_⟩
    by_cases e : c = p
    · rw [e]
      exact hp.1
    · rw [hother c e] at h4
      exact k3 h4
  case timers =>
    intro c k1 k2 k3
    exact hmember c (hs.timers c k1 ((hfields c).2.1.symm.trans k2) ((hfields c).2.2.2.2.2.symm.trans k3))
  case busy =>
    intro c hb
    obtain ⟨k1, k2⟩ := hs.busy c (hb.imp_right fun h1 => by cases h1)
    exact ⟨k1, k2.imp (fun h3 => (hfields c).2.1.trans h3) (hmember c)⟩

/-- `p` is flagged as closed and the flag taken back. -/
def Loop.unflagged (s : Loop) (p : ℕ) : Loop :=
  (s.put p { s.handles p with flags := { (s.handles p).flags with closed := true } }).put p
    { s.handles p with flags := { (s.handles p).flags with closed := false } }

theorem Inv.round (hs : Inv none s) (hpc : s.pc = .pass (some p)) :
    ∃ t, runClosingHandles s (some p) = some t ∧ Inv none t ∧ Finishes s t p ∧ t.processed = s.processed ++ [p] := by
  obtain ⟨hpop, h1, h2, hp, hc⟩ := hs.pop hpc
  have hfl := hpop.flag rfl hp h1 h2 hc
  have hcond : ((s.handles p).flags.closing && !(s.handles p).flags.closed) = true := by simp [hp.2.1, hp.2.2]
  have hrest : ∃ t, Closing.finishRest ((s.popped p (s.handles p).nextClosing).flagged p (s.handles p).nextClosing) p
      (s.handles p).nextClosing = some t ∧ Inv none t ∧ Finishes s t p ∧ t.processed = s.processed ++ [p] := by
    obtain ⟨t, ht, hinv, hf, hprocessed⟩ := hfl.finishRest rfl
    exact ⟨t, ht, hinv, ⟨hf.stats, hf.others, hf.activeReqs, hf.called⟩, hprocessed⟩
  have hdestroy : ∃ t, some ((s.popped p (s.handles p).nextClosing).flagged p (s.handles p).nextClosing) = some t ∧
      Inv none t ∧ Finishes s t p ∧ t.processed = s.processed ++ [p] := ⟨_, rfl, hfl, ⟨rfl, rfl, rfl, .inl rfl⟩, rfl⟩
  -- a signal handle goes back into the queue: the flag is taken back
  have hback : ∃ t, makeClosePending ((s.popped p (s.handles p).nextClosing).unflagged p) p = some t ∧ Inv none t ∧
      Finishes s t p ∧ t.processed = s.processed ++ [p] := by
    have a : Agree (s.popped p (s.handles p).nextClosing) ((s.popped p (s.handles p).nextClosing).unflagged p) := by
      refine ⟨fun y => ?_, rfl, rfl, rfl, rfl, rfl, rfl, rfl, rfl, rfl, rfl, fun _ => id⟩
      by_cases e : y = p
      · rw [e, Loop.unflagged, put_self]
        exact ⟨rfl, rfl, hp.2.2.symm, rfl, rfl, rfl, rfl⟩
      · rw [Loop.unflagged, put_other _ _ e, put_other _ _ e]
        exact SameCore.refl _
    obtain ⟨t, ht, hinv⟩ := (a.inv hpop).push ((a.isPending p).2 hp) (((a.core p).ctxs).trans hc) h1 h2
    have hst := still_pending ht
    exact ⟨t, ht, hinv, ⟨hst.stats, hst.others, hst.activeReqs, .inl hst.called⟩, hst.processed⟩
  unfold runClosingHandles finishClose
  dsimp only
  rw [if_pos hcond]
  split
  case h_10 =>
    split
    · exact hback
    · exact hrest
  all_goals first | exact hrest | exact hdestroy

end Pop

theorem Inv.detached_nil (hs : Inv none s) (hpc : s.pc.rest = none) : s.detached = [] := by
  have hd := hs.detached
  rw [hpc] at hd
  cases hl : s.detached with
  | nil => rfl
  | cons a l =>
    rw [hl] at hd
    cases hd.1

theorem Inv.run (hs : Inv none s) (hpc : s.pc = .idle) : Inv none { s with
    pc := .pass s.closingHandles, closingHandles := none, closing := [], detached := s.closing
    snapshot := s.closing, processed := [] } := by
  have hcur : s.pc.cur = none := by rw [hpc]; rfl
  have hdet : s.detached = [] := hs.detached_nil (by rw [hpc]; rfl)
  have hnd : s.closing.Nodup := hs.nodup.sublist (sublist_append_left _ _)
  refine { hs with
    closing := rfl, detached := hs.closing, nodup := by simpa using hnd, split := rfl, snapshot := hnd
    listed := ?_, pending := ?_, finished := ?_, cur := ?_, busy := ?_ }
  · exact fun y hy => hs.listed y (.inl (hy.resolve_left not_mem_nil))
  · intro y hy _
    rcases hs.pending y hy nofun with h1 | h1 | h1
    · exact .inr (.inl h1)
    · rw [hdet] at h1
      cases h1
    · exact .inr (.inr h1)
  · intro y h1 h2
    have := hs.finished y h1 h2
    rw [hcur] at this
    cases this
  · intro y h1
    cases h1
  · exact fun c hc => hs.busy c (hc.imp_right fun h1 => by cases h1)

theorem Inv.returned (hs : Inv none s) (he : returned s = some t) : Inv none t := by
  unfold Closing.returned at he
  split at he
  · cases he
  · cases he
  · next c hpc =>
    refine hs.pollOut (by rw [hpc]; rfl) (by rw [hpc]; rfl) ?_ he
    exact (hs.busy c (.inr hpc)).2
  · next p q hpc =>
    obtain ⟨t', ht', hinv, -⟩ := hs.finishRest hpc
    cases ht'.symm.trans he
    exact hinv
  · next p q hpc =>
    cases he
    have a : Agree s { s with pc := .pass q } := by
      refine ⟨fun _ => SameCore.refl _, rfl, rfl, ?_, ?_, rfl, rfl, rfl, rfl, rfl, rfl, fun c hc => ?_⟩
      · rw [hpc]
        rfl
      · rw [hpc]
        rfl
      · exact hc.imp_right fun h1 => by cases h1
    exact a.inv hs

end Steps

variable {s t : Loop} {l : Label}

theorem step_some (h : step s l = some t) : s.Allowed l ∧ s.perform l = some t := by
  unfold step at h
  split at h
  · exact ⟨‹_›, h⟩
  · cases h

theorem inv_inductive : system.Inductive (Inv none) where
  init := by
    rintro s ⟨hc, hq, hch, -, -, hpc, hst, -, hu, hcl, hd, hsn, hp, hca⟩
    have hno : ∀ h, ¬ s.IsPending h := fun h hp => by
      have := hp.1
      rw [hq] at this
      cases this
    constructor
    case closing => rw [hch, hcl]; rfl
    case detached => rw [hpc, hd]; rfl
    case nodup => rw [hcl, hd]; exact nodup_nil
    case split => rw [hp, hd, hsn]; rfl
    case snapshot => rw [hsn]; exact nodup_nil
    case listed => intro h hm; simp [hcl, hd] at hm
    case pending => exact fun h hp => absurd hp (hno h)
    case finished => intro h hm; simp [hq] at hm
    case cur => intro h hm; rw [hpc] at hm; cases hm
    case called => rw [hca]; exact nodup_nil
    case gone => intro h hm; simp [hca] at hm
    case used => intro h hm; simp [hq] at hm
    case ctxs => exact fun h hne => absurd (hc h) hne
    case members => intro h c hm; simp [hc h] at hm
    case timers => intro h hm; simp [hq] at hm
    case busy => intro c hm; simp [Loop.Busy, hst, hpc] at hm
  step := by
    intro s l t hs h
    obtain ⟨ha, h⟩ := step_some h
    cases l with
    | init y kind =>
      cases h
      exact hs.init ha.2 rfl
    | start y =>
      cases h
      exact (agree_flag s y quiet_start).inv hs
    | stop y =>
      cases h
      exact (agree_flag s y quiet_stop).inv hs
    | ref y =>
      cases h
      exact (agree_flag s y quiet_ref).inv hs
    | unref y =>
      cases h
      exact (agree_flag s y quiet_unref).inv hs
    | close y cb =>
      refine hs.close ha.1 ?_ h
      split <;> nofun
    | fsPollStart y c ok =>
      cases h
      exact hs.fsPollStart ha.1.1 ha.2.1 ha.2.2.1 ha.2.2.2
    | fsPollStop y => exact hs.fsPollStop h
    | signal y | dispatch y =>
      cases h
      refine (agree_put (h := y) ?_).inv hs
      exact ⟨rfl, rfl, rfl, rfl, rfl, rfl, rfl⟩
    | pollCb c calls => exact hs.pollCb ha.1 ha.2 h
    | timerCb c => exact hs.timerCb ha.2.1 h
    | register =>
      cases h
      exact (agree_reqs s _ _ _).inv hs
    | unregister =>
      obtain ⟨u, hu, rfl⟩ := map_eq_some_iff.1 h
      unfold reqUnregister at hu
      split at hu
      · cases hu
      · cases hu
        exact (agree_reqs s _ _ _).inv hs
    | pending l =>
      cases h
      exact (agree_reqs s _ _ _).inv hs
    | run =>
      cases h
      exact hs.run ha
    | next =>
      simp only [Loop.perform] at h
      split at h
      · next p hpc =>
        cases p with
        | none =>
          cases h
          exact (agree_idle (by rw [hpc]; rfl) (by rw [hpc]; rfl)).inv hs
        | some p =>
          obtain ⟨t', ht', hinv, -⟩ := hs.round hpc
          cases ht'.symm.trans h
          exact hinv
      · cases h
    | ret => exact hs.returned h

/-! ## The requests and the callbacks -/

/-- `active_reqs` counts the requests, as an `unsigned int`. -/
def Loop.Counted (s : Loop) : Prop := s.activeReqs = (s.others + s.stats.length) % uintMax

/-- The part of the pass a close callback is called from: the head of the loop, or the end
of the callbacks of the requests of the handle. -/
def Finishing (s : Loop) (l : Label) (p : ℕ) : Prop :=
  l = .next ∧ s.pc = .pass (some p) ∨ l = .ret ∧ ∃ q, s.pc = .destroy p q

/-- What a step does to the requests and to the calls of close callbacks. -/
structure Effect (s : Loop) (l : Label) (t : Loop) : Prop where
  counted : s.Counted → t.Counted
  called : t.called = s.called ∨ ∃ p, Finishing s l p ∧ Called s t p

theorem Calls.counted (h : Calls s t) (hc : s.Counted) : t.Counted := by
  unfold Loop.Counted at hc ⊢
  rw [h.activeReqs, h.others, h.stats, hc]

theorem Calls.effect (h : Calls s t) : Effect s l t := ⟨h.counted, .inl h.called⟩

theorem Finishes.effect {p : ℕ} (h : Finishes s t p) (hpc : Finishing s l p) : Effect s l t := by
  refine ⟨fun hc => ?_, h.called.imp_right fun hp => ⟨p, hpc, hp⟩⟩
  unfold Loop.Counted at hc ⊢
  rw [h.activeReqs, h.others, h.stats, hc]

theorem counted_register (hc : s.Counted) : (s.activeReqs + 1) % uintMax = (s.others + s.stats.length + 1) % uintMax := by
  rw [hc, Nat.mod_add_mod]

theorem reqUnregister_same (ht : reqUnregister s = some t) :
    t.stats = s.stats ∧ t.others = s.others ∧ t.called = s.called := by
  unfold reqUnregister at ht
  split at ht
  · cases ht
  · cases ht
    exact ⟨rfl, rfl, rfl⟩

theorem counted_unregister (hc : s.Counted) (ht : reqUnregister s = some t) {n : ℕ}
    (hn : s.others + s.stats.length = n + 1) : t.activeReqs = n % uintMax := by
  unfold reqUnregister at ht
  split at ht
  · cases ht
  · cases ht
    rw [hc, hn, Nat.mod_add_mod]
    have : n + 1 + (uintMax - 1) = n + uintMax := by unfold uintMax; omega
    rw [this, Nat.add_mod_right]

theorem step_effect (hs : Inv none s) (h : step s l = some t) : Effect s l t := by
  obtain ⟨ha, h⟩ := step_some h
  cases l with
  | init | start | stop | ref | unref | signal | dispatch | pending =>
    cases h
    exact Calls.effect ⟨rfl, rfl, rfl, rfl, rfl⟩
  | run =>
    cases h
    exact ⟨id, .inl rfl⟩
  | close => exact (still_close h).toCalls.effect
  | fsPollStop => exact (still_fsPollStop h).toCalls.effect
  | fsPollStart y c ok =>
    cases h
    unfold fsPollStart
    split
    · exact (Calls.refl s).effect
    · split
      · exact ⟨fun hc => (counted_register hc).trans (by rfl), .inl rfl⟩
      · exact Calls.effect ⟨rfl, rfl, rfl, rfl, rfl⟩
  | pollCb c calls =>
    obtain ⟨u, hu, h⟩ := bind_eq_some_iff.1 h
    have hlen : s.others + s.stats.length = s.others + (s.stats.erase c).length + 1 := by
      have := length_erase_of_mem ha.2
      have := length_pos_of_mem ha.2
      omega
    have hcalls : Calls { u with stats := u.stats.erase c } t := by
      dsimp only at h
      split at h
      · cases h
        exact ⟨rfl, rfl, rfl, rfl, rfl⟩
      · exact calls_pollOut h
    have hsame := reqUnregister_same hu
    refine ⟨fun hc => hcalls.counted ?_, .inl (hcalls.called.trans hsame.2.2)⟩
    rw [hsame.1, hsame.2.1]
    exact counted_unregister hc hu hlen
  | timerCb c =>
    simp only [Loop.perform, timerCb] at h
    split at h
    · cases h
      exact ⟨fun hc => (counted_register hc).trans (by rfl), .inl rfl⟩
    · cases h
  | register =>
    cases h
    refine ⟨fun hc => (counted_register hc).trans ?_, .inl rfl⟩
    dsimp only [reqRegister]
    rw [Nat.add_right_comm]
  | unregister =>
    obtain ⟨u, hu, rfl⟩ := map_eq_some_iff.1 h
    have hsame := reqUnregister_same hu
    refine ⟨fun hc => ?_, .inl hsame.2.2⟩
    unfold Loop.Counted
    dsimp only
    rw [hsame.1]
    have hpos : 0 < s.others := ha
    exact counted_unregister hc hu (by omega)
  | next =>
    simp only [Loop.perform] at h
    split at h
    · next p hpc =>
      cases p with
      | none =>
        cases h
        exact Calls.effect ⟨rfl, rfl, rfl, rfl, rfl⟩
      | some p =>
        obtain ⟨t', ht', -, hf, -⟩ := hs.round hpc
        cases ht'.symm.trans h
        exact hf.effect (.inl ⟨rfl, hpc⟩)
    · cases h
  | ret =>
    simp only [Loop.perform, returned] at h
    split at h
    · cases h
    · cases h
    · exact (calls_pollOut h).effect
    · next p q hpc =>
      obtain ⟨t', ht', -, hf, -⟩ := hs.finishRest hpc
      cases ht'.symm.trans h
      exact hf.effect (.inr ⟨rfl, q, hpc⟩)
    · cases h
      exact Calls.effect ⟨rfl, rfl, rfl, rfl, rfl⟩

theorem counted_inductive : system.Inductive fun s => Inv none s ∧ s.Counted :=
  inv_inductive.with_
    (fun s hs => by
      obtain ⟨-, -, -, -, har, -, hst, ho, -⟩ := hs
      rw [Loop.Counted, har, hst, ho]
      rfl)
    fun _ _ _ hs hc h => (step_effect hs h).counted hc

theorem Inv.alive (hs : Inv none s) (hc : s.Counted) (hpc : s.pc.rest = none) {h : ℕ} (hp : s.IsPending h)
    (hfs : (s.handles h).kind = .fsPoll → h ∈ s.closing ∨ ∃ c ∈ (s.handles h).ctxs,
      c ∈ s.closing ∨ (c ∈ s.stats ∧ s.others + s.stats.length < uintMax)) : loopAlive s := by
  have hlist : ∀ c ∈ s.closing, loopAlive s := fun c hm => by
    refine .inr (.inr (.inr fun e => ?_))
    have hch := hs.closing
    rw [e] at hch
    cases hl : s.closing with
    | nil =>
      rw [hl] at hm
      cases hm
    | cons a l =>
      rw [hl] at hch
      cases hch.1
  have hreqs : ∀ c ∈ s.stats, s.others + s.stats.length < uintMax → loopAlive s := fun c hm hlt => by
    have hpos := length_pos_of_mem hm
    refine .inr (.inl ?_)
    rw [hc, Nat.mod_eq_of_lt hlt]
    omega
  by_cases hk : (s.handles h).kind = .fsPoll
  · rcases hfs hk with hm | ⟨c, -, hm | ⟨hm, hlt⟩⟩
    · exact hlist h hm
    · exact hlist c hm
    · exact hreqs c hm hlt
  · rcases hs.pending h hp nofun with hm | hm | hm
    · exact hlist h hm
    · rw [hs.detached_nil hpc] at hm
      cases hm
    · exact absurd hm.1 hk

/-- **The close protocol.** In every run the user's close callback of a handle is called at
most once, by the pass over the closing handles only (at the head of its loop, or behind the
request callbacks of the handle it finishes), with the handle flagged closed and out of the
handle queue. A pass begins with the handles that are closing and takes them one after the
other, each once; when it is over it has taken all of them; it never stops on an assertion.
What is closed meanwhile is on the list of the next pass. A handle that is closing is on one of
the two lists, or is an fs_poll handle with contexts. Outside the pass the loop is alive while a
handle is closing; an fs_poll handle counts while it or one of its timers is on the list, or
one of its stat requests is in flight and `active_reqs` has not wrapped. -/
theorem close_protocol {s : Loop} (h : system.Reachable s) :
    s.called.Nodup ∧ (∀ l t, step s l = some t → t.called = s.called ∨
      ∃ p, Finishing s l p ∧ t.called = s.called ++ [p] ∧ p ∉ t.handleQueue ∧ (t.handles p).flags.closing = true ∧
        (t.handles p).flags.closed = true) ∧
    s.processed ++ s.detached = s.snapshot ∧ s.snapshot.Nodup ∧ (s.pc.rest = none → s.processed = s.snapshot) ∧
    (s.closing ++ s.detached).Nodup ∧
    (s.pc = .idle → ∃ t, step s .run = some t ∧ t.snapshot = s.closing ∧ t.pc = .pass s.closingHandles) ∧
    (∀ p, s.pc = .pass (some p) → ∃ t, step s .next = some t ∧ t.processed = s.processed ++ [p]) ∧
    (∀ h, s.IsPending h → h ∈ s.closing ∨ h ∈ s.detached ∨ ((s.handles h).kind = .fsPoll ∧ (s.handles h).ctxs ≠ [])) ∧
    (s.pc.rest = none → ∀ h, s.IsPending h → ((s.handles h).kind = .fsPoll → h ∈ s.closing ∨ ∃ c ∈ (s.handles h).ctxs,
        c ∈ s.closing ∨ (c ∈ s.stats ∧ s.others + s.stats.length < uintMax)) → loopAlive s) := by
  obtain ⟨hs, hc⟩ := counted_inductive.reachable h
  refine ⟨hs.called, fun l t hl => (step_effect hs hl).called, hs.split, hs.snapshot, fun hpc => ?_, hs.nodup,
    fun hpc => ⟨_, if_pos hpc, rfl, rfl⟩, fun p hpc => ?_, fun y hy => hs.pending y hy nofun, fun hpc y => hs.alive hc hpc⟩
  · rw [← hs.split, hs.detached_nil hpc, append_nil]
  · obtain ⟨t, ht, -, -, hprocessed⟩ := hs.round hpc
    refine ⟨t, ?_, hprocessed⟩
    have ha : s.Allowed .next := by
      show s.pc.user = false
      rw [hpc]
      rfl
    simp [step, if_pos ha, Loop.perform, hpc, ht]

def Loop.fresh : Loop where
  handles _ := ⟨.idle, false, handleInit, none, .null, 0, 0, [], 0⟩
  handleQueue := []
  closingHandles := none
  activeHandles := 0
  activeReqs := 0
  pendingQueue := []
  pc := .idle
  stats := []
  others := 0
  used := []
  closing := []
  detached := []
  snapshot := []
  processed := []
  called := []

theorem reachable_fresh : system.Reachable Loop.fresh :=
  .init ⟨fun _ => rfl, rfl, rfl, rfl, rfl, rfl, rfl, rfl, rfl, rfl, rfl, rfl, rfl, rfl⟩

/-- A run that closes an fs_poll handle with its first stat request in flight. -/
def fsPollClosing : List Label := [.init 0 .fsPoll, .fsPollStart 0 1 true, .close 0 true]

/-- The close callback of handle 0 closes handle 1, which keeps the loop alive, and the next pass takes it. -/
theorem close_protocol_later : ∃ s t u : Loop, s.called = [0] ∧ s.processed = [0] ∧ s.IsPending 1 ∧ loopAlive s ∧
    step s .run = some t ∧ t.snapshot = [1] ∧ step t .next = some u ∧ u.processed = [1] ∧ u.called = [0, 1] := by
  have h1 := reachable_fresh.next (.init 0 .idle) rfl
  have h2 := h1.next (.init 1 .idle) rfl
  have h3 := h2.next (.close 0 true) rfl
  have h4 := h3.next .run rfl
  have h5 := h4.next .next rfl
  have h6 := h5.next (.close 1 true) rfl
  have h7 := h6.next .ret rfl
  have h8 := h7.next .next rfl
  obtain ⟨-, -, -, -, -, -, hrun, -, -, halive⟩ := close_protocol h8
  obtain ⟨t, ht, hsnapshot, hpc⟩ := hrun rfl
  obtain ⟨-, -, -, -, -, -, -, hnext, -⟩ := close_protocol (h8.next .run ht)
  obtain ⟨u, hu, hprocessed⟩ := hnext 1 hpc
  cases ht
  refine ⟨_, _, u, rfl, rfl, ⟨mem_cons_self, rfl, rfl⟩, halive rfl 1 ⟨mem_cons_self, rfl, rfl⟩ nofun, rfl, hsnapshot, hu,
    hprocessed, ?_⟩
  cases hu
  rfl

theorem reachable_register (h : system.Reachable s) (hpc : s.pc = .idle) (hs : s.activeReqs < uintMax) (n : ℕ) :
    system.Reachable { s with activeReqs := (s.activeReqs + n) % uintMax, others := s.others + n } := by
  induction n with
  | zero =>
    rw [Nat.add_zero, Nat.mod_eq_of_lt hs]
    exact h
  | succ n ih =>
    refine ih.step (l := .register) ?_
    have ha : s.pc.user = true := by rw [hpc]; rfl
    have he : (s.activeReqs + (n + 1)) % uintMax = ((s.activeReqs + n) % uintMax + 1) % uintMax := by
      rw [Nat.mod_add_mod, Nat.add_assoc]
    rw [he]
    exact if_pos ha

/-- **A closing handle may leave the loop dead.** Of two handles that are closed the first
is finished: in its close callback the loop is not alive, and the second handle is still
closing. And with 2^32 requests `active_reqs` is 0: an fs_poll handle is closing, its stat
request is in flight, and the loop is not alive. -/
theorem not_alive :
    (∃ s : Loop, system.Reachable s ∧ s.pc = .closeCb 1 (some 0) ∧ s.IsPending 0 ∧ (s.handles 0).kind = .idle ∧ ¬ loopAlive s) ∧
    ∃ s : Loop, system.Reachable s ∧ s.pc = .idle ∧ s.IsPending 0 ∧ (s.handles 0).kind = .fsPoll ∧
      (∃ c ∈ (s.handles 0).ctxs, c ∈ s.stats) ∧ ¬ loopAlive s := by
  constructor
  · obtain ⟨s, hs, hpc, hp, hk, h1⟩ : ∃ s : Loop,
        [Label.init 0 .idle, .init 1 .idle, .close 0 true, .close 1 true, .run, .next].foldlM step Loop.fresh = some s ∧
        s.pc = .closeCb 1 (some 0) ∧ s.IsPending 0 ∧ (s.handles 0).kind = .idle ∧ ¬ loopAlive s := by
      refine ⟨_, rfl, rfl, ?_, rfl, ?_⟩
      · exact ⟨mem_cons_self, rfl, rfl⟩
      · decide
    exact ⟨s, reachable_fresh.foldlM (fun _ _ _ h => h) hs, hpc, hp, hk, h1⟩
  · obtain ⟨s, hs, hpc, hp, hk, hc, hst, hl, ha, hr, hq⟩ : ∃ s : Loop, fsPollClosing.foldlM step Loop.fresh = some s ∧
        s.pc = .idle ∧ s.IsPending 0 ∧ (s.handles 0).kind = .fsPoll ∧ (s.handles 0).ctxs = [1] ∧ s.stats = [1] ∧
        s.closingHandles = none ∧ s.activeHandles = 0 ∧ s.activeReqs = 1 ∧ s.pendingQueue = [] := by
      refine ⟨_, rfl, rfl, ?_, rfl, rfl, rfl, rfl, rfl, rfl, rfl⟩
      exact ⟨mem_cons_self, rfl, rfl⟩
    obtain ⟨n, hn⟩ : ∃ n, (1 + n) % uintMax = 0 := ⟨uintMax - 1, by decide⟩
    have h := reachable_register (reachable_fresh.foldlM (fun _ _ _ h => h) hs) hpc (by rw [hr]; decide) n
    refine ⟨_, h, hpc, hp, hk, ⟨1, ?_, ?_⟩, ?_⟩
    · show 1 ∈ (s.handles 0).ctxs
      rw [hc]
      exact mem_singleton_self 1
    · show 1 ∈ s.stats
      rw [hst]
      exact mem_singleton_self 1
    · unfold loopAlive
      dsimp only
      rw [hl, ha, hr, hq, hn]
      decide

end Libuv.L2.Closing
