import Libuv.Core.Chain
import Libuv.L2Loop.Handle

/-!
# Liveness and closing (`win/handle-inl.h`)

On Windows a handle is active while `activecnt` counts something, and a handle that is closing
stays in `active_handles` until its close callback (`libuv/src/win/handle-inl.h`,
`libuv/src/win/req-inl.h`). Handles whose last request has come back are put on the stack
`loop->endgame_handles`, which is linked through the handles; `uv__process_endgames` takes
them off one by one.

A step of `system` is one macro or function on one handle, at any time, so that what an endgame handler or a
close callback does is the steps that follow. A handler that finds its handle closing with no
request pending closes it; otherwise it is those steps. Increments leave room in their counter, `int` or
`unsigned int`, decrements undo one of them, and only decrements come after `uv_close`. A handle that was
closed is not put on the stack again, which the endgame handlers assert.

* `liveness`: what they say of every handle, in every run.
* `active_handles_wrap`: 2^32 active handles count as none.
-/
namespace Libuv.L5.Endgame

open List Option
open Libuv.L2.Handle (Flags uintMax activeHandleAdd activeHandleRm handleInit handleStart handleStop handleRef handleUnref
  Balanced)

/-! ## State -/

structure Handle where
  flags : Flags
  endgameQueued : Bool
  activecnt : ℕ
  reqsPending : ℕ
  endgameNext : Option ℕ
deriving DecidableEq

/-- A handle is known by its place in the list of all that were ever initialised. -/
structure Loop where
  handles : List Handle
  activeHandles : ℕ
  /-- `active_reqs.count` -/
  activeReqs : ℕ
  endgameHandles : Option ℕ
  /-- the handles whose `close_cb` was called -/
  closeCbs : List ℕ
deriving DecidableEq

/-- `int` -/
def intMax : ℕ := 2 ^ 31 - 1

/-- What `uv__handle_init` leaves in a handle.
mirrors uv-common.h:314-322 -/
def handleInitial : Handle := ⟨handleInit, false, 0, 0, none⟩

/-! ## Operations -/

namespace Handle
variable (h : Handle) (n : ℕ)

/-- The flags and the loop's counter as a macro of `uv-common.h` leaves them. -/
def withFlags (r : Flags × ℕ) : Handle × ℕ := ({ h with flags := r.1 }, r.2)

/-- `INCREASE_ACTIVE_COUNT`
mirrors win/handle-inl.h:42-48 -/
def increaseActiveCount : Handle × ℕ :=
  let h' := { h with activecnt := h.activecnt + 1 }
  if h.activecnt = 0 then h'.withFlags (handleStart h.flags n) else (h', n)

/-- `DECREASE_ACTIVE_COUNT`
mirrors win/handle-inl.h:32-39 -/
def decreaseActiveCount : Handle × ℕ :=
  let h' := { h with activecnt := h.activecnt - 1 }
  if h'.activecnt = 0 ∧ h.flags.closing = false then h'.withFlags (handleStop h.flags n) else (h', n)

/-- `uv__handle_closing`
mirrors win/handle-inl.h:63-73 -/
def closing : Handle × ℕ :=
  ({ h with flags := { h.flags with closing := true, active := false } },
    if h.flags.active && h.flags.ref then n else activeHandleAdd n)

def ref : Handle × ℕ := h.withFlags (handleRef h.flags n)

def unref : Handle × ℕ := h.withFlags (handleUnref h.flags n)

/-- `uv__handle_close`, up to the callback.
mirrors win/handle-inl.h:76-85 -/
def close : Handle × ℕ := ({ h with flags := { h.flags with closed := true } }, activeHandleRm n)

end Handle

namespace Loop
variable (s : Loop)

/-- A macro on the handle `i`. -/
def on (i : ℕ) (macro' : Handle → ℕ → Handle × ℕ) : Option Loop :=
  s.handles[i]?.map fun h =>
    { s with handles := s.handles.set i (macro' h s.activeHandles).1, activeHandles := (macro' h s.activeHandles).2 }

/-- mirrors win/handle-inl.h:88-95 -/
def wantEndgame (i : ℕ) : Option Loop :=
  s.handles[i]?.map fun h =>
    if h.endgameQueued then s
    else
      { s with
        handles := s.handles.set i { h with endgameQueued := true, endgameNext := s.endgameHandles }
        endgameHandles := some i }

/-- `uv__want_endgame` if the handle is closing and has no request pending. -/
def wantEndgameIf (i : ℕ) : Option Loop :=
  s.handles[i]?.bind fun h => if h.flags.closing && h.reqsPending == 0 then s.wantEndgame i else some s

/-- `uv__handle_closing`, and the endgame of a handle that has no request pending. -/
def closeHandle (i : ℕ) : Option Loop := (s.on i Handle.closing).bind fun s => s.wantEndgameIf i

/-- `DECREASE_PENDING_REQ_COUNT`
mirrors win/handle-inl.h:51-60 -/
def decreasePendingReqCount (i : ℕ) : Option Loop :=
  (s.on i fun h n => ({ h with reqsPending := h.reqsPending - 1 }, n)).bind fun s => s.wantEndgameIf i

/-- `uv__process_endgames` takes one handle off and its handler looks at it; closing a handle that
is closed fails an assertion.
mirrors win/handle-inl.h:101-107 -/
def endgame : Option Loop :=
  s.endgameHandles.bind fun i => s.handles[i]?.bind fun h =>
    let s := { s with
      handles := s.handles.set i { h with endgameQueued := false }
      endgameHandles := h.endgameNext }
    if h.flags.closing && h.reqsPending == 0 then
      if h.flags.closed then none
      else (s.on i Handle.close).map fun s => { s with closeCbs := s.closeCbs ++ [i] }
    else some s

end Loop

/-! ## The system -/

inductive Label
  | init
  | increase (i : ℕ)
  | decrease (i : ℕ)
  | register (i : ℕ)
  | unregister (i : ℕ)
  | pend (i : ℕ)
  | unpend (i : ℕ)
  | ref (i : ℕ)
  | unref (i : ℕ)
  | close (i : ℕ)
  | wantEndgame (i : ℕ)
  | endgame
deriving DecidableEq

def Handle.allows (h : Handle) : Label → Bool
  | .increase _ | .register _ => !h.flags.closing && h.activecnt < intMax
  | .decrease _ | .unregister _ => 0 < h.activecnt
  | .pend _ => !h.flags.closing && h.reqsPending + 1 < uintMax
  | .unpend _ => 0 < h.reqsPending
  | .close _ => !h.flags.closing
  | .wantEndgame _ => !h.flags.closed
  | _ => true

def enabled (s : Loop) : Label → Bool
  | .init => true
  | .endgame => s.endgameHandles.isSome
  | l@(.increase i) | l@(.decrease i) | l@(.register i) | l@(.pend i) | l@(.unpend i) | l@(.ref i) | l@(.unref i)
  | l@(.close i) | l@(.wantEndgame i) => s.handles[i]?.any (·.allows l)
  | l@(.unregister i) => 0 < s.activeReqs && s.handles[i]?.any (·.allows l)

def step (s : Loop) : Label → Option Loop
  | .init => some { s with handles := s.handles ++ [handleInitial] }
  | .increase i => s.on i Handle.increaseActiveCount
  | .decrease i => s.on i Handle.decreaseActiveCount
  | .register i => { s with activeReqs := (s.activeReqs + 1) % uintMax }.on i Handle.increaseActiveCount
  | .unregister i => { s with activeReqs := s.activeReqs - 1 }.on i Handle.decreaseActiveCount
  | .pend i => s.on i fun h n => ({ h with reqsPending := h.reqsPending + 1 }, n)
  | .unpend i => s.decreasePendingReqCount i
  | .ref i => s.on i Handle.ref
  | .unref i => s.on i Handle.unref
  | .close i => s.closeHandle i
  | .wantEndgame i => s.wantEndgame i
  | .endgame => s.endgame

def system : LTS Loop Label where
  init s := s = ⟨[], 0, 0, none, []⟩
  step s l t := enabled s l = true ∧ step s l = some t

/-! ## What a handle counts for -/

/-- The handle is in `active_handles`: active and referenced, or closing and not closed. -/
def Handle.keeps (h : Handle) : Bool := if h.flags.closing then !h.flags.closed else h.flags.active && h.flags.ref

def Handle.weight (h : Handle) : ℕ := if h.keeps then 1 else 0

structure Handle.Good (h : Handle) : Prop where
  active : h.flags.closing = false → (h.flags.active = true ↔ 0 < h.activecnt)
  stopped : h.flags.closing = true → h.flags.active = false
  opened : h.flags.closing = false → h.flags.closed = false
  closed : h.flags.closed = true → h.reqsPending = 0 ∧ h.endgameQueued = false

/-- A macro keeps the handle good and the counter in step with what the handle counts for. -/
structure Effect (h h' : Handle) (n n' : ℕ) : Prop where
  good : h'.Good
  count : (n' + h.weight) % uintMax = (n + h'.weight) % uintMax
  range : n < uintMax → n' < uintMax
  queued : h'.endgameQueued = h.endgameQueued
  next : h'.endgameNext = h.endgameNext
  closed : h'.flags.closed = h.flags.closed

section Macros
variable {h : Handle} {n : ℕ}

theorem handleStart_spec (f : Flags) (n : ℕ) : (handleStart f n).1 = { f with active := true } := by
  unfold handleStart
  split
  · next ha => rw [← ha]
  · rfl

theorem handleStop_spec (f : Flags) (n : ℕ) : (handleStop f n).1 = { f with active := false } := by
  unfold handleStop
  split
  · next ha => rw [← ha]
  · rfl

theorem handleRef_spec (f : Flags) (n : ℕ) : (handleRef f n).1 = { f with ref := true } := by
  unfold handleRef
  split
  · next hr => rw [← hr]
  · dsimp only
    split <;> rfl

theorem handleUnref_spec (f : Flags) (n : ℕ) : (handleUnref f n).1 = { f with ref := false } := by
  unfold handleUnref
  split
  · next hr => rw [← hr]
  · dsimp only
    split <;> rfl

theorem Effect.of_balanced {c : ℕ} {r : Flags × ℕ} (ho : h.flags.closing = false) (hf : r.1.closing = false)
    (hb : Balanced h.flags r.1 n r.2) (hg : (({ h with activecnt := c } : Handle).withFlags r).1.Good)
    (hc : r.1.closed = h.flags.closed) :
    Effect h (({ h with activecnt := c } : Handle).withFlags r).1 n (({ h with activecnt := c } : Handle).withFlags r).2 := by
  refine ⟨hg, ?_, hb.range, rfl, rfl, hc⟩
  have hw : h.weight = h.flags.weight := by simp [Handle.weight, Handle.keeps, ho, Flags.weight, Flags.counted]
  have hw' : (({ h with activecnt := c } : Handle).withFlags r).1.weight = r.1.weight := by
    simp [Handle.withFlags, Handle.weight, Handle.keeps, hf, Flags.weight, Flags.counted]
  rw [hw, hw']
  exact hb.count

theorem isClosing_eq_false (hg : h.Good) (ho : h.flags.closing = false) : h.flags.isClosing = false := by
  simp [Flags.isClosing, ho, hg.opened ho]

theorem increaseActiveCount_effect (hg : h.Good) (ho : h.flags.closing = false) :
    Effect h (h.increaseActiveCount n).1 n (h.increaseActiveCount n).2 := by
  unfold Handle.increaseActiveCount
  split
  · next h0 =>
    have hs := handleStart_spec h.flags n
    refine .of_balanced ho (by rw [hs]; exact ho) (Libuv.L2.Handle.handleStart_balanced (isClosing_eq_false hg ho)) ?_
      (by rw [hs])
    refine ⟨fun _ => ?_, fun hc => ?_, fun _ => ?_, fun hc => ?_⟩
    · simp [Handle.withFlags, hs]
    · simp [Handle.withFlags, hs, ho] at hc
    · simp [Handle.withFlags, hs, hg.opened ho]
    · simp [Handle.withFlags, hs, hg.opened ho] at hc
  · next h0 =>
    refine ⟨⟨fun hc => ?_, hg.stopped, hg.opened, hg.closed⟩, rfl, id, rfl, rfl, rfl⟩
    have := (hg.active hc).2 (Nat.pos_of_ne_zero h0)
    simp [this]

theorem decreaseActiveCount_effect (hg : h.Good) :
    Effect h (h.decreaseActiveCount n).1 n (h.decreaseActiveCount n).2 := by
  unfold Handle.decreaseActiveCount
  dsimp only
  split
  · next hc =>
    obtain ⟨h1, ho⟩ := hc
    have hs := handleStop_spec h.flags n
    refine .of_balanced ho (by rw [hs]; exact ho) Libuv.L2.Handle.handleStop_balanced ?_ (by rw [hs])
    refine ⟨fun _ => ?_, fun hc => ?_, fun _ => ?_, fun hc => ?_⟩
    · simp [Handle.withFlags, hs, h1]
    · simp [Handle.withFlags, hs]
    · simp [Handle.withFlags, hs, hg.opened ho]
    · simp [Handle.withFlags, hs, hg.opened ho] at hc
  · next hc =>
    refine ⟨⟨fun ho => ?_, hg.stopped, hg.opened, hg.closed⟩, rfl, id, rfl, rfl, rfl⟩
    have h1 : h.activecnt - 1 ≠ 0 := fun e => hc ⟨e, ho⟩
    rw [hg.active ho]
    dsimp only
    omega

theorem closing_effect (hg : h.Good) (ho : h.flags.closing = false) : Effect h (h.closing n).1 n (h.closing n).2 := by
  have hcl := hg.opened ho
  refine ⟨⟨fun hc => ?_, fun _ => rfl, fun hc => ?_, fun hc => hg.closed hc⟩, ?_, fun hn => ?_, rfl, rfl, rfl⟩
  · cases hc
  · cases hc
  · simp only [Handle.closing, Handle.weight, Handle.keeps, ho, hcl]
    cases h.flags.active && h.flags.ref <;> simp [activeHandleAdd]
  · simp only [Handle.closing]
    split
    · exact hn
    · exact Nat.mod_lt _ (by decide)

theorem Effect.of_ref {b : Bool} {r : Flags × ℕ} (hg : h.Good) (hr : r.1 = { h.flags with ref := b })
    (hb : h.flags.closing = false → Balanced h.flags r.1 n r.2) (hn : h.flags.closing = true → r.2 = n) :
    Effect h (h.withFlags r).1 n (h.withFlags r).2 := by
  have hgood : (h.withFlags r).1.Good := by
    refine ⟨fun hc => ?_, fun hc => ?_, fun hc => ?_, fun hc => ?_⟩ <;> simp only [Handle.withFlags, hr] at hc ⊢
    · exact hg.active hc
    · exact hg.stopped hc
    · exact hg.opened hc
    · exact hg.closed hc
  cases ho : h.flags.closing with
  | false => exact .of_balanced ho (by rw [hr]; exact ho) (hb ho) hgood (by rw [hr])
  | true =>
    have hn := hn ho
    refine ⟨hgood, ?_, fun hlt => ?_, rfl, rfl, by rw [Handle.withFlags, hr]⟩
    · simp [Handle.withFlags, hr, hn, Handle.weight, Handle.keeps, ho]
    · rwa [Handle.withFlags, hn]

theorem ref_effect (hg : h.Good) : Effect h (h.ref n).1 n (h.ref n).2 := by
  refine .of_ref hg (handleRef_spec h.flags n) (fun _ => Libuv.L2.Handle.handleRef_balanced hg.stopped) fun ho => ?_
  unfold handleRef
  split
  · rfl
  · exact congrArg Prod.snd (if_pos ho)

theorem unref_effect (hg : h.Good) : Effect h (h.unref n).1 n (h.unref n).2 := by
  refine .of_ref hg (handleUnref_spec h.flags n) (fun _ => Libuv.L2.Handle.handleUnref_balanced hg.stopped) fun ho => ?_
  unfold handleUnref
  split
  · rfl
  · exact congrArg Prod.snd (if_pos ho)

end Macros

/-! ## The loop -/

def nextOf (l : List Handle) (i : ℕ) : Option ℕ := l[i]?.bind Handle.endgameNext

/-- The stack of endgames is `es`. -/
structure Inv (s : Loop) (es : List ℕ) : Prop where
  good : ∀ (i : ℕ) (h : Handle), s.handles[i]? = some h → h.Good
  count : s.activeHandles = s.handles.countP Handle.keeps % uintMax
  chain : Chain (nextOf s.handles) s.endgameHandles es
  nodup : es.Nodup
  queued : ∀ i : ℕ, i ∈ es ↔ ∃ h : Handle, s.handles[i]? = some h ∧ h.endgameQueued = true
  once : s.closeCbs.Nodup
  called : ∀ i : ℕ, i ∈ s.closeCbs ↔ ∃ h : Handle, s.handles[i]? = some h ∧ h.flags.closed = true

/-- A handle that is closing and waits for no request is on its way. -/
def Handle.Settled (h : Handle) : Prop :=
  h.flags.closing = true → h.reqsPending = 0 → h.endgameQueued = true ∨ h.flags.closed = true

section Loop
variable {s t : Loop} {es : List ℕ} {i : ℕ} {h h' : Handle}

variable {l : List Handle} {j : ℕ} {m : Handle → ℕ → Handle × ℕ}

theorem getElem?_set_iff (hh : l[i]? = some h) {g : Handle} :
    (l.set i h')[j]? = some g ↔ j = i ∧ h' = g ∨ j ≠ i ∧ l[j]? = some g := by
  have hi := (List.getElem?_eq_some_iff.1 hh).1
  by_cases hj : j = i
  · subst hj
    simp [getElem?_set_self hi]
  · simp [getElem?_set_ne (Ne.symm hj), hj]

theorem nextOf_set (hh : l[i]? = some h) (hn : h'.endgameNext = h.endgameNext) :
    nextOf (l.set i h') = nextOf l := by
  funext j
  by_cases hj : j = i
  · subst hj
    simp [nextOf, getElem?_set_self (List.getElem?_eq_some_iff.1 hh).1, hh, hn]
  · simp [nextOf, getElem?_set_ne (Ne.symm hj)]

theorem nextOf_away (hj : j ≠ i) : nextOf (l.set i h') j = nextOf l j := by
  simp [nextOf, getElem?_set_ne (Ne.symm hj)]

theorem exists_at (hh : l[i]? = some h) (P : Handle → Prop) (j : ℕ) :
    (∃ g, l[j]? = some g ∧ P g) ↔ j = i ∧ P h ∨ j ≠ i ∧ ∃ g, l[j]? = some g ∧ P g := by
  by_cases hj : j = i
  · subst hj
    simp [hh]
  · simp [hj]

theorem Inv.set (hi : Inv s es) (hh : s.handles[i]? = some h) {n r : ℕ} {head : Option ℕ} {cbs es' : List ℕ} (hg : h'.Good)
    (hcount : (n + h.weight) % uintMax = (s.activeHandles + h'.weight) % uintMax) (hrange : s.activeHandles < uintMax → n < uintMax)
    (hchain : Chain (nextOf (s.handles.set i h')) head es') (hnodup : es'.Nodup)
    (hq : ∀ j, j ∈ es' ↔ j = i ∧ h'.endgameQueued = true ∨ j ≠ i ∧ j ∈ es) (honce : cbs.Nodup)
    (hcbs : ∀ j, j ∈ cbs ↔ j = i ∧ h'.flags.closed = true ∨ j ≠ i ∧ j ∈ s.closeCbs) :
    Inv ⟨s.handles.set i h', n, r, head, cbs⟩ es' := by
  obtain ⟨hlt, rfl⟩ := List.getElem?_eq_some_iff.1 hh
  have hall : ∀ (P : Handle → Prop) j, (∃ g, (s.handles.set i h')[j]? = some g ∧ P g) ↔
      j = i ∧ P h' ∨ j ≠ i ∧ ∃ g, s.handles[j]? = some g ∧ P g := by
    intro P j
    constructor
    · rintro ⟨g, hg, hp⟩
      rcases (getElem?_set_iff hh).1 hg with ⟨hj, rfl⟩ | ⟨hj, hg⟩
      · exact .inl ⟨hj, hp⟩
      · exact .inr ⟨hj, g, hg, hp⟩
    · rintro (⟨hj, hp⟩ | ⟨hj, g, hg, hp⟩)
      · exact ⟨h', (getElem?_set_iff hh).2 (.inl ⟨hj, rfl⟩), hp⟩
      · exact ⟨g, (getElem?_set_iff hh).2 (.inr ⟨hj, hg⟩), hp⟩
  refine ⟨fun j g hj => ?_, ?_, hchain, hnodup, fun j => ?_, honce, fun j => ?_⟩
  · rcases (getElem?_set_iff hh).1 hj with ⟨-, rfl⟩ | ⟨-, hj⟩
    · exact hg
    · exact hi.good j g hj
  · have hle : s.handles[i].weight ≤ s.handles.countP Handle.keeps := by
      unfold Handle.weight
      split
      · exact countP_pos_iff.2 ⟨_, getElem_mem hlt, ‹_›⟩
      · exact Nat.zero_le _
    rw [countP_set hlt]
    exact Libuv.L2.Handle.recount hcount hi.count (hrange (hi.count ▸ Nat.mod_lt _ (by decide))) hle
  · rw [hq j, hall, hi.queued j]
  · rw [hcbs j, hall, hi.called j]

theorem Inv.on (hi : Inv s es) (hh : s.handles[i]? = some h)
    (he : Effect h (m h s.activeHandles).1 s.activeHandles (m h s.activeHandles).2) :
    ∃ t, s.on i m = some t ∧ Inv t es ∧ t.handles = s.handles.set i (m h s.activeHandles).1 := by
  refine ⟨_, by rw [Loop.on, hh]; rfl, ?_, rfl⟩
  refine hi.set hh he.good he.count he.range ?_ hi.nodup (fun j => ?_) hi.once fun j => ?_
  · rw [nextOf_set hh he.next]
    exact hi.chain
  · rw [he.queued, hi.queued]
    exact exists_at hh _ j
  · rw [he.closed, hi.called]
    exact exists_at hh _ j

theorem Inv.wantEndgame (hi : Inv s es) (hh : s.handles[i]? = some h) (hc : h.flags.closed = false) :
    ∃ t es' h', s.wantEndgame i = some t ∧ Inv t es' ∧ t.handles = s.handles.set i h' ∧ h'.endgameQueued = true := by
  by_cases hq : h.endgameQueued = true
  · refine ⟨s, es, h, by simp [Loop.wantEndgame, hh, hq], hi, ?_, hq⟩
    obtain ⟨hlt, rfl⟩ := List.getElem?_eq_some_iff.1 hh
    exact (set_getElem_self hlt).symm
  · have hne : i ∉ es := by
      rw [hi.queued]
      rintro ⟨g, hg, hgq⟩
      cases hh.symm.trans hg
      exact hq hgq
    have hg := hi.good i h hh
    refine ⟨_, i :: es, { h with endgameQueued := true, endgameNext := s.endgameHandles },
      by rw [Loop.wantEndgame, hh]; simp [hq]; rfl, ?_, rfl, rfl⟩
    refine hi.set hh ⟨hg.active, hg.stopped, hg.opened, fun h1 => ?_⟩ ?_ id ⟨rfl, ?_⟩ (nodup_cons.2 ⟨hne, hi.nodup⟩)
      (fun j => ?_) hi.once fun j => ?_
    · rw [hc] at h1
      cases h1
    · rfl
    · have hself : nextOf (s.handles.set i { h with endgameQueued := true, endgameNext := s.endgameHandles }) i =
          s.endgameHandles := by
        simp [nextOf, getElem?_set_self (List.getElem?_eq_some_iff.1 hh).1]
      rw [hself]
      exact hi.chain.congr fun j hj => nextOf_away fun e => hne (e ▸ hj)
    · by_cases hj : j = i
      · simp [hj]
      · simp [hj]
    · rw [hi.called]
      exact exists_at hh _ j

theorem Inv.wantEndgameIf (hi : Inv s es) (hh : s.handles[i]? = some h) (hc : h.flags.closed = false)
    (hs : ∀ j (g : Handle), j ≠ i → s.handles[j]? = some g → g.Settled) :
    ∃ t es', s.wantEndgameIf i = some t ∧ Inv t es' ∧ ∀ (j : ℕ) (g : Handle), t.handles[j]? = some g → g.Settled := by
  by_cases hw : (h.flags.closing && h.reqsPending == 0) = true
  · obtain ⟨t, es', h', ht, hit, hset, hq⟩ := hi.wantEndgame hh hc
    refine ⟨t, es', by rw [Loop.wantEndgameIf, hh, bind_some, if_pos hw, ht], hit, fun j g hg => ?_⟩
    rw [hset, getElem?_set_iff hh] at hg
    rcases hg with ⟨-, rfl⟩ | ⟨hj, hg⟩
    · exact fun _ _ => .inl hq
    · exact hs j g hj hg
  · refine ⟨s, es, by rw [Loop.wantEndgameIf, hh, bind_some, if_neg hw], hi, fun j g hg => ?_⟩
    by_cases hj : j = i
    · subst hj
      cases hh.symm.trans hg
      intro h1 h2
      exact absurd (by simp [h1, h2]) hw
    · exact hs j g hj hg

theorem Inv.endgame (hi : Inv s es) (hs : ∀ (j : ℕ) (g : Handle), s.handles[j]? = some g → g.Settled)
    (hne : s.endgameHandles.isSome = true) :
    ∃ t es', s.endgame = some t ∧ Inv t es' ∧ ∀ (j : ℕ) (g : Handle), t.handles[j]? = some g → g.Settled := by
  cases es with
  | nil =>
    rw [hi.chain] at hne
    cases hne
  | cons i es =>
    obtain ⟨hhead, hchain⟩ := hi.chain
    obtain ⟨hnot, hnd⟩ := nodup_cons.1 hi.nodup
    obtain ⟨h, hh, hq⟩ := (hi.queued i).1 mem_cons_self
    have hg := hi.good i h hh
    have hc : h.flags.closed = false := by
      by_contra hc
      have := (hg.closed (by simpa using hc)).2
      rw [hq] at this
      cases this
    have hnext : nextOf s.handles i = h.endgameNext := by simp [nextOf, hh]
    have hchain' : ∀ g : Handle, Chain (nextOf (s.handles.set i g)) h.endgameNext es := by
      intro g
      rw [← hnext]
      exact hchain.congr fun j hj => nextOf_away fun e => hnot (e ▸ hj)
    have hqueue : ∀ (g : Handle), g.endgameQueued = false →
        ∀ j, j ∈ es ↔ j = i ∧ g.endgameQueued = true ∨ j ≠ i ∧ j ∈ i :: es := by
      intro g hgq j
      by_cases hj : j = i
      · subst hj
        simp [hgq, hnot]
      · simp [hj]
    by_cases hw : (h.flags.closing && h.reqsPending == 0) = true
    · have hw' : h.flags.closing = true ∧ h.reqsPending = 0 := by simpa using hw
      have hcall : i ∉ s.closeCbs := by
        rw [hi.called]
        rintro ⟨g, hg, hgc⟩
        cases hh.symm.trans hg
        rw [hc] at hgc
        cases hgc
      have hlt := (List.getElem?_eq_some_iff.1 hh).1
      refine ⟨⟨s.handles.set i { h with endgameQueued := false, flags := { h.flags with closed := true } },
        activeHandleRm s.activeHandles, s.activeReqs, h.endgameNext, s.closeCbs ++ [i]⟩, es, ?_, ?_, fun j g hg => ?_⟩
      · simp only [Loop.endgame, hhead, bind_some, hh, if_pos hw, hc]
        simp [Loop.on, Handle.close, hlt]
      · refine hi.set hh ⟨fun ho => ?_, hg.stopped, fun ho => ?_, fun _ => ⟨hw'.2, rfl⟩⟩ ?_ (fun _ => ?_) (hchain' _) hnd
          (hqueue _ rfl) ?_ fun j => ?_
        · simp [hw'.1] at ho
        · simp [hw'.1] at ho
        · simp [Handle.weight, Handle.keeps, hw'.1, hc, activeHandleRm, uintMax, Nat.add_assoc]
        · exact Nat.mod_lt _ (by decide)
        · rw [← concat_eq_append]
          exact hi.once.concat hcall
        · by_cases hj : j = i
          · simp [hj]
          · simp [hj]
      · rcases (getElem?_set_iff hh).1 hg with ⟨-, rfl⟩ | ⟨-, hg⟩
        · exact fun _ _ => .inr rfl
        · exact hs j g hg
    · refine ⟨⟨s.handles.set i { h with endgameQueued := false }, s.activeHandles, s.activeReqs, h.endgameNext, s.closeCbs⟩,
        es, ?_, ?_, fun j g hg => ?_⟩
      · simp only [Loop.endgame, hhead, bind_some, hh, if_neg hw]
      · refine hi.set hh ⟨hg.active, hg.stopped, hg.opened, fun h1 => ?_⟩ rfl id (hchain' _) hnd (hqueue _ rfl) hi.once fun j => ?_
        · rw [hc] at h1
          cases h1
        · rw [hi.called]
          exact exists_at hh _ j
      · rcases (getElem?_set_iff hh).1 hg with ⟨-, rfl⟩ | ⟨-, hg⟩
        · intro h1 h2
          exact absurd (by simpa using ⟨h1, h2⟩) hw
        · exact hs j g hg

def Loop.Settled (s : Loop) : Prop := ∀ (j : ℕ) (g : Handle), s.handles[j]? = some g → g.Settled

theorem Inv.quiet (hi : Inv s es) (hs : s.Settled) (hh : s.handles[i]? = some h)
    (he : Effect h (m h s.activeHandles).1 s.activeHandles (m h s.activeHandles).2)
    (hc : (m h s.activeHandles).1.flags.closing = true →
      h.flags.closing = true ∧ (m h s.activeHandles).1.reqsPending = h.reqsPending) :
    ∃ t es', s.on i m = some t ∧ Inv t es' ∧ t.Settled := by
  obtain ⟨t, ht, hit, hset⟩ := hi.on hh he
  refine ⟨t, es, ht, hit, fun j g hg => ?_⟩
  rw [hset, getElem?_set_iff hh] at hg
  rcases hg with ⟨-, rfl⟩ | ⟨-, hg⟩
  · intro h1 h2
    obtain ⟨h3, h4⟩ := hc h1
    rw [he.queued, he.closed]
    exact hs i h hh h3 (h4 ▸ h2)
  · exact hs j g hg

theorem Inv.thenEndgame (hi : Inv s es) (hs : s.Settled) (hh : s.handles[i]? = some h)
    (he : Effect h (m h s.activeHandles).1 s.activeHandles (m h s.activeHandles).2) (hc : h.flags.closed = false) :
    ∃ t es', ((s.on i m).bind fun s => s.wantEndgameIf i) = some t ∧ Inv t es' ∧ t.Settled := by
  obtain ⟨u, hu, hiu, hset⟩ := hi.on hh he
  have hlt := (List.getElem?_eq_some_iff.1 hh).1
  have hself : u.handles[i]? = some (m h s.activeHandles).1 := by rw [hset, getElem?_set_self hlt]
  have hoff : ∀ j (g : Handle), j ≠ i → u.handles[j]? = some g → g.Settled := by
    intro j g hj hg
    rw [hset, getElem?_set_ne (Ne.symm hj)] at hg
    exact hs j g hg
  obtain ⟨t, es', ht, hit, hst⟩ := hiu.wantEndgameIf hself (he.closed.trans hc) hoff
  exact ⟨t, es', by rw [hu, bind_some, ht], hit, hst⟩

theorem increase_closing (h : Handle) (n : ℕ) : (h.increaseActiveCount n).1.flags.closing = h.flags.closing ∧
    (h.increaseActiveCount n).1.reqsPending = h.reqsPending := by
  unfold Handle.increaseActiveCount
  split
  · simp [Handle.withFlags, handleStart_spec]
  · exact ⟨rfl, rfl⟩

theorem decrease_closing (h : Handle) (n : ℕ) : (h.decreaseActiveCount n).1.flags.closing = h.flags.closing ∧
    (h.decreaseActiveCount n).1.reqsPending = h.reqsPending := by
  unfold Handle.decreaseActiveCount
  dsimp only
  split
  · simp [Handle.withFlags, handleStop_spec]
  · exact ⟨rfl, rfl⟩

theorem Inv.reqs (hi : Inv s es) (r : ℕ) : Inv { s with activeReqs := r } es :=
  ⟨hi.good, hi.count, hi.chain, hi.nodup, hi.queued, hi.once, hi.called⟩

theorem getElem?_init {g : Handle} :
    (l ++ [handleInitial])[j]? = some g ↔ l[j]? = some g ∨ j = l.length ∧ g = handleInitial := by
  rw [getElem?_append]
  split
  · next hj => exact ⟨.inl, fun h => h.resolve_right fun h => by omega⟩
  · next hj =>
    rw [getElem?_singleton, getElem?_eq_none (by omega)]
    split
    · next h0 => simp [show j = l.length by omega, eq_comm]
    · next h0 => simp [show j ≠ l.length by omega]

theorem Inv.init (hi : Inv s es) : Inv { s with handles := s.handles ++ [handleInitial] } es := by
  have hex : ∀ (P : Handle → Prop) (j : ℕ), ¬ P handleInitial →
      ((∃ g, (s.handles ++ [handleInitial])[j]? = some g ∧ P g) ↔ ∃ g, s.handles[j]? = some g ∧ P g) := by
    intro P j hP
    refine exists_congr fun g => ⟨fun ⟨hg, hp⟩ => ⟨(getElem?_init.1 hg).resolve_right fun e => hP (e.2 ▸ hp), hp⟩,
      fun ⟨hg, hp⟩ => ⟨getElem?_init.2 (.inl hg), hp⟩⟩
  refine ⟨fun j g hg => ?_, ?_, hi.chain.congr fun j hj => ?_, hi.nodup, fun j => ?_, hi.once, fun j => ?_⟩
  · rcases getElem?_init.1 hg with hg | ⟨-, rfl⟩
    · exact hi.good j g hg
    · exact ⟨by decide, by decide, by decide, by decide⟩
  · rw [countP_append]
    exact hi.count
  · obtain ⟨g, hg, -⟩ := (hi.queued j).1 hj
    have hlt := (List.getElem?_eq_some_iff.1 hg).1
    simp [nextOf, getElem?_append_left hlt]
  · rw [hex _ j (by decide), hi.queued j]
  · rw [hex _ j (by decide), hi.called j]

theorem Loop.Settled.init (hs : s.Settled) : Loop.Settled { s with handles := s.handles ++ [handleInitial] } := by
  intro j g hg
  rcases getElem?_init.1 hg with hg | ⟨-, rfl⟩
  · exact hs j g hg
  · intro h1
    cases h1

theorem step_spec (hi : Inv s es) (hs : s.Settled) {l : Label} (he : enabled s l = true) :
    ∃ t es', step s l = some t ∧ Inv t es' ∧ t.Settled := by
  cases l with
  | init => exact ⟨_, es, rfl, hi.init, hs.init⟩
  | increase i =>
    obtain ⟨h, hh, ha⟩ := (Option.any_eq_true _ _).1 he
    have ho : h.flags.closing = false := by simp_all [Handle.allows]
    exact hi.quiet hs hh (increaseActiveCount_effect (hi.good i h hh) ho) fun hc =>
      ⟨(increase_closing h _).1 ▸ hc, (increase_closing h _).2⟩
  | decrease i =>
    obtain ⟨h, hh, ha⟩ := (Option.any_eq_true _ _).1 he
    exact hi.quiet hs hh (decreaseActiveCount_effect (hi.good i h hh)) fun hc =>
      ⟨(decrease_closing h _).1 ▸ hc, (decrease_closing h _).2⟩
  | register i =>
    obtain ⟨h, hh, ha⟩ := (Option.any_eq_true _ _).1 he
    have ho : h.flags.closing = false := by simp_all [Handle.allows]
    exact (hi.reqs ((s.activeReqs + 1) % uintMax)).quiet hs hh (increaseActiveCount_effect (hi.good i h hh) ho) fun hc =>
      ⟨(increase_closing h _).1 ▸ hc, (increase_closing h _).2⟩
  | unregister i =>
    obtain ⟨h, hh, ha⟩ := (Option.any_eq_true _ _).1 (Bool.and_eq_true_iff.1 he).2
    exact (hi.reqs (s.activeReqs - 1)).quiet hs hh (decreaseActiveCount_effect (hi.good i h hh)) fun hc =>
      ⟨(decrease_closing h _).1 ▸ hc, (decrease_closing h _).2⟩
  | pend i =>
    obtain ⟨h, hh, ha⟩ := (Option.any_eq_true _ _).1 he
    have ho : h.flags.closing = false := by simp_all [Handle.allows]
    have hg := hi.good i h hh
    refine hi.quiet hs hh ⟨⟨hg.active, hg.stopped, hg.opened, fun hc => ?_⟩, rfl, id, rfl, rfl, rfl⟩ fun hc => ?_
    · rw [hg.opened ho] at hc
      cases hc
    · rw [ho] at hc
      cases hc
  | unpend i =>
    obtain ⟨h, hh, ha⟩ := (Option.any_eq_true _ _).1 he
    have h0 : 0 < h.reqsPending := by simpa [Handle.allows] using ha
    have hg := hi.good i h hh
    have hc : h.flags.closed = false := by
      by_contra hc
      have := (hg.closed (by simpa using hc)).1
      omega
    refine hi.thenEndgame hs hh ⟨⟨hg.active, hg.stopped, hg.opened, fun h1 => ?_⟩, rfl, id, rfl, rfl, rfl⟩ hc
    rw [hc] at h1
    cases h1
  | ref i =>
    obtain ⟨h, hh, ha⟩ := (Option.any_eq_true _ _).1 he
    exact hi.quiet hs hh (ref_effect (hi.good i h hh)) fun hc =>
      ⟨by simpa [Handle.ref, Handle.withFlags, handleRef_spec] using hc, rfl⟩
  | unref i =>
    obtain ⟨h, hh, ha⟩ := (Option.any_eq_true _ _).1 he
    exact hi.quiet hs hh (unref_effect (hi.good i h hh)) fun hc =>
      ⟨by simpa [Handle.unref, Handle.withFlags, handleUnref_spec] using hc, rfl⟩
  | close i =>
    obtain ⟨h, hh, ha⟩ := (Option.any_eq_true _ _).1 he
    have ho : h.flags.closing = false := by simpa [Handle.allows] using ha
    exact hi.thenEndgame hs hh (closing_effect (hi.good i h hh) ho) ((hi.good i h hh).opened ho)
  | wantEndgame i =>
    obtain ⟨h, hh, ha⟩ := (Option.any_eq_true _ _).1 he
    obtain ⟨t, es', h', ht, hit, hset, hq⟩ := hi.wantEndgame hh (by simpa [Handle.allows] using ha)
    refine ⟨t, es', ht, hit, fun j g hg => ?_⟩
    rw [hset, getElem?_set_iff hh] at hg
    rcases hg with ⟨-, rfl⟩ | ⟨-, hg⟩
    · exact fun _ _ => .inl hq
    · exact hs j g hg
  | endgame => exact hi.endgame hs he

end Loop

/-! ## Runs -/

theorem inv_inductive : system.Inductive fun s => (∃ es, Inv s es) ∧ s.Settled where
  init := by
    rintro s rfl
    refine ⟨⟨[], fun j g hg => ?_, rfl, rfl, nodup_nil, fun j => ?_, nodup_nil, fun j => ?_⟩, fun j g hg => ?_⟩ <;>
      simp at *
  step := by
    rintro s l t ⟨⟨es, hi⟩, hs⟩ ⟨he, hst⟩
    obtain ⟨u, es', hu, hiu, hsu⟩ := step_spec hi hs he
    cases hu.symm.trans hst
    exact ⟨⟨es', hiu⟩, hsu⟩

/-- The handles that are not closing, active and referenced, and those that are closing and not closed. -/
def Loop.keeping (s : Loop) : ℕ :=
  s.handles.countP (fun h => !h.flags.closing && (h.flags.active && h.flags.ref)) +
    s.handles.countP (fun h => h.flags.closing && !h.flags.closed)

theorem countP_keeps (s : Loop) : s.handles.countP Handle.keeps = s.keeping := by
  unfold Loop.keeping
  induction s.handles with
  | nil => rfl
  | cons h l ih =>
    simp only [countP_cons, ih, Handle.keeps]
    by_cases hc : h.flags.closing = true <;> simp [hc] <;> omega

/-- **Liveness and closing**, over any handles and any order of steps. `active_handles` is the number of
handles that are active and referenced, plus those that are closing, as an `unsigned int`; a
handle is active as long as something is counted; the stack holds the handles with the flag once
each; a handle that is closing and waits for nothing is on the stack or closed; a close callback is
called once; and no step fails. -/
theorem liveness {s : Loop} (h : system.Reachable s) :
    (s.activeHandles = s.keeping % uintMax ∧ (s.keeping < uintMax → s.activeHandles = s.keeping)) ∧
    (∀ h ∈ s.handles, h.flags.closing = false → (h.flags.active = true ↔ 0 < h.activecnt)) ∧
    (∃ es, Chain (nextOf s.handles) s.endgameHandles es ∧ es.Nodup ∧
      ∀ i : ℕ, i ∈ es ↔ ∃ h : Handle, s.handles[i]? = some h ∧ h.endgameQueued = true) ∧
    (∀ h ∈ s.handles, h.flags.closing = true → h.reqsPending = 0 → h.endgameQueued = true ∨ h.flags.closed = true) ∧
    (s.closeCbs.Nodup ∧ ∀ i : ℕ, i ∈ s.closeCbs ↔ ∃ h : Handle, s.handles[i]? = some h ∧ h.flags.closed = true) ∧
    ∀ l, enabled s l = true → ∃ t, step s l = some t := by
  obtain ⟨⟨es, hi⟩, hs⟩ := inv_inductive.reachable h
  have hc := hi.count
  rw [countP_keeps] at hc
  refine ⟨⟨hc, fun hlt => hc.trans (Nat.mod_eq_of_lt hlt)⟩, fun g hg => ?_, ⟨es, hi.chain, hi.nodup, hi.queued⟩, fun g hg => ?_,
    ⟨hi.once, hi.called⟩, fun l he => ?_⟩
  · obtain ⟨i, hi'⟩ := getElem?_of_mem hg
    exact (hi.good i g hi').active
  · obtain ⟨i, hi'⟩ := getElem?_of_mem hg
    exact hs i g hi'
  · obtain ⟨t, es', ht, -⟩ := step_spec hi hs he
    exact ⟨t, ht⟩

theorem run_step {s t : Loop} {l : Label} (h : (if enabled s l then step s l else none) = some t) : system.step s l t := by
  split at h
  · exact ⟨‹_›, h⟩
  · cases h

/-- A handle with one request pending is closed beside one that is active; its request comes back,
and the endgame closes it. -/
theorem liveness_two : ∃ s : Loop, s.activeHandles = 1 ∧ s.closeCbs = [0] ∧ s.keeping = 1 := by
  have h : system.Reachable ⟨[⟨⟨true, true, false, true⟩, false, 0, 0, none⟩, ⟨⟨false, false, true, true⟩, false, 1, 0, none⟩],
      1, 1, none, [0]⟩ :=
    (LTS.Reachable.init rfl : system.Reachable ⟨[], 0, 0, none, []⟩).foldlM (fun _ _ _ => run_step)
      (w := [.init, .init, .increase 0, .pend 0, .register 1, .close 0, .decrease 0, .unpend 0, .endgame]) (by decide)
  obtain ⟨⟨-, hn⟩, -⟩ := liveness h
  exact ⟨_, rfl, rfl, (hn (by decide)).symm⟩

theorem reachable_replicate (n : ℕ) :
    system.Reachable ⟨List.replicate n ⟨⟨false, false, true, true⟩, false, 1, 0, none⟩, n % uintMax, 0, none, []⟩ := by
  induction n with
  | zero => exact .init rfl
  | succ n ih =>
    have hinit (s : Loop) : system.step s .init { s with handles := s.handles ++ [handleInitial] } := ⟨rfl, rfl⟩
    refine (ih.step (hinit _)).step (l := .increase n) ?_
    have hget : (List.replicate n (⟨⟨false, false, true, true⟩, false, 1, 0, none⟩ : Handle) ++ [handleInitial])[n]? =
        some handleInitial := by
      simp
    have hset : (List.replicate n (⟨⟨false, false, true, true⟩, false, 1, 0, none⟩ : Handle) ++ [handleInitial]).set n
        ⟨⟨false, false, true, true⟩, false, 1, 0, none⟩ =
          List.replicate (n + 1) ⟨⟨false, false, true, true⟩, false, 1, 0, none⟩ := by
      rw [replicate_succ']
      simp
    have hadd : activeHandleAdd (n % uintMax) = (n + 1) % uintMax := Nat.mod_add_mod _ _ _
    refine ⟨?_, ?_⟩
    · simp only [enabled, hget]
      rfl
    · simp only [step, Loop.on, hget]
      rw [← hset, ← hadd]
      rfl

/-- **`active_handles` wraps**: 2^32 active handles count as none. -/
theorem active_handles_wrap : ¬ ∀ s, system.Reachable s → s.activeHandles = s.keeping := by
  intro hall
  have h := hall _ (reachable_replicate uintMax)
  rw [← countP_keeps, countP_replicate] at h
  exact absurd h (by decide)

end Libuv.L5.Endgame
