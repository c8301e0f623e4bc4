import Mathlib.Tactic
import Libuv.Core.Chain
import Libuv.Core.LTS

/-!
# Polling a path with `stat` (`fs-poll.c`)

A `uv_fs_poll_t`, the contexts of its periods (from a `uv_fs_poll_start` to the
`uv_fs_poll_stop` behind it), each with its timer and its stat request, and the chain they
form through `previous`. A context is known by the number of its allocation; `ctxs` is what is
allocated. What fails an assertion, dereferences a null pointer or uses freed memory has no result.

A step is one call of the API, a stat request that completes, a timer of a context that expires or
whose closing is finished, or the return of the user's callback; the loop takes them up in any
order. `period` is the context of the last start that succeeded; `ended`, the contexts whose
period a stop has ended, and `late`, the calls of their callbacks afterwards, are what
an observer writes down. `abort()` is not modelled for a stat request that cannot be submitted
by `timer_cb`: no memory is left and the run is over.

* `Inv`: what holds in every run.
-/
namespace Libuv.L2.FsPoll

open List Function

structure Timespec where
  sec : ℤ
  nsec : ℤ
  deriving DecidableEq

/-- The fields of `uv_stat_t` that are compared. -/
structure Stat where
  dev : ℕ
  mode : ℕ
  uid : ℕ
  gid : ℕ
  ino : ℕ
  size : ℕ
  flags : ℕ
  gen : ℕ
  mtim : Timespec
  ctim : Timespec
  birthtim : Timespec
  deriving DecidableEq

def zeroStatbuf : Stat := ⟨0, 0, 0, 0, 0, 0, 0, 0, ⟨0, 0⟩, ⟨0, 0⟩, ⟨0, 0⟩⟩

/-- mirrors fs-poll.c:258-273 -/
def statbufEq (a b : Stat) : Bool :=
  a.ctim.nsec = b.ctim.nsec
    && a.mtim.nsec = b.mtim.nsec
    && a.birthtim.nsec = b.birthtim.nsec
    && a.ctim.sec = b.ctim.sec
    && a.mtim.sec = b.mtim.sec
    && a.birthtim.sec = b.birthtim.sec
    && a.size = b.size
    && a.mode = b.mode
    && a.uid = b.uid
    && a.gid = b.gid
    && a.ino = b.ino
    && a.dev = b.dev
    && a.flags = b.flags
    && a.gen = b.gen

inductive Timer
  | inactive
  | active (timeout : ℕ)
  | closing
  deriving DecidableEq

def Timer.isActive : Timer → Bool
  | active _ => true
  | _ => false

/-- mirrors fs-poll.c:37-49 -/
structure PollCtx where
  busyPolling : ℤ
  interval : ℕ
  startTime : ℕ
  timer : Timer
  stat : Bool
  statbuf : Stat
  previous : Option ℕ
  deriving DecidableEq

/-- Whether the callback of a context is running, and with which stat result. -/
inductive Pc
  | idle
  | callback (c : ℕ) (result : ℤ) (statbuf : Stat)
  deriving DecidableEq

def Pc.ctx : Pc → Option ℕ
  | idle => none
  | callback c _ _ => some c

structure State where
  ctxs : ℕ → Option PollCtx
  fresh : ℕ
  freed : List ℕ
  pollCtx : Option ℕ
  active : Bool
  closing : Bool
  closePending : ℕ
  now : ℕ
  pc : Pc
  period : Option ℕ
  ended : List ℕ
  late : List ℕ

namespace State
variable (s : State)

def put (c : ℕ) (x : PollCtx) : State := { s with ctxs := Function.update s.ctxs c (some x) }

/-- `ctx->previous`, of a context that is allocated. -/
def previous (c : ℕ) : Option ℕ := (s.ctxs c).bind PollCtx.previous

/-- `uv_close(&ctx->timer_handle, timer_close_cb)` -/
def closeTimer (c : ℕ) : Option State := do
  let x ← s.ctxs c
  if x.timer = .closing then none else some (s.put c { x with timer := .closing })

/-- `uv__make_close_pending` of the handle. -/
def makeClosePending : Option State :=
  if s.closing then some { s with closePending := s.closePending + 1 } else none

/-- `uv_fs_poll_start`; `mem` is whether `uv__calloc` succeeds and `ok` whether the stat
request is submitted.
mirrors fs-poll.c:66-113 -/
def start (mem ok : Bool) (interval : ℕ) : State :=
  if s.active then s
  else if mem = false then s
  else
    let c := s.fresh
    if ok = false then { s with fresh := c + 1, freed := s.freed ++ [c] }
    else
      { s with
        ctxs := Function.update s.ctxs c
          (some ⟨0, if interval = 0 then 1 else interval, s.now, .inactive, true, zeroStatbuf, s.pollCtx⟩)
        fresh := c + 1
        pollCtx := some c
        active := true
        period := some c }

/-- mirrors fs-poll.c:116-135 -/
def stop : Option State :=
  if s.active = false then some s
  else do
    let c ← s.pollCtx
    let x ← s.ctxs c
    let s ← if x.timer.isActive then s.closeTimer c else some s
    some { s with
      active := false
      ended := s.ended ++ s.period.toList }

/-- `uv_close` of the handle.
mirrors fs-poll.c:164-169 -/
def close : Option State :=
  if s.closing then none
  else do
    let s ← State.stop { s with closing := true }
    if s.pollCtx = none then s.makeClosePending else some s

/-- `out` of `poll_cb`; `uv_timer_start` refuses a timer that is closing.
mirrors fs-poll.c:217-231 -/
def out (c : ℕ) : Option State := do
  let x ← s.ctxs c
  if s.active = false ∨ s.closing = true then s.closeTimer c
  else if x.timer = .closing then none
  else some (s.put c { x with timer := .active (x.interval - (s.now + 2 ^ 64 - x.startTime) % 2 ^ 64 % x.interval) })

/-- `ctx->poll_cb`, with what the observer writes down. -/
def call (c : ℕ) (result : ℤ) (statbuf : Stat) : State :=
  { s with
    pc := .callback c result statbuf
    late := if c ∈ s.ended then s.late ++ [c] else s.late }

/-- What `poll_cb` keeps of the result of a stat request. -/
def keep (c : ℕ) (result : ℤ) (statbuf : Stat) : Option State := do
  let x ← s.ctxs c
  if result ≠ 0 then some (s.put c { x with busyPolling := result })
  else some (s.put c { x with statbuf := statbuf, busyPolling := 1 })

def reports (x : PollCtx) (result : ℤ) (statbuf : Stat) : Bool :=
  if result ≠ 0 then x.busyPolling ≠ result
  else x.busyPolling ≠ 0 && (x.busyPolling < 0 || !statbufEq x.statbuf statbuf)

/-- `poll_cb`, up to the user's callback.
mirrors fs-poll.c:185-231 -/
def pollCb (c : ℕ) (result : ℤ) (statbuf : Stat) : Option State := do
  let x ← s.ctxs c
  let s := s.put c { x with stat := false }
  if s.active = false ∨ s.closing = true then s.out c
  else if reports x result statbuf then some (s.call c result statbuf)
  else do
    let s ← s.keep c result statbuf
    s.out c

/-- `poll_cb` from the return of the user's callback.
mirrors fs-poll.c:196-231 -/
def returned (c : ℕ) (result : ℤ) (statbuf : Stat) : Option State := do
  let s ← State.keep { s with pc := .idle } c result statbuf
  s.out c

/-- `timer_cb`, of a timer that `uv__run_timers` has stopped.
mirrors fs-poll.c:172-182 -/
def timerCb (c : ℕ) : Option State := do
  let x ← s.ctxs c
  let x := { x with timer := .inactive }
  if s.pollCtx = some c then some (s.put c { x with startTime := s.now, stat := true }) else none

/-- The part of `timer_close_cb` that takes the context out of the chain.
mirrors fs-poll.c:241-253 -/
def unlink (c : ℕ) (x : PollCtx) : Option State :=
  if s.pollCtx = some c then
    let s : State := { s with pollCtx := x.previous }
    if s.pollCtx = none ∧ s.closing = true then s.makeClosePending else some s
  else do
    let last ← s.pollCtx
    let last ← predecessor s.previous c s.fresh last
    let y ← s.ctxs last
    some (s.put last { y with previous := x.previous })

/-- mirrors fs-poll.c:234-255 -/
def timerCloseCb (c : ℕ) : Option State := do
  let x ← s.ctxs c
  let s ← s.unlink c x
  some { s with
    ctxs := Function.update s.ctxs c none
    freed := s.freed ++ [c] }

end State

inductive Label
  | start (mem ok : Bool) (interval : ℕ)
  | stop
  | close
  | stat (c : ℕ) (result : ℤ) (statbuf : Stat)
  | timer (c : ℕ)
  | timerClosed (c : ℕ)
  | ret
  | updateTime (now : ℕ)
  deriving DecidableEq

/-- What may happen next. The API is called between the callbacks of the loop and from
the user's; a handle is not started again after `uv_close`. -/
def enabled (s : State) : Label → Bool
  | .start .. => !s.closing
  | .stop => true
  | .close => !s.closing
  | .stat c _ _ => s.pc = .idle && (s.ctxs c).any PollCtx.stat
  | .timer c => s.pc = .idle && (s.ctxs c).any fun x => x.timer.isActive
  | .timerClosed c => s.pc = .idle && (s.ctxs c).any fun x => x.timer = .closing
  | .ret => s.pc ≠ .idle
  | .updateTime _ => s.pc = .idle

def step (s : State) : Label → Option State
  | .start mem ok interval => some (s.start mem ok interval)
  | .stop => s.stop
  | .close => s.close
  | .stat c result statbuf => s.pollCb c result statbuf
  | .timer c => s.timerCb c
  | .timerClosed c => s.timerCloseCb c
  | .ret =>
    match s.pc with
    | .callback c result statbuf => s.returned c result statbuf
    | .idle => none
  | .updateTime now => some { s with now := now }

/-- After `uv_fs_poll_init`. -/
def initial (now : ℕ) : State := ⟨fun _ => none, 0, [], none, false, false, 0, now, .idle, none, [], []⟩

def system : LTS State Label where
  init s := ∃ now, s = initial now
  step s l t := enabled s l ∧ step s l = some t

/-! ## The operations -/

variable {s t : State} {c : ℕ} {x y : PollCtx} {l : List ℕ}

@[simp] theorem put_ctxs_self : (s.put c x).ctxs c = some x := update_self ..

theorem put_ctxs_other {d : ℕ} (h : d ≠ c) : (s.put c x).ctxs d = s.ctxs d := update_of_ne h ..

@[simp] theorem put_put : (s.put c x).put c y = s.put c y := by
  simp [State.put]

@[simp] theorem put_active : (s.put c x).active = s.active := rfl

@[simp] theorem put_closing : (s.put c x).closing = s.closing := rfl
/-- The handle takes no notice of results: it is stopped or closing. -/
def Off (s : State) : Prop := s.active = false ∨ s.closing = true

instance (s : State) : Decidable (Off s) := inferInstanceAs (Decidable (_ ∨ _))

theorem out_spec (hx : s.ctxs c = some x) (ht : x.timer ≠ .closing) : ∃ tm : Timer, s.out c = some (s.put c { x with timer := tm }) ∧
    (Off s → tm = .closing) ∧ (¬ Off s → tm.isActive = true) := by
  unfold State.out State.closeTimer
  simp only [hx, Option.bind_eq_bind, Option.bind_some, if_neg ht]
  by_cases ho : s.active = false ∨ s.closing = true
  · rw [if_pos ho]
    exact ⟨.closing, rfl, fun _ => rfl, fun h => absurd ho h⟩
  · rw [if_neg ho]
    exact ⟨_, rfl, fun h => absurd h ho, fun _ => rfl⟩

theorem keep_spec (hx : s.ctxs c = some x) (result : ℤ) (statbuf : Stat) : ∃ y, s.keep c result statbuf = some (s.put c y) ∧
    y.timer = x.timer ∧ y.stat = x.stat ∧ y.previous = x.previous := by
  unfold State.keep
  simp only [hx, Option.bind_eq_bind, Option.bind_some]
  by_cases hr : result ≠ 0
  · rw [if_pos hr]
    exact ⟨_, rfl, rfl, rfl, rfl⟩
  · rw [if_neg hr]
    exact ⟨_, rfl, rfl, rfl, rfl⟩

theorem pollCb_spec (hx : s.ctxs c = some x) (ht : x.timer = .inactive) (result : ℤ) (statbuf : Stat) :
    ∃ y, y.previous = x.previous ∧ y.stat = false ∧
      (s.pollCb c result statbuf = some (s.put c y) ∧ (Off s → y.timer = .closing) ∧ (¬ Off s → y.timer.isActive = true) ∨
        ¬ Off s ∧ s.pollCb c result statbuf = some ((s.put c y).call c result statbuf) ∧ y.timer = .inactive) := by
  unfold State.pollCb
  simp only [hx, Option.bind_eq_bind, Option.bind_some, put_active, put_closing]
  by_cases ho : s.active = false ∨ s.closing = true
  · rw [if_pos ho]
    obtain ⟨tm, h1, h2, h3⟩ := out_spec (s := s.put c { x with stat := false }) put_ctxs_self (by rw [ht]; nofun)
    rw [put_put] at h1
    exact ⟨{ x with stat := false, timer := tm }, rfl, rfl, .inl ⟨h1, h2, h3⟩⟩
  · rw [if_neg ho]
    by_cases hr : State.reports x result statbuf
    · rw [if_pos hr]
      exact ⟨{ x with stat := false }, rfl, rfl, .inr ⟨ho, rfl, ht⟩⟩
    · rw [if_neg hr]
      obtain ⟨y, hk, hy1, hy2, hy3⟩ := keep_spec (s := s.put c { x with stat := false }) put_ctxs_self result statbuf
      rw [put_put] at hk
      obtain ⟨tm, h1, h2, h3⟩ := out_spec (s := s.put c y) put_ctxs_self (by rw [hy1]; simp [ht])
      rw [put_put] at h1
      simp only [hk, Option.bind_some, h1]
      exact ⟨{ y with timer := tm }, hy3, hy2, .inl ⟨rfl, h2, h3⟩⟩

theorem returned_spec (hx : s.ctxs c = some x) (ht : x.timer = .inactive) (hs : x.stat = false) (result : ℤ) (statbuf : Stat) :
    ∃ y, y.previous = x.previous ∧ y.stat = false ∧
      s.returned c result statbuf = some { s.put c y with pc := .idle } ∧
      (Off s → y.timer = .closing) ∧ (¬ Off s → y.timer.isActive = true) := by
  unfold State.returned
  obtain ⟨y, hk, hy1, hy2, hy3⟩ := keep_spec (s := { s with pc := .idle }) hx result statbuf
  obtain ⟨tm, h1, h2, h3⟩ := out_spec (s := State.put { s with pc := .idle } c y) put_ctxs_self (by rw [hy1, ht]; nofun)
  rw [put_put] at h1
  simp only [hk, Option.bind_eq_bind, Option.bind_some, h1]
  exact ⟨{ y with timer := tm }, hy3, hy2.trans hs, rfl, h2, h3⟩

/-! ## What holds in every run -/

/-- What a context waits for: its stat request, its timer or its timer's closing, or the user's
callback. -/
def Waits (pc : Pc) (c : ℕ) (x : PollCtx) : Prop :=
  if pc.ctx = some c then x.stat = false ∧ x.timer = .inactive
  else x.stat = true ∧ x.timer = .inactive ∨ x.stat = false ∧ x.timer ≠ .inactive

/-- The contexts, all of them in the chain `l`. -/
structure Contexts (s : State) (l : List ℕ) : Prop where
  chain : Chain s.previous s.pollCtx l
  nodup : l.Nodup
  mem : ∀ c, c ∈ l ↔ ∃ x, s.ctxs c = some x
  fresh : ∀ c, c < s.fresh ↔ c ∈ l ∨ c ∈ s.freed
  freed : ∀ c ∈ s.freed, c ∉ l
  once : s.freed.Nodup
  waits : ∀ c x, s.ctxs c = some x → Waits s.pc c x
  calling : ∀ c, s.pc.ctx = some c → c ∈ l
  current : s.active = true → ∃ c x, s.period = some c ∧ s.pollCtx = some c ∧ s.ctxs c = some x ∧ x.timer ≠ .closing
  open_ : s.active = true → ∀ c ∈ s.ended, s.period ≠ some c
  ended : ∀ c ∈ l, c ∈ s.ended ∨ s.active = true ∧ s.period = some c
  known : ∀ c ∈ s.ended, c < s.fresh

structure Inv (s : State) (l : List ℕ) : Prop extends Contexts s l where
  closed : s.closing = true → s.active = false
  pending : s.closePending = if s.closing = true ∧ l = [] then 1 else 0

theorem Contexts.put (hs : Contexts s l) (hx : s.ctxs c = some x) (hp : y.previous = x.previous) (pc : Pc) (late : List ℕ)
    (hw : Waits pc c y) (hpc : ∀ d, d ≠ c → (pc.ctx = some d ↔ s.pc.ctx = some d)) (hc : s.active = true → y.timer ≠ .closing) :
    Contexts { s.put c y with pc := pc, late := late } l := by
  have hmem : c ∈ l := (hs.mem c).2 ⟨x, hx⟩
  refine ⟨hs.chain.congr fun d hd => ?_, hs.nodup, fun d => ?_, hs.fresh, hs.freed, hs.once, fun d z hz => ?_, fun d hd => ?_,
    fun ha => ?_, hs.open_, hs.ended, hs.known⟩
  · show ((s.put c y).ctxs d).bind PollCtx.previous = (s.ctxs d).bind PollCtx.previous
    by_cases hdc : d = c
    · rw [hdc, put_ctxs_self, hx]
      exact hp
    · rw [put_ctxs_other hdc]
  · rw [hs.mem]
    show _ ↔ ∃ z, (s.put c y).ctxs d = some z
    by_cases hdc : d = c
    · simp [hdc, hx]
    · rw [put_ctxs_other hdc]
  · by_cases hdc : d = c
    · subst hdc
      rw [put_ctxs_self] at hz
      cases hz
      exact hw
    · rw [put_ctxs_other hdc] at hz
      have := hs.waits d z hz
      unfold Waits at this ⊢
      simpa only [hpc d hdc] using this
  · by_cases hdc : d = c
    · rwa [hdc]
    · exact hs.calling d ((hpc d hdc).1 hd)
  · obtain ⟨d, z, h1, h2, h3, h4⟩ := hs.current ha
    by_cases hdc : d = c
    · subst hdc
      exact ⟨d, y, h1, h2, put_ctxs_self, hc ha⟩
    · exact ⟨d, z, h1, h2, (put_ctxs_other hdc).trans h3, h4⟩

theorem Inv.put (hs : Inv s l) (hx : s.ctxs c = some x) (hp : y.previous = x.previous) (pc : Pc) (late : List ℕ)
    (hw : Waits pc c y) (hpc : ∀ d, d ≠ c → (pc.ctx = some d ↔ s.pc.ctx = some d)) (hc : s.active = true → y.timer ≠ .closing) :
    Inv { s.put c y with pc := pc, late := late } l :=
  ⟨hs.toContexts.put hx hp pc late hw hpc hc, hs.closed, hs.pending⟩

theorem Inv.initial (now : ℕ) : Inv (initial now) [] := by
  refine ⟨⟨rfl, nodup_nil, ?_, ?_, ?_, nodup_nil, ?_, ?_, ?_, ?_, ?_, ?_⟩, ?_, rfl⟩
  all_goals simp [FsPoll.initial, Pc.ctx]

theorem Contexts.fresh_none (hs : Contexts s l) : s.ctxs s.fresh = none ∧ s.fresh ∉ l ∧ s.fresh ∉ s.freed := by
  have hn := mt (hs.fresh s.fresh).2 (Nat.lt_irrefl _)
  have hl : s.fresh ∉ l := fun h => hn (.inl h)
  refine ⟨?_, hl, fun h => hn (.inr h)⟩
  cases hm : s.ctxs s.fresh with
  | none => rfl
  | some x => exact absurd ((hs.mem _).2 ⟨x, hm⟩) hl

theorem Inv.start (hs : Inv s l) (ho : s.closing = false) (mem ok : Bool) (interval : ℕ) :
    ∃ l', Inv (s.start mem ok interval) l' := by
  obtain ⟨hnone, hnl, hnf⟩ := hs.toContexts.fresh_none
  have hlt : ∀ c, c < s.fresh + 1 ↔ c = s.fresh ∨ c < s.fresh := by
    intro c
    omega
  unfold State.start
  by_cases ha : s.active = true
  · rw [if_pos ha]
    exact ⟨l, hs⟩
  rw [if_neg ha]
  by_cases hm : mem = false
  · rw [if_pos hm]
    exact ⟨l, hs⟩
  rw [if_neg hm]
  by_cases hk : ok = false
  · rw [if_pos hk]
    refine ⟨l, { hs with fresh := fun c => ?_, freed := fun c hc => ?_, once := ?_, known := fun c hc => ?_ }⟩
    · show c < s.fresh + 1 ↔ c ∈ l ∨ c ∈ s.freed ++ [s.fresh]
      rw [hlt, hs.fresh, mem_append, mem_singleton]
      tauto
    · rcases mem_append.1 hc with h | h
      · exact hs.freed c h
      · rw [mem_singleton.1 h]
        exact hnl
    · exact nodup_append.2 ⟨hs.once, nodup_singleton _, fun a ha b hb e => hnf (mem_singleton.1 hb ▸ e ▸ ha)⟩
    · exact Nat.lt_succ_of_lt (hs.known c hc)
  rw [if_neg hk]
  let x : PollCtx := ⟨0, if interval = 0 then 1 else interval, s.now, .inactive, true, zeroStatbuf, s.pollCtx⟩
  let t : State := { s with
    ctxs := update s.ctxs s.fresh (some x)
    fresh := s.fresh + 1
    pollCtx := some s.fresh
    active := true
    period := some s.fresh }
  show ∃ l', Inv t l'
  have hself : t.ctxs s.fresh = some x := update_self ..
  have hother : ∀ d, d ≠ s.fresh → t.ctxs d = s.ctxs d := fun d hd => update_of_ne hd ..
  have hne : ∀ d ∈ l, d ≠ s.fresh := fun d hd e => hnl (e ▸ hd)
  refine ⟨s.fresh :: l, ⟨⟨rfl, ?_⟩, nodup_cons.2 ⟨hnl, hs.nodup⟩, fun c => ?_, fun c => ?_, fun c hc => ?_, hs.once,
    fun c z hz => ?_, fun c hc => ?_, fun _ => ⟨s.fresh, x, rfl, rfl, hself, nofun⟩, fun _ c hc => ?_, fun c hc => ?_,
    fun c hc => ?_⟩, fun hc => ?_, ?_⟩
  · have hprev : t.previous s.fresh = s.pollCtx := by simp [State.previous, hself, x]
    rw [hprev]
    refine hs.chain.congr fun d hd => ?_
    rw [State.previous, hother d (hne d hd), State.previous]
  · rw [mem_cons]
    by_cases hc : c = s.fresh
    · exact iff_of_true (.inl hc) ⟨x, hc ▸ hself⟩
    · rw [hother c hc, ← hs.mem]
      exact or_iff_right hc
  · show c < s.fresh + 1 ↔ c ∈ s.fresh :: l ∨ c ∈ s.freed
    rw [hlt, hs.fresh, mem_cons, or_assoc]
  · rw [mem_cons, not_or]
    exact ⟨fun e => hnf (e ▸ hc), hs.freed c hc⟩
  · have hpc : s.pc.ctx ≠ some s.fresh := fun h => hnl (hs.calling _ h)
    by_cases hc : c = s.fresh
    · subst hc
      rw [hself] at hz
      cases hz
      rw [Waits, if_neg hpc]
      exact .inl ⟨rfl, rfl⟩
    · rw [hother c hc] at hz
      exact hs.waits c z hz
  · exact mem_cons_of_mem _ (hs.calling c hc)
  · intro e
    exact absurd (hs.known c hc) (by rw [← Option.some.inj e]; exact Nat.lt_irrefl _)
  · rcases mem_cons.1 hc with h | h
    · exact .inr ⟨rfl, by rw [h]⟩
    · exact (hs.ended c h).imp_right fun h => absurd h.1 ha
  · exact Nat.lt_succ_of_lt (hs.known c hc)
  · rw [ho] at hc
    cases hc
  · rw [hs.pending, ho]
    simp

theorem Contexts.endPeriod (hs : Contexts s l) (ha : s.active = true) :
    Contexts { s with active := false, ended := s.ended ++ s.period.toList } l := by
  obtain ⟨c, x, hp, -, hx, -⟩ := hs.current ha
  refine { hs with current := nofun, open_ := nofun, ended := fun d hd => ?_, known := fun d hd => ?_ }
  · rcases hs.ended d hd with h | ⟨-, h⟩
    · exact .inl (mem_append_left _ h)
    · left
      simp [h]
  · rcases mem_append.1 hd with h | h
    · exact hs.known d h
    · rw [hp, Option.toList_some, mem_singleton] at h
      rw [h]
      exact (hs.fresh c).2 (.inl ((hs.mem c).2 ⟨x, hx⟩))

theorem Contexts.stop (hs : Contexts s l) : ∃ t, s.stop = some t ∧ Contexts t l ∧ t.active = false ∧
    t.closing = s.closing ∧ t.closePending = s.closePending ∧ t.pollCtx = s.pollCtx ∧ t.pc = s.pc ∧ t.late = s.late ∧
    ∀ c x, t.ctxs c = some x → x.timer.isActive = true → s.ctxs c = some x ∧ (s.active = true → s.period ≠ some c) := by
  by_cases ha : s.active = false
  · refine ⟨s, ?_, hs, ha, rfl, rfl, rfl, rfl, rfl, fun _ _ hx _ => ⟨hx, fun h => absurd h (by rw [ha]; nofun)⟩⟩
    rw [State.stop, if_pos ha]
  simp only [Bool.not_eq_false] at ha
  obtain ⟨d, x, hp, hh, hx, ht⟩ := hs.current ha
  have hrun : s.stop = (if x.timer.isActive then s.closeTimer d else some s).bind fun s =>
      some { s with active := false, ended := s.ended ++ s.period.toList } := by
    rw [State.stop, if_neg (by rw [ha]; nofun), hh]
    simp only [hx, Option.bind_eq_bind, Option.bind_some]
    split
    · rfl
    · rfl
  rw [hrun]
  have hoff := hs.endPeriod ha
  by_cases hact : x.timer.isActive = true
  · have hw : Waits s.pc d { x with timer := .closing } := by
      have := hs.waits d x hx
      unfold Waits at this ⊢
      by_cases hpc : s.pc.ctx = some d
      · rw [if_pos hpc] at this
        rw [this.2] at hact
        cases hact
      · rw [if_neg hpc] at this ⊢
        rcases this with ⟨-, h⟩ | ⟨h, -⟩
        · rw [h] at hact
          cases hact
        · exact .inr ⟨h, nofun⟩
    have hput := hoff.put (y := { x with timer := .closing }) hx rfl s.pc s.late hw (fun _ _ => .rfl) nofun
    rw [if_pos hact]
    simp only [State.closeTimer, hx, Option.bind_eq_bind, Option.bind_some, if_neg ht]
    refine ⟨_, rfl, hput, rfl, rfl, rfl, rfl, rfl, rfl, fun c z hz hact => ?_⟩
    by_cases hcd : c = d
    · subst hcd
      have := hz.symm.trans put_ctxs_self
      cases this
      cases hact
    · refine ⟨(put_ctxs_other hcd).symm.trans hz, fun _ h => hcd ?_⟩
      rw [hp] at h
      exact (Option.some.inj h).symm
  · rw [if_neg hact]
    refine ⟨_, rfl, hoff, rfl, rfl, rfl, rfl, rfl, rfl, fun c z hz hz' => ⟨hz, fun _ h => ?_⟩⟩
    rw [hp] at h
    cases h
    rw [show s.ctxs d = some z from hz] at hx
    cases hx
    exact hact hz'

theorem Inv.stop (hs : Inv s l) : ∃ t, s.stop = some t ∧ Inv t l ∧ t.active = false := by
  obtain ⟨t, ht, hc, h1, h2, h3, -⟩ := hs.toContexts.stop
  exact ⟨t, ht, ⟨hc, fun _ => h1, by rw [h3, hs.pending, h2]⟩, h1⟩

theorem Contexts.nil_iff (hs : Contexts s l) : s.pollCtx = none ↔ l = [] := by
  rw [hs.chain.head]
  cases l <;> simp

theorem Inv.close (hs : Inv s l) (ho : s.closing = false) : ∃ t, s.close = some t ∧ Inv t l ∧ t.closing = true := by
  have hc : Contexts { s with closing := true } l := { hs.toContexts with }
  obtain ⟨u, hu, hcu, h1, h2, h3, h4, -⟩ := hc.stop
  have hp : u.closePending = 0 := by
    rw [h3]
    show s.closePending = 0
    rw [hs.pending, ho]
    rfl
  rw [State.close, ho, hu]
  simp only [Option.bind_eq_bind, Option.bind_some]
  by_cases hn : u.pollCtx = none
  · rw [if_pos hn, State.makeClosePending, if_pos h2]
    refine ⟨_, rfl, ⟨{ hcu with }, fun _ => h1, ?_⟩, h2⟩
    show u.closePending + 1 = _
    rw [hp, if_pos ⟨h2, hcu.nil_iff.1 hn⟩]
  · rw [if_neg hn]
    refine ⟨u, rfl, ⟨hcu, fun _ => h1, ?_⟩, h2⟩
    rw [hp, if_neg fun h => hn (hcu.nil_iff.2 h.2)]

theorem waits_idle {pc : Pc} (hpc : pc.ctx = none) : Waits pc c x ↔
    (x.stat = true ∧ x.timer = .inactive ∨ x.stat = false ∧ x.timer ≠ .inactive) := by
  rw [Waits, if_neg (by rw [hpc]; nofun)]

theorem waits_settled {p : Pc} (hpc : p.ctx = none) (hs : y.stat = false) (ho : Off s → y.timer = .closing)
    (hn : ¬ Off s → y.timer.isActive = true) : Waits p c y ∧ (s.active = true → s.closing = false → y.timer ≠ .closing) := by
  refine ⟨(waits_idle hpc).2 (.inr ⟨hs, fun hi => ?_⟩), fun ha hc ht => ?_⟩
  · by_cases h : Off s
    · rw [ho h] at hi
      cases hi
    · have := hn h
      rw [hi] at this
      cases this
  · have hoff : ¬ Off s := by simp [Off, ha, hc]
    have := hn hoff
    rw [ht] at this
    cases this

theorem Inv.open_of_active (hs : Inv s l) (ha : s.active = true) : s.closing = false := by
  cases hc : s.closing with
  | false => rfl
  | true =>
    rw [hs.closed hc] at ha
    cases ha

theorem Contexts.timer_inactive (hs : Contexts s l) (hpc : s.pc = .idle) (hx : s.ctxs c = some x) (hst : x.stat = true) :
    x.timer = .inactive := by
  rcases (waits_idle (by rw [hpc]; rfl)).1 (hs.waits c x hx) with h | h
  · exact h.2
  · rw [hst] at h
    cases h.1

theorem Inv.pollCb (hs : Inv s l) (hpc : s.pc = .idle) (hx : s.ctxs c = some x) (hst : x.stat = true) (result : ℤ)
    (statbuf : Stat) : ∃ t, s.pollCb c result statbuf = some t ∧ Inv t l := by
  have hctx : s.pc.ctx = none := by rw [hpc]; rfl
  have hti := hs.toContexts.timer_inactive hpc hx hst
  obtain ⟨y, hp, hys, ⟨he, h1, h2⟩ | ⟨hn, he, ht⟩⟩ := pollCb_spec hx hti result statbuf
  · obtain ⟨hw, hc⟩ := waits_settled (c := c) hctx hys h1 h2
    exact ⟨_, he, hs.put hx hp s.pc s.late hw (fun _ _ => .rfl) fun ha => hc ha (hs.open_of_active ha)⟩
  · refine ⟨_, he, hs.put hx hp (.callback c result statbuf) _ ?_ (fun d hd => ?_) fun _ => by rw [ht]; nofun⟩
    · have hself : (Pc.callback c result statbuf).ctx = some c := rfl
      rw [Waits, if_pos hself]
      exact ⟨hys, ht⟩
    · rw [hctx]
      exact iff_of_false (fun e => hd (Option.some.inj e).symm) nofun

theorem Inv.returned (hs : Inv s l) {result : ℤ} {statbuf : Stat} (hpc : s.pc = .callback c result statbuf) :
    ∃ t, s.returned c result statbuf = some t ∧ Inv t l := by
  have hctx : s.pc.ctx = some c := by rw [hpc]; rfl
  obtain ⟨x, hx⟩ := (hs.mem c).1 (hs.calling c hctx)
  have hw := hs.waits c x hx
  rw [Waits, if_pos hctx] at hw
  obtain ⟨y, hp, hys, he, h1, h2⟩ := returned_spec hx hw.2 hw.1 result statbuf
  obtain ⟨hw, hc⟩ := waits_settled (c := c) (p := .idle) rfl hys h1 h2
  refine ⟨_, he, hs.put hx hp .idle s.late hw (fun d hd => ?_) fun ha => hc ha (hs.open_of_active ha)⟩
  rw [hctx]
  exact iff_of_false nofun fun e => hd (Option.some.inj e).symm

theorem Inv.timerCb (hs : Inv s l) (hpc : s.pc = .idle) (hx : s.ctxs c = some x) :
    (s.pollCtx = some c → ∃ t, s.timerCb c = some t ∧ Inv t l) ∧ (s.pollCtx ≠ some c → s.timerCb c = none) := by
  have hctx : s.pc.ctx = none := by rw [hpc]; rfl
  simp only [State.timerCb, hx, Option.bind_eq_bind, Option.bind_some]
  refine ⟨fun h => ?_, fun h => if_neg h⟩
  rw [if_pos h]
  refine ⟨_, rfl, hs.put (y := { x with timer := .inactive, startTime := s.now, stat := true }) hx rfl s.pc s.late ?_
    (fun _ _ => .rfl) fun _ => nofun⟩
  exact (waits_idle hctx).2 (.inl ⟨rfl, rfl⟩)

theorem Contexts.remove (hs : Contexts s l) (hc : c ∈ l) (hpc : s.pc.ctx = none) {l' : List ℕ}
    (hch : Chain t.previous t.pollCtx l') (hnd : l'.Nodup) (hl : ∀ d, d ∈ l' ↔ d ∈ l ∧ d ≠ c)
    (hself : t.ctxs c = none) (hto : ∀ d, d ≠ c → ∀ y, t.ctxs d = some y → ∃ x, s.ctxs d = some x ∧ y.stat = x.stat ∧ y.timer = x.timer)
    (hfrom : ∀ d, d ≠ c → ∀ x, s.ctxs d = some x → ∃ y, t.ctxs d = some y ∧ y.timer = x.timer)
    (hfr : t.fresh = s.fresh) (hfd : t.freed = s.freed ++ [c]) (hpc' : t.pc = s.pc) (ha : t.active = s.active)
    (hpd : t.period = s.period) (hen : t.ended = s.ended)
    (hhead : s.active = true → t.pollCtx = s.pollCtx ∧ s.pollCtx ≠ some c) : Contexts t l' := by
  have hcf : c ∉ s.freed := fun h => hs.freed c h hc
  refine ⟨hch, hnd, fun d => ?_, fun d => ?_, fun d hd => ?_, ?_, fun d y hy => ?_, fun d hd => ?_, fun h => ?_, fun h d hd => ?_,
    fun d hd => ?_, fun d hd => ?_⟩
  · rw [hl, hs.mem]
    constructor
    · intro ⟨⟨x, hx⟩, hd⟩
      obtain ⟨y, hy, -⟩ := hfrom d hd x hx
      exact ⟨y, hy⟩
    · intro ⟨y, hy⟩
      have hd : d ≠ c := by
        intro e
        rw [e, hself] at hy
        cases hy
      obtain ⟨x, hx, -⟩ := hto d hd y hy
      exact ⟨⟨x, hx⟩, hd⟩
  · rw [hfr, hs.fresh, hfd, hl]
    by_cases hd : d = c
    · subst hd
      simp [hc]
    · simp [hd]
  · rw [hfd] at hd
    rw [hl]
    rcases mem_append.1 hd with h | h
    · exact fun hn => hs.freed d h hn.1
    · exact fun hn => hn.2 (mem_singleton.1 h)
  · rw [hfd]
    exact nodup_append.2 ⟨hs.once, nodup_singleton c, fun a h b hb e => hcf (mem_singleton.1 hb ▸ e ▸ h)⟩
  · have hd : d ≠ c := by
      intro e
      rw [e, hself] at hy
      cases hy
    obtain ⟨x, hx, h1, h2⟩ := hto d hd y hy
    have := hs.waits d x hx
    unfold Waits at this ⊢
    rwa [hpc', h1, h2]
  · rw [hpc', hpc] at hd
    cases hd
  · rw [ha] at h
    obtain ⟨d, x, h1, h2, h3, h4⟩ := hs.current h
    obtain ⟨hp, hne⟩ := hhead h
    have hd : d ≠ c := by
      intro e
      rw [h2, e] at hne
      exact hne rfl
    obtain ⟨y, hy, h5⟩ := hfrom d hd x h3
    exact ⟨d, y, hpd.trans h1, hp.trans h2, hy, by rwa [h5]⟩
  · rw [ha] at h
    rw [hpd]
    exact hs.open_ h d (hen ▸ hd)
  · rw [hen, ha, hpd]
    exact hs.ended d ((hl d).1 hd).1
  · rw [hfr]
    exact hs.known d (hen ▸ hd)

theorem Contexts.length_le (hs : Contexts s l) : l.length ≤ s.fresh := by
  have hsub : l ⊆ List.range s.fresh := fun c hc => mem_range.2 ((hs.fresh c).2 (.inl hc))
  have := (subperm_of_subset hs.nodup hsub).length_le
  rwa [length_range] at this

theorem Inv.timerCloseCb (hs : Inv s l) (hpc : s.pc = .idle) (hx : s.ctxs c = some x) (ht : x.timer = .closing) :
    ∃ t l', s.timerCloseCb c = some t ∧ Inv t l' := by
  have hctx : s.pc.ctx = none := by rw [hpc]; rfl
  have hc : c ∈ l := (hs.mem c).2 ⟨x, hx⟩
  have hprev : s.previous c = x.previous := by rw [State.previous, hx]; rfl
  have hhead : s.active = true → s.pollCtx ≠ some c := by
    intro ha h
    obtain ⟨d, y, -, h2, h3, h4⟩ := hs.current ha
    rw [h2] at h
    cases h
    rw [hx] at h3
    cases h3
    exact h4 ht
  simp only [State.timerCloseCb, hx, Option.bind_eq_bind, Option.bind_some]
  by_cases hp : s.pollCtx = some c
  · obtain ⟨l, rfl⟩ : ∃ k, l = c :: k := by
      cases l with
      | nil => cases hc
      | cons a k =>
        have := hs.chain.1
        rw [hp] at this
        cases this
        exact ⟨k, rfl⟩
    obtain ⟨hcl, hnd⟩ := nodup_cons.1 hs.nodup
    have hoff : s.active = false := by
      cases ha : s.active with
      | false => rfl
      | true => exact absurd hp (hhead ha)
    have hcont : ∀ n, Contexts { s with
        ctxs := update s.ctxs c none
        freed := s.freed ++ [c]
        pollCtx := x.previous
        closePending := n } l := by
      intro n
      refine hs.toContexts.remove hc hctx ?_ hnd (fun d => ?_) (update_self ..) (fun d hd y hy => ?_) (fun d hd y hy => ?_)
        rfl rfl rfl rfl rfl rfl fun ha => ?_
      · rw [← hprev]
        refine hs.chain.2.congr fun d hd => ?_
        have hne : d ≠ c := fun e => hcl (e ▸ hd)
        simp [State.previous, hne]
      · by_cases hd : d = c
        · subst hd
          simp [hcl]
        · simp [hd]
      · exact ⟨y, by simpa [hd] using hy, rfl, rfl⟩
      · exact ⟨y, by simpa [hd] using hy, rfl⟩
      · rw [hoff] at ha
        cases ha
    have hnil : x.previous = none ↔ l = [] := (hcont 0).nil_iff
    rw [State.unlink, if_pos hp]
    have hzero : s.closePending = 0 := by
      rw [hs.pending, if_neg (by simp)]
    by_cases hlast : x.previous = none ∧ s.closing = true
    · rw [if_pos hlast, State.makeClosePending, if_pos hlast.2]
      refine ⟨_, l, rfl, hcont _, hs.closed, ?_⟩
      show s.closePending + 1 = _
      rw [hzero, if_pos ⟨hlast.2, hnil.1 hlast.1⟩]
    · rw [if_neg hlast]
      refine ⟨_, l, rfl, hcont _, hs.closed, ?_⟩
      show s.closePending = _
      rw [hzero, if_neg fun h => hlast ⟨hnil.2 h.2, h.1⟩]
  · cases l with
    | nil => cases hc
    | cons a k =>
      have ha : s.pollCtx = some a := hs.chain.1
      have hck : c ∈ k := by
        rcases mem_cons.1 hc with rfl | h
        · exact absurd ha hp
        · exact h
      have hlen : k.length ≤ s.fresh := (Nat.le_succ _).trans hs.toContexts.length_le
      obtain ⟨l₁, b, l₂, hl, hb⟩ := hs.chain.2.predecessor hck hlen
      have hnd : (l₁ ++ b :: c :: l₂).Nodup := hl ▸ hs.nodup
      obtain ⟨y, hy⟩ := (hs.mem b).1 (by rw [hl]; simp)
      rw [State.unlink, if_neg hp, ha]
      simp only [Option.bind_eq_bind, Option.bind_some, hb, hy]
      have hmem : ∀ d, d ∈ l₁ ++ b :: l₂ ↔ d ∈ a :: k ∧ d ≠ c := by
        have hcn : c ∉ l₁ ++ b :: l₂ := by
          have := nodup_middle.1 (show ((l₁ ++ [b]) ++ c :: l₂).Nodup by simpa using hnd)
          simpa using (nodup_cons.1 this).1
        intro d
        rw [hl]
        by_cases hd : d = c
        · subst hd
          simpa using hcn
        · simp [hd]
      refine ⟨_, l₁ ++ b :: l₂, rfl, hs.toContexts.remove hc hctx ?_ ?_ hmem (update_self ..) (fun d hd z hz => ?_)
        (fun d hd z hz => ?_) rfl rfl rfl rfl rfl rfl fun h => ⟨rfl, hhead h⟩, hs.closed, ?_⟩
      · refine (Chain.unlink (hl ▸ hs.chain) hnd).congr fun d hd => ?_
        have hdc := ((hmem d).1 hd).2
        by_cases hdb : d = b
        · subst hdb
          simp [State.previous, State.put, hdc, hx]
        · simp [State.previous, State.put, hdc, hdb]
      · exact hnd.sublist (by simp)
      · by_cases hdb : d = b
        · subst hdb
          obtain rfl : { y with previous := x.previous } = z := by simpa [State.put, hd] using hz
          exact ⟨y, hy, rfl, rfl⟩
        · exact ⟨z, by simpa [State.put, hd, hdb] using hz, rfl, rfl⟩
      · by_cases hdb : d = b
        · subst hdb
          rw [hy] at hz
          cases hz
          exact ⟨{ y with previous := x.previous }, by simp [State.put, hd], rfl⟩
        · exact ⟨z, by simpa [State.put, hd, hdb] using hz, rfl⟩
      · rw [show (s.put b { y with previous := x.previous }).closePending = s.closePending from rfl, hs.pending]
        simp

theorem Inv.updateTime (hs : Inv s l) (now : ℕ) : Inv { s with now := now } l := { hs with }

/-- What a step of `timer_cb` needs, the only one that may have no result. -/
def Handled (s : State) : Label → Prop
  | .timer c => s.pollCtx = some c
  | _ => True

theorem Inv.step (hs : Inv s l) {lab : Label} (he : enabled s lab) :
    (Handled s lab → ∃ t, step s lab = some t) ∧ ∀ t, FsPoll.step s lab = some t → ∃ l', Inv t l' := by
  have hall : ∀ {o : Option State}, (∃ t, o = some t ∧ ∃ l', Inv t l') → (Handled s lab → ∃ t, o = some t) ∧
      ∀ t, o = some t → ∃ l', Inv t l' := by
    intro o ⟨t, ht, hi⟩
    refine ⟨fun _ => ⟨t, ht⟩, fun u hu => ?_⟩
    rw [ht] at hu
    cases hu
    exact hi
  cases lab with
  | start mem ok interval =>
    have ho : s.closing = false := by simpa [enabled] using he
    exact hall ⟨_, rfl, hs.start ho mem ok interval⟩
  | stop =>
    obtain ⟨t, ht, hi, -⟩ := hs.stop
    exact hall ⟨t, ht, l, hi⟩
  | close =>
    obtain ⟨t, ht, hi, -⟩ := hs.close (by simpa [enabled] using he)
    exact hall ⟨t, ht, l, hi⟩
  | stat c result statbuf =>
    obtain ⟨hpc, x, hx, hst⟩ : s.pc = .idle ∧ ∃ x, s.ctxs c = some x ∧ x.stat = true := by
      simpa [enabled, Option.any_eq_true] using he
    obtain ⟨t, ht, hi⟩ := hs.pollCb hpc hx hst result statbuf
    exact hall ⟨t, ht, l, hi⟩
  | timer c =>
    obtain ⟨hpc, x, hx, -⟩ : s.pc = .idle ∧ ∃ x, s.ctxs c = some x ∧ x.timer.isActive = true := by
      simpa [enabled, Option.any_eq_true] using he
    obtain ⟨h1, h2⟩ := hs.timerCb hpc hx
    refine ⟨fun h => ?_, fun t ht => ?_⟩
    · obtain ⟨t, ht, -⟩ := h1 h
      exact ⟨t, ht⟩
    · by_cases hp : s.pollCtx = some c
      · obtain ⟨u, hu, hi⟩ := h1 hp
        rw [FsPoll.step, hu] at ht
        cases ht
        exact ⟨l, hi⟩
      · rw [FsPoll.step, h2 hp] at ht
        cases ht
  | timerClosed c =>
    obtain ⟨hpc, x, hx, hc⟩ : s.pc = .idle ∧ ∃ x, s.ctxs c = some x ∧ x.timer = .closing := by
      simpa [enabled, Option.any_eq_true] using he
    obtain ⟨t, l', ht, hi⟩ := hs.timerCloseCb hpc hx hc
    exact hall ⟨t, ht, l', hi⟩
  | ret =>
    cases hpc : s.pc with
    | idle => simp [enabled, hpc] at he
    | callback c result statbuf =>
      obtain ⟨t, ht, hi⟩ := hs.returned hpc
      exact hall ⟨t, by rw [FsPoll.step, hpc]; exact ht, l, hi⟩
  | updateTime now => exact hall ⟨_, rfl, l, hs.updateTime now⟩

theorem inv_inductive : system.Inductive fun s => ∃ l, Inv s l where
  init := by
    intro s hs
    obtain ⟨now, rfl⟩ := hs
    exact ⟨[], .initial now⟩
  step := by
    intro s lab t ⟨l, hs⟩ hst
    exact (hs.step hst.1).2 t hst.2

end Libuv.L2.FsPoll
