import Libuv.L2Loop.IoWatcher

/-!
# The timeout of `uv__io_poll` (`epoll.c`)

`libuv/src/unix/epoll.c:207-437`, the loop around `epoll_wait`, for one call with the timeout `T`. `IoWatcher` has what comes
before it (the registration) and what the events do to the watchers; here an event is what the round for it finds. After each
wait the loop's clock may have moved by any amount.

`base` is the loop's time at entry and never moves, so `real_timeout -= (loop->time - base)` takes the time since the entry off
again at every wake-up.

* `ioPoll_due_iff`: a call in which nothing is delivered returns in time if and only if the times since the entry, at the
  wake-ups before `T`, add up to less than `T`.
* `ioPoll_interrupted`: two signals are enough to return early.
-/
namespace Libuv.L2.PollTimeout
open IoWatcher (Mask)

/-! ## The source -/

def maxSafeTimeout : ℤ := 1789569

/-- An entry of the array at its turn: its descriptor is -1 by now, `loop->watchers[fd]` is `NULL`, or it is a watcher. -/
inductive Fired
  | invalidated
  | unwatched
  | watched (events pevents : Mask) (signal : Bool)
  deriving DecidableEq

/-- What `epoll_wait` or `epoll_pwait` gives back; `failed` is any other error. -/
inductive Answer
  | enosys
  | eintr
  | failed
  | ready (events : List Fired)
  deriving DecidableEq

/-- A wait, and how far `uv__update_time` moves the clock after it. -/
structure Wait where
  answer : Answer
  ticks : ℕ
  deriving DecidableEq

/-- `sizeof(int32_t) == sizeof(long)`, `UV_METRICS_IDLE_TIME` and `UV_LOOP_BLOCK_SIGPROF`. -/
structure Config where
  long32 : Bool
  idleTime : Bool
  blockSigprof : Bool
  deriving DecidableEq

/-- The variables of `uv__io_poll`, `loop->time`, and whether a callback has run. -/
structure Frame where
  time : ℕ
  timeout : ℤ
  realTimeout : ℤ
  userTimeout : ℤ
  resetTimeout : Bool
  count : ℕ
  noEpollPwait : Bool
  noEpollWait : Bool
  delivered : Bool
  deriving DecidableEq

/-- How the call ends: `aborted` by `abort` or a failed `assert`. -/
inductive End
  | returned
  | aborted
  deriving DecidableEq

/-- mirrors unix/epoll.c:207-222 -/
def enter (c : Config) (noEpollPwait noEpollWait : Bool) (time : ℕ) (timeout : ℤ) : Frame :=
  { time := time
    timeout := if c.idleTime then 0 else timeout
    realTimeout := timeout
    userTimeout := if c.idleTime then timeout else 0
    resetTimeout := c.idleTime
    count := 48
    noEpollPwait := noEpollPwait
    noEpollWait := noEpollWait
    delivered := false }

namespace Frame
variable (c : Config) (base : ℕ) (s : Frame)

def reset : Frame := if s.resetTimeout then { s with timeout := s.userTimeout, resetTimeout := false } else s

/-- `update_timeout`; the subtraction is made in 64 bits and stored in an `int`.
mirrors unix/epoll.c:427-435 -/
def updateTimeout : Frame × Option End :=
  if s.timeout ≤ 0 then (s, some .aborted)
  else
    let realTimeout := Int.bmod (s.realTimeout - ((s.time : ℤ) - base)) 4294967296
    if realTimeout ≤ 0 then ({ s with realTimeout := realTimeout }, some .returned)
    else ({ s with realTimeout := realTimeout, timeout := realTimeout }, none)

def again : Frame × Option End :=
  if s.timeout = -1 then (s, none) else if s.timeout = 0 then (s, some .returned) else s.updateTimeout base

def usesPwait : Bool := s.noEpollWait || c.blockSigprof && !s.noEpollPwait

/-- mirrors unix/epoll.c:231-232 -/
def capped : Frame := if c.long32 ∧ maxSafeTimeout ≤ s.timeout then { s with timeout := maxSafeTimeout } else s

end Frame

/-- Whether the round for an event calls back, or leaves that to the end of the batch.
mirrors unix/epoll.c:328-395 -/
def Fired.delivers : Fired → Bool
  | .invalidated | .unwatched => false
  | .watched events pevents _ => decide (IoWatcher.Loop.deliverable events pevents ≠ 0)

def Fired.signals : Fired → Bool
  | .watched events pevents signal => signal && (Fired.watched events pevents signal).delivers
  | _ => false

/-- mirrors unix/epoll.c:311-422 -/
def ready (base : ℕ) (events : List Fired) (s : Frame) : Frame × Option End :=
  let s := s.reset
  if events.any Fired.signals then ({ s with delivered := true }, some .returned)
  else if events.any Fired.delivers then
    if events.length = 1024 then
      if s.count - 1 = 0 then ({ s with count := s.count - 1, delivered := true }, some .returned)
      else ({ s with count := s.count - 1, delivered := true, timeout := 0 }, none)
    else ({ s with delivered := true }, some .returned)
  else s.again base

/-- mirrors unix/epoll.c:227-436 -/
def round (c : Config) (base : ℕ) (w : Wait) (s : Frame) : Frame × Option End :=
  let s := s.capped c
  let p := s.usesPwait c
  let s := { s with time := s.time + w.ticks }
  match w.answer with
  | .ready [] => if s.timeout = -1 then (s, some .aborted) else s.reset.again base
  | .ready events => ready base events s
  | .enosys =>
    let s := { s with noEpollPwait := s.noEpollPwait || p, noEpollWait := s.noEpollWait || !p }
    if s.noEpollWait && s.noEpollPwait then (s, some .aborted) else (s, none)
  | .eintr => s.reset.again base
  | .failed => (s, some .aborted)

def run (c : Config) (base : ℕ) : List Wait → Frame → Frame × Option End
  | [], s => (s, none)
  | w :: ws, s =>
    match round c base w s with
    | (s, none) => run c base ws s
    | r => r

/-- The call from `loop->time = base` on.
mirrors unix/epoll.c:207-437 -/
def ioPoll (c : Config) (noEpollPwait noEpollWait : Bool) (base : ℕ) (timeout : ℤ) (ws : List Wait) : Frame × Option End :=
  run c base ws (enter c noEpollPwait noEpollWait base timeout)

/-! ## Waits that deliver nothing -/

namespace Answer

/-- A signal, nothing, or events for nobody; or the kernel lacks the call. -/
def Quiet : Answer → Prop
  | .enosys | .eintr => True
  | .failed => False
  | .ready events => ∀ e ∈ events, e.delivers = false

def isEnosys : Answer → Bool
  | .enosys => true
  | _ => false

end Answer

/-- The times since the entry at which the waits end, those left out for which the kernel lacks the call. -/
def wakeups : ℕ → List Wait → List ℕ
  | _, [] => []
  | e, w :: ws => if w.answer.isEnosys then wakeups (e + w.ticks) ws else (e + w.ticks) :: wakeups (e + w.ticks) ws

/-- The kernel has one of the two calls: the ones that are known or turn out to be missing are not both. -/
def OneCall (noEpollPwait noEpollWait : Bool) (ws : List Wait) : Prop :=
  noEpollPwait.toNat + noEpollWait.toNat + ws.countP (fun w => w.answer.isEnosys) ≤ 1

/-- A call that returns with nothing delivered does so when the clock has reached `T` from the entry on. -/
def Due (c : Config) (noEpollPwait noEpollWait : Bool) (base T : ℕ) (ws : List Wait) : Prop :=
  ∀ s, ioPoll c noEpollPwait noEpollWait base T ws = (s, some .returned) → s.delivered = false → base + T ≤ s.time

/-- At each wake-up before `T` the times at the wake-ups so far add up to less than `T`. -/
def Spared (T : ℕ) (es : List ℕ) : Prop := ∀ k (h : k < es.length), es[k] < T → (es.take (k + 1)).sum < T

/-! ## One round -/

/-- Before `T`, after wake-ups whose times add up to `total`; `m` of the two calls are known to be missing. -/
structure Waiting (base T e total m : ℕ) (s : Frame) : Prop where
  time : s.time = base + e
  real : s.realTimeout = (T : ℤ) - total
  left : total < T
  timeout : s.resetTimeout = false ∧ 0 < s.timeout ∨ s.resetTimeout = true ∧ s.timeout = 0 ∧ 0 < s.userTimeout
  delivered : s.delivered = false
  calls : s.noEpollPwait.toNat + s.noEpollWait.toNat = m

/-- How a round ends whose wait ends at `e` and delivers nothing. -/
def Outcome (base T e total m : ℕ) (r : Frame × Option End) : Prop :=
  (r.2 = none ∧ total + e < T ∧ Waiting base T e (total + e) m r.1) ∨
    (r.2 = some .returned ∧ T ≤ total + e ∧ r.1.time = base + e ∧ r.1.delivered = false)

section Round
variable {c : Config} {base T e total m : ℕ} {s : Frame}

theorem Waiting.capped (h : Waiting base T e total m s) : Waiting base T e total m (s.capped c) := by
  unfold Frame.capped
  split
  · next hc =>
    unfold maxSafeTimeout at hc
    obtain ⟨hr, -⟩ | ⟨-, h0, -⟩ := h.timeout
    · exact ⟨h.time, h.real, h.left, Or.inl ⟨hr, by exact (by decide : 0 < maxSafeTimeout)⟩, h.delivered, h.calls⟩
    · omega
  · exact h

theorem Waiting.timeout_ne (h : Waiting base T e total m s) : s.timeout ≠ -1 := by
  have := h.timeout
  omega

theorem Waiting.reset (h : Waiting base T e total m s) :
    Waiting base T e total m s.reset ∧ s.reset.resetTimeout = false := by
  unfold Frame.reset
  split
  · next hr => exact ⟨⟨h.time, h.real, h.left, .inl ⟨rfl, (h.timeout.resolve_left (by simp [hr])).2.2⟩, h.delivered, h.calls⟩, rfl⟩
  · next hr => exact ⟨h, by simpa using hr⟩

theorem Waiting.tick (h : Waiting base T e total m s) (n : ℕ) :
    Waiting base T (e + n) total m { s with time := s.time + n } :=
  ⟨by rw [h.time, Nat.add_assoc], h.real, h.left, h.timeout, h.delivered, h.calls⟩

theorem again_spec (h : Waiting base T e total m s) (hr : s.resetTimeout = false) (he : e < T) (hT : T < 2147483648) :
    Outcome base T e total m (s.again base) := by
  have ht : 0 < s.timeout := by
    have := h.timeout
    simp only [hr, true_and] at this
    exact this.resolve_right (by simp)
  have hl := h.left
  have hreal : Int.bmod (s.realTimeout - ((s.time : ℤ) - base)) 4294967296 = (T : ℤ) - (total + e : ℕ) := by
    rw [h.real, h.time, Int.bmod_eq_of_le] <;> push_cast <;> omega
  unfold Frame.again Frame.updateTimeout
  rw [if_neg (by omega), if_neg (by omega), if_neg (by omega)]
  simp only [hreal]
  by_cases hd : total + e < T
  · rw [if_neg (by omega)]
    exact .inl ⟨rfl, hd, ⟨h.time, rfl, hd, .inl ⟨hr, by dsimp only; omega⟩, h.delivered, h.calls⟩⟩
  · rw [if_pos (by omega)]
    exact .inr ⟨rfl, by omega, h.time, h.delivered⟩

theorem ready_quiet {events : List Fired} (hq : ∀ e ∈ events, e.delivers = false) (s : Frame) :
    ready base events s = s.reset.again base := by
  have hd : events.any Fired.delivers = false := List.any_eq_false.2 fun e he => by simp [hq e he]
  have hs : events.any Fired.signals = false := List.any_eq_false.2 fun e he => by
    cases e <;> simp_all [Fired.signals]
  unfold ready
  simp [hd, hs]

theorem round_quiet {w : Wait} (h : Waiting base T e total m s) (hT : T < 2147483648) (hq : w.answer.Quiet)
    (hn : w.answer.isEnosys = false) (he : e + w.ticks < T) :
    Outcome base T (e + w.ticks) total m (round c base w s) := by
  have hw := (h.capped (c := c)).tick w.ticks
  have hagain := again_spec hw.reset.1 hw.reset.2 he hT
  unfold round
  split
  · rw [if_neg hw.timeout_ne]
    exact hagain
  · next ha =>
    rw [ha] at hq
    rw [ready_quiet hq]
    exact hagain
  · next ha => rw [ha] at hn; cases hn
  · exact hagain
  · next ha => rw [ha] at hq; exact hq.elim

theorem round_enosys {w : Wait} (h : Waiting base T e total 0 s) (ha : w.answer.isEnosys = true) :
    (round c base w s).2 = none ∧ Waiting base T (e + w.ticks) total 1 (round c base w s).1 := by
  have hw := (h.capped (c := c)).tick w.ticks
  have hc := h.capped (c := c) |>.calls
  have hp : (s.capped c).noEpollPwait = false := Bool.toNat_eq_zero.1 (by omega)
  have hn : (s.capped c).noEpollWait = false := Bool.toNat_eq_zero.1 (by omega)
  unfold round
  split
  case h_3 =>
    simp only [hp, hn, Bool.false_or, Bool.not_and_self, Bool.false_eq_true, if_false]
    refine ⟨trivial, hw.time, hw.real, hw.left, hw.timeout, hw.delivered, ?_⟩
    cases (s.capped c).usesPwait c <;> rfl
  all_goals
    next ha' =>
      rw [ha'] at ha
      cases ha

theorem round_time (c : Config) (base : ℕ) (w : Wait) (s : Frame) : (round c base w s).1.time = s.time + w.ticks := by
  have hcap : (s.capped c).time = s.time := by
    unfold Frame.capped
    split <;> rfl
  have hreset : ∀ s : Frame, s.reset.time = s.time := fun s => by
    unfold Frame.reset
    split <;> rfl
  have hagain : ∀ s : Frame, (s.again base).1.time = s.time := fun s => by
    unfold Frame.again Frame.updateTimeout
    dsimp only
    split_ifs <;> rfl
  unfold round
  dsimp only
  split
  · split_ifs <;> simp [hcap, hreset, hagain]
  · unfold ready
    dsimp only
    split_ifs <;> simp [hcap, hreset, hagain]
  · split_ifs <;> simp [hcap]
  · simp [hcap, hreset, hagain]
  · simp [hcap]

end Round

/-! ## The call -/

section Run
variable {c : Config} {base T e total m : ℕ} {s s' : Frame} {w : Wait} {ws : List Wait}

theorem run_of_none (h : (round c base w s).2 = none) : run c base (w :: ws) s = run c base ws (round c base w s).1 := by
  conv_lhs => unfold run
  split
  · next h' => rw [h']
  · next h' => exact (h' _ (Prod.ext rfl h)).elim

theorem run_of_some {r : End} (h : (round c base w s).2 = some r) : run c base (w :: ws) s = round c base w s := by
  unfold run
  split
  · next h' => rw [h'] at h; cases h
  · rfl

theorem le_run_time (c : Config) (base : ℕ) (ws : List Wait) (s : Frame) : s.time ≤ (run c base ws s).1.time := by
  induction ws generalizing s with
  | nil => exact Nat.le_refl _
  | cons w ws ih =>
    have hround := round_time c base w s
    cases h : (round c base w s).2 with
    | none =>
      rw [run_of_none h]
      exact (by omega : s.time ≤ (round c base w s).1.time).trans (ih _)
    | some r =>
      rw [run_of_some h, hround]
      exact Nat.le_add_right _ _

theorem le_wakeups {k : ℕ} (hk : k < (wakeups e ws).length) : e ≤ (wakeups e ws)[k] := by
  induction ws generalizing e k with
  | nil => cases hk
  | cons w ws ih =>
    simp only [wakeups] at hk ⊢
    split at hk
    · next h =>
      simp only [if_pos h]
      exact (Nat.le_add_right e w.ticks).trans (ih hk)
    · next h =>
      simp only [if_neg h]
      cases k with
      | zero => exact Nat.le_add_right _ _
      | succ k => exact (Nat.le_add_right e w.ticks).trans (ih (by simpa using hk))

/-- `Spared` with what the wake-ups before have added up to. -/
def SparedFrom (T total : ℕ) (es : List ℕ) : Prop := ∀ k (h : k < es.length), es[k] < T → total + (es.take (k + 1)).sum < T

theorem sparedFrom_cons {es : List ℕ} (he : e < T) :
    SparedFrom T total (e :: es) ↔ total + e < T ∧ SparedFrom T (total + e) es := by
  refine ⟨fun h => ⟨by simpa using h 0 (by simp) he, fun k hk hlt => ?_⟩, fun h k hk hlt => ?_⟩
  · have := h (k + 1) (by simpa using hk) hlt
    rwa [List.take_succ_cons, List.sum_cons, ← Nat.add_assoc] at this
  · cases k with
    | zero => simpa using h.1
    | succ k =>
      rw [List.take_succ_cons, List.sum_cons, ← Nat.add_assoc]
      exact h.2 k (by simpa using hk) hlt

theorem sparedFrom_late (he : T ≤ e) : SparedFrom T total (wakeups e ws) := fun _ hk hlt =>
  absurd hlt (Nat.not_lt.2 (he.trans (le_wakeups hk)))

/-- Once the clock is at `T` a return is in time; before that a wake-up that delivers nothing ends the call or not as
`Outcome` says. -/
theorem run_due_iff (h : Waiting base T e total m s) (hT : T < 2147483648) (hq : ∀ w ∈ ws, w.answer.Quiet)
    (hm : m + ws.countP (fun w => w.answer.isEnosys) ≤ 1) :
    (∀ t, run c base ws s = (t, some .returned) → t.delivered = false → base + T ≤ t.time) ↔
      SparedFrom T total (wakeups e ws) := by
  induction ws generalizing e total m s with
  | nil => exact ⟨fun _ _ hk => absurd hk (Nat.not_lt_zero _), fun _ _ h => by cases h⟩
  | cons w ws ih =>
    have hqs := fun w' hw' => hq w' (List.mem_cons_of_mem w hw')
    have hwq := hq w List.mem_cons_self
    rw [List.countP_cons] at hm
    by_cases hlate : T ≤ e + w.ticks
    · -- whatever the round does, the clock is past `T`
      have hdue : base + T ≤ (run c base (w :: ws) s).1.time := by
        have htime := round_time c base w s
        have hstart := h.time
        cases hr : (round c base w s).2 with
        | none =>
          rw [run_of_none hr]
          exact (by omega : base + T ≤ (round c base w s).1.time).trans (le_run_time c base ws _)
        | some r =>
          rw [run_of_some hr]
          omega
      refine ⟨fun _ => ?_, fun _ t ht _ => by rwa [ht] at hdue⟩
      unfold wakeups
      split
      · exact sparedFrom_late hlate
      · exact fun k hk hlt => absurd hlt (Nat.not_lt.2 (by
          cases k with
          | zero => exact hlate
          | succ k => exact hlate.trans (le_wakeups (by simpa using hk))))
    · cases hn : w.answer.isEnosys with
      | true =>
        obtain rfl : m = 0 := by simp only [hn, if_true] at hm; omega
        obtain ⟨hnone, hw⟩ := round_enosys (c := c) h hn
        rw [run_of_none hnone, wakeups, if_pos hn]
        exact ih hw hqs (by simp only [hn, if_true] at hm; omega)
      | false =>
        have hm' : m + ws.countP (fun w => w.answer.isEnosys) ≤ 1 := by simpa [hn] using hm
        rw [wakeups, if_neg (by simp [hn]), sparedFrom_cons (by omega)]
        obtain ⟨hnone, hlt, hw⟩ | ⟨hret, hle, htime, hdel⟩ := round_quiet (c := c) h hT hwq hn (by omega)
        · rw [run_of_none hnone, ih hw hqs hm']
          exact ⟨fun hs => ⟨hlt, hs⟩, And.right⟩
        · rw [run_of_some hret]
          refine ⟨fun hdue => ?_, fun hs => absurd hs.1 (by omega)⟩
          have := hdue (round c base w s).1 (Prod.ext rfl hret) hdel
          omega

end Run

theorem enter_waiting (c : Config) (noEpollPwait noEpollWait : Bool) {base T : ℕ} (hT : 0 < T) :
    Waiting base T 0 0 (noEpollPwait.toNat + noEpollWait.toNat) (enter c noEpollPwait noEpollWait base T) := by
  refine ⟨rfl, by simp [enter], hT, ?_, rfl, rfl⟩
  unfold enter
  cases c.idleTime
  · exact .inl ⟨rfl, by simpa using hT⟩
  · exact .inr ⟨rfl, rfl, by simpa using hT⟩

/-- A call with a timeout of `T > 0` in which nothing is delivered never returns before `T` has passed exactly when the times
of the wake-ups before `T`, each from the entry on, add up to less than `T`. -/
theorem ioPoll_due_iff (c : Config) {noEpollPwait noEpollWait : Bool} (base : ℕ) {T : ℕ} (hT : 0 < T) (hmax : T < 2147483648)
    {ws : List Wait} (hq : ∀ w ∈ ws, w.answer.Quiet) (hk : OneCall noEpollPwait noEpollWait ws) :
    Due c noEpollPwait noEpollWait base T ws ↔ Spared T (wakeups 0 ws) := by
  unfold Due ioPoll
  rw [run_due_iff (enter_waiting c noEpollPwait noEpollWait hT) hmax hq hk]
  unfold SparedFrom Spared
  simp

/-- A wait of 100 ms that signals interrupt after 40 and after 70 ms. -/
theorem ioPoll_interrupted :
    ∃ ws, (∀ w ∈ ws, w.answer.Quiet) ∧ OneCall false false ws ∧ ¬ Due ⟨false, false, false⟩ false false 0 100 ws :=
  ⟨[⟨.eintr, 40⟩, ⟨.eintr, 30⟩], by simp [Answer.Quiet], by unfold OneCall; decide, fun h =>
    absurd (h _ rfl rfl) (by decide)⟩

theorem ioPoll_due_once : Spared 100 (wakeups 0 [⟨.eintr, 40⟩, ⟨.ready [], 60⟩]) :=
  (ioPoll_due_iff ⟨false, true, false⟩ 0 (by decide) (by decide) (by simp [Answer.Quiet])
    (by unfold OneCall; decide : OneCall false false [⟨.eintr, 40⟩, ⟨.ready [], 60⟩])).1
    (fun t ht _ => by cases ht; decide)

end Libuv.L2.PollTimeout
