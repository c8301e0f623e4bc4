import Libuv.L1Data.HeapRun
import Libuv.L2Loop.Handle

/-!
# Timers (`timer.c`)

`libuv/src/timer.c` over the heap of `heap-inl.h`. A timer is the fields of `uv_timer_t`
that the file reads; its heap node is the node of the same name in the memory of the heap.
A callback is known by a number, `NULL` is `none`, and while it runs the loop's `pc` is
`callback`: the operations performed there are steps of their own, so a callback can be
any sequence of them. `next` is one round of the loop in `uv__run_timers`. Time is
`uint64_t`; a step returns `none` where it is not allowed or where the heap code runs into
`NULL`.

`Timers` is the state without the heap, and `Timers.After` says what a step does to it
when "the least active timer" is read for "the top of the heap".
-/
namespace Libuv.L2.Timer
open Libuv.TreeHeap Libuv.L1.HeapInl Libuv.L2.Handle Option Function

variable {α : Type*} [DecidableEq α]

/-- `uint64_t` -/
def u64 : ℕ := 2 ^ 64

/-- mirrors libuv/include/uv/errno.h `UV_EINVAL` -/
def einval : ℤ := -22

/-- `startTime` and `delay` are ghosts: the loop time and the timeout the timer was last
started with.
mirrors libuv/include/uv/unix.h:346-351 -/
structure UvTimer where
  flags : Flags
  timerCb : Option ℕ
  timeout : ℕ
  repeat_ : ℕ
  startId : ℕ
  startTime : ℕ
  delay : ℕ
  deriving DecidableEq

/-- Outside `uv__run_timers`, at the head of its loop, in the callback of a timer. -/
inductive Pc (α : Type*) where
  | idle
  | scanning
  | callback (x : α)
  deriving DecidableEq

/-- A call of a timer's callback: the timer as it was taken from the heap, and the loop time. -/
structure Fired (α : Type*) where
  timer : α
  was : UvTimer
  time : ℕ
  deriving DecidableEq

/-- The loop without its heap. `fired` are the callbacks of the last pass, `known` the
timers that are initialised and not closed, `initial` those that were when the pass began. -/
@[ext] structure Timers (α : Type*) where
  timers : α → UvTimer
  time : ℕ
  timerCounter : ℕ
  activeHandles : ℕ
  pc : Pc α
  fired : List (Fired α)
  known : List α
  initial : List α

structure Loop (α : Type*) extends Timers α where
  heap : Heap α

/-- mirrors timer.c:40-57 -/
def timerLessThan (a b : UvTimer) : Bool :=
  if a.timeout < b.timeout then true
  else if b.timeout < a.timeout then false
  else decide (a.startId < b.startId)

def Timers.lessThan (s : Timers α) (x y : α) : Bool := timerLessThan (s.timers x) (s.timers y)

/-- `*x = t` -/
def Timers.put (s : Timers α) (x : α) (t : UvTimer) : Timers α :=
  { s with timers := Function.update s.timers x t }

/-- `loop->time + timeout`, saturated.
mirrors timer.c:89-91 -/
def clamp (time timeout : ℕ) : ℕ :=
  let clamped := (time + timeout) % u64
  if clamped < timeout then u64 - 1 else clamped

/-! ## The source -/

section Source
variable (s : Loop α) (x : α)

/-- mirrors timer.c:61-69 -/
def uvTimerInit : Loop α :=
  { s with
    toTimers := s.put x { s.timers x with flags := handleInit, timerCb := none, timeout := 0, repeat_ := 0 } }

/-- mirrors timer.c:112-125 -/
def uvTimerStop : Option (Loop α) :=
  if (s.timers x).flags.active = false then some s
  else
    (heapRemove s.lessThan s.heap (some x)).bind fun heap =>
      let (flags, n) := handleStop (s.timers x).flags s.activeHandles
      some { toTimers := { s.put x { s.timers x with flags := flags } with activeHandles := n }, heap := heap }

/-- mirrors timer.c:73-109 -/
def uvTimerStart (cb : Option ℕ) (timeout repeat_ : ℕ) : Option (ℤ × Loop α) :=
  if (s.timers x).flags.isClosing || cb.isNone then some (einval, s)
  else
    (if (s.timers x).flags.active then uvTimerStop s x else some s).bind fun s =>
      let t := { s.timers x with
        timerCb := cb, timeout := clamp s.time timeout, repeat_ := repeat_, startId := s.timerCounter
        startTime := s.time, delay := timeout }
      let s := { s with toTimers := { s.put x t with timerCounter := (s.timerCounter + 1) % u64 } }
      (heapInsert s.lessThan s.heap x).bind fun heap =>
        let (flags, n) := handleStart t.flags s.activeHandles
        some (0, { toTimers := { s.put x { t with flags := flags } with activeHandles := n }, heap := heap })

/-- mirrors timer.c:128-140 -/
def uvTimerAgain : Option (ℤ × Loop α) :=
  match (s.timers x).timerCb with
  | none => some (einval, s)
  | some cb =>
    if (s.timers x).repeat_ ≠ 0 then
      (uvTimerStop s x).bind fun s =>
        (uvTimerStart s x (some cb) (s.timers x).repeat_ (s.timers x).repeat_).bind fun r => some (0, r.2)
    else some (0, s)

/-- mirrors timer.c:142-144 -/
def uvTimerSetRepeat (repeat_ : ℕ) : Loop α :=
  { s with toTimers := s.put x { s.timers x with repeat_ := repeat_ } }

/-- `uv_close` of a timer, up to `uv__make_close_pending`.
mirrors unix/core.c:114-118,157-159 and libuv/src/timer.c:205-207 -/
def uvClose : Option (Loop α) :=
  uvTimerStop
    { s with toTimers := s.put x { s.timers x with flags := { (s.timers x).flags with closing := true } } } x

/-- mirrors unix/core.c:249-290 -/
def uvFinishClose : Loop α :=
  let (flags, n) := finishClose (s.timers x).flags s.activeHandles
  { s with toTimers := { s.put x { s.timers x with flags := flags } with activeHandles := n } }

/-- One round of the loop, up to the call of `timer_cb`.
mirrors timer.c:185-201 -/
def uvRunTimers : Option (Loop α) :=
  match heapMin s.heap with
  | none => some { s with pc := .idle }
  | some x =>
    if s.time < (s.timers x).timeout then some { s with pc := .idle }
    else
      (uvTimerStop s x).bind fun u =>
        (uvTimerAgain u x).bind fun r =>
          match (r.2.timers x).timerCb with
          | none => none
          | some _ => some { r.2 with pc := .callback x, fired := s.fired ++ [⟨x, s.timers x, s.time⟩] }

end Source

inductive Label (α : Type*) where
  | init (x : α)
  | start (x : α) (cb : Option ℕ) (timeout repeat_ : ℕ)
  | stop (x : α)
  | again (x : α)
  | setRepeat (x : α) (repeat_ : ℕ)
  | close (x : α)
  | finishClose (x : α)
  | updateTime (t : ℕ)
  | run
  | next
  | ret
  deriving DecidableEq

/-- What the caller promises: the handle is initialised, `uv_close` is called once, the
operations come from outside the pass or from a callback, time does not go back. -/
def Timers.Allowed (s : Timers α) : Label α → Prop
  | .init x => s.pc ≠ .scanning ∧ x ∉ s.known
  | .start x _ timeout repeat_ => s.pc ≠ .scanning ∧ x ∈ s.known ∧ timeout < u64 ∧ repeat_ < u64
  | .stop x | .again x => s.pc ≠ .scanning ∧ x ∈ s.known
  | .setRepeat x repeat_ => s.pc ≠ .scanning ∧ x ∈ s.known ∧ repeat_ < u64
  | .close x => s.pc ≠ .scanning ∧ x ∈ s.known ∧ (s.timers x).flags.isClosing = false
  | .finishClose x => s.pc = .idle ∧ x ∈ s.known ∧ (s.timers x).flags.closing = true
  | .updateTime t => s.pc ≠ .scanning ∧ s.time ≤ t ∧ t < u64
  | .run => s.pc = .idle
  | .next => s.pc = .scanning
  | .ret => s.pc ≠ .idle ∧ s.pc ≠ .scanning

instance (s : Timers α) (l : Label α) : Decidable (s.Allowed l) := by
  cases l <;> unfold Timers.Allowed <;> infer_instance

def Loop.perform (s : Loop α) : Label α → Option (Loop α)
  | .init x => some { uvTimerInit s x with known := s.known ++ [x] }
  | .start x cb timeout repeat_ => (uvTimerStart s x cb timeout repeat_).map Prod.snd
  | .stop x => uvTimerStop s x
  | .again x => (uvTimerAgain s x).map Prod.snd
  | .setRepeat x repeat_ => some (uvTimerSetRepeat s x repeat_)
  | .close x => uvClose s x
  | .finishClose x => some { uvFinishClose s x with known := s.known.filter (· ≠ x) }
  | .updateTime t => some { s with time := t }
  | .run => some { s with pc := .scanning, fired := [], initial := s.known }
  | .next => uvRunTimers s
  | .ret => some { s with pc := .scanning }

def step (s : Loop α) (l : Label α) : Option (Loop α) := if s.Allowed l then s.perform l else none

/-- Memory that no timer was made of yet counts as inactive. -/
def Timers.Start (s : Timers α) : Prop :=
  (∀ x, (s.timers x).flags.active = false) ∧ s.time < u64 ∧ s.timerCounter = 0 ∧ s.pc = .idle ∧
    s.fired = [] ∧ s.known = [] ∧ s.initial = []

def system (α : Type*) [DecidableEq α] : LTS (Loop α) (Label α) where
  init s := s.Start ∧ ∃ mem, s.heap = heapInit mem
  step s l t := step s l = some t

/-! ## The timers without the heap -/

namespace Timers
variable (s : Timers α) (x : α)

def stop : Timers α :=
  let (flags, n) := handleStop (s.timers x).flags s.activeHandles
  { s.put x { s.timers x with flags := flags } with activeHandles := n }

/-- `uv_timer_start` has set the fields and comes to the heap. -/
def entered (cb timeout repeat_ : ℕ) : Timers α :=
  { s.put x { s.timers x with
      timerCb := some cb, timeout := clamp s.time timeout, repeat_ := repeat_, startId := s.timerCounter
      startTime := s.time, delay := timeout } with
    timerCounter := (s.timerCounter + 1) % u64 }

/-- A start that takes effect, of a timer that is stopped. -/
def begin_ (cb : ℕ) (timeout repeat_ : ℕ) : Timers α :=
  let (flags, n) := handleStart (s.timers x).flags s.activeHandles
  { s.put x { s.timers x with
      flags := flags, timerCb := some cb, timeout := clamp s.time timeout, repeat_ := repeat_
      startId := s.timerCounter, startTime := s.time, delay := timeout } with
    timerCounter := (s.timerCounter + 1) % u64, activeHandles := n }

def start (cb : Option ℕ) (timeout repeat_ : ℕ) : Timers α :=
  match cb with
  | none => s
  | some cb => if (s.timers x).flags.isClosing then s else (s.stop x).begin_ x cb timeout repeat_

def again : Timers α :=
  if (s.timers x).timerCb.isSome ∧ (s.timers x).repeat_ ≠ 0 then
    (s.stop x).start x (s.timers x).timerCb (s.timers x).repeat_ (s.timers x).repeat_
  else s

def close : Timers α :=
  (s.put x { s.timers x with flags := { (s.timers x).flags with closing := true } }).stop x

def finishClose : Timers α :=
  let (flags, n) := Handle.finishClose (s.timers x).flags s.activeHandles
  { s.put x { s.timers x with flags := flags } with activeHandles := n, known := s.known.filter (· ≠ x) }

/-- The callback of `x` is called. -/
def fire : Timers α :=
  { (s.stop x).again x with pc := .callback x, fired := s.fired ++ [⟨x, s.timers x, s.time⟩] }

/-- `x` is the active timer that is due first. -/
def Least : Prop :=
  (s.timers x).flags.active = true ∧ ∀ y, (s.timers y).flags.active = true → s.lessThan y x = false

/-- What a round of `uv__run_timers` does. -/
inductive Round : Timers α → Prop
  | empty : (∀ x, (s.timers x).flags.active = false) → Round { s with pc := .idle }
  | early {x : α} : s.Least x → s.time < (s.timers x).timeout → Round { s with pc := .idle }
  | due {x : α} : s.Least x → (s.timers x).timeout ≤ s.time → Round (s.fire x)

def After (l : Label α) (u : Timers α) : Prop :=
  match l with
  | .init x => u = { s.put x { s.timers x with
      flags := handleInit, timerCb := none, timeout := 0, repeat_ := 0 } with known := s.known ++ [x] }
  | .start x cb timeout repeat_ => u = s.start x cb timeout repeat_
  | .stop x => u = s.stop x
  | .again x => u = s.again x
  | .setRepeat x repeat_ => u = s.put x { s.timers x with repeat_ := repeat_ }
  | .close x => u = s.close x
  | .finishClose x => u = s.finishClose x
  | .updateTime t => u = { s with time := t }
  | .run => u = { s with pc := .scanning, fired := [], initial := s.known }
  | .next => s.Round u
  | .ret => u = { s with pc := .scanning }

end Timers

/-- The timers of a loop as a system of their own. -/
def timerSet (α : Type*) [DecidableEq α] : LTS (Timers α) (Label α) where
  init := Timers.Start
  step s l u := s.Allowed l ∧ s.After l u

@[simp] theorem Timers.put_self (s : Timers α) (x : α) (t : UvTimer) : (s.put x t).timers x = t :=
  update_self ..

theorem Timers.put_other (s : Timers α) {x y : α} (t : UvTimer) (h : y ≠ x) : (s.put x t).timers y = s.timers y :=
  update_of_ne h ..

@[simp] theorem Timers.stop_self (s : Timers α) (x : α) :
    (s.stop x).timers x = { s.timers x with flags := (handleStop (s.timers x).flags s.activeHandles).1 } :=
  update_self ..

theorem Timers.stop_other (s : Timers α) {x y : α} (h : y ≠ x) : (s.stop x).timers y = s.timers y :=
  update_of_ne h ..

theorem Timers.stop_inactive (s : Timers α) {x : α} (h : (s.timers x).flags.active = false) : s.stop x = s := by
  unfold Timers.stop Timers.put handleStop
  rw [if_pos h]
  simp

theorem uvTimerStop_inactive (s : Loop α) {x : α} (h : (s.timers x).flags.active = false) : uvTimerStop s x = some s :=
  if_pos h

theorem uvTimerStart_open (s : Loop α) {x : α} (h : (s.timers x).flags.isClosing = false) (cb timeout repeat_ : ℕ) :
    uvTimerStart s x (some cb) timeout repeat_ = (uvTimerStop s x).bind fun u =>
      (heapInsert (u.entered x cb timeout repeat_).lessThan u.heap x).bind fun heap =>
        some (0, { toTimers := u.begin_ x cb timeout repeat_, heap := heap }) := by
  have hstop : (if (s.timers x).flags.active = true then uvTimerStop s x else some s) = uvTimerStop s x := by
    unfold uvTimerStop
    split <;> simp_all
  unfold uvTimerStart
  rw [hstop, if_neg (by simp [h])]
  simp [Timers.entered, Timers.begin_, Timers.put]

theorem Timers.start_open (s : Timers α) {x : α} (h : (s.timers x).flags.isClosing = false) (cb timeout repeat_ : ℕ) :
    s.start x (some cb) timeout repeat_ = (s.stop x).begin_ x cb timeout repeat_ :=
  if_neg (by simp [h])

/-! ## The heap holds the active timers -/

omit [DecidableEq α] in
theorem lessThan_strictWeakOrder (s : Timers α) : StrictWeakOrder s.lessThan := by
  constructor
  all_goals
    intros
    simp only [Timers.lessThan, timerLessThan] at *
    grind

/-- The heap holds exactly the active timers, in their order, and each has a callback. -/
structure Loop.Ok (s : Loop α) : Prop where
  heap : ∃ l, HeapAt s.lessThan l s.heap ∧ ∀ x, Has l x ↔ (s.timers x).flags.active = true
  callable : ∀ x, (s.timers x).flags.active = true → (s.timers x).timerCb.isSome = true

theorem again_callable {s : Timers α} {x : α} (h : (s.timers x).timerCb.isSome = true) :
    ((s.again x).timers x).timerCb.isSome = true := by
  unfold Timers.again
  split
  · obtain ⟨cb, hcb⟩ := isSome_iff_exists.1 h
    unfold Timers.start
    rw [hcb]
    dsimp only
    split <;> simp [Timers.stop, Timers.begin_, Timers.put, h]
  · exact h

theorem room_stop {n n' : UInt32} {a : Bool} (h : n'.toNat + (if a then 1 else 0) = n.toNat)
    (hn : a = false → n.toNat + 1 < 2 ^ 32) : n'.toNat + 1 < 2 ^ 32 := by
  have hlt := n.toNat_lt
  cases a with
  | false =>
    rw [if_neg Bool.false_ne_true, Nat.add_zero] at h
    exact h ▸ hn rfl
  | true =>
    rw [if_pos rfl] at h
    omega

namespace Loop.Ok
variable {s : Loop α} (hs : s.Ok)
include hs

omit [DecidableEq α] in
theorem keep {u : Timers α} (ha : ∀ y, (u.timers y).flags.active = (s.timers y).flags.active)
    (hk : ∀ y, (s.timers y).flags.active = true → (u.timers y).timeout = (s.timers y).timeout ∧
      (u.timers y).startId = (s.timers y).startId ∧ (u.timers y).timerCb = (s.timers y).timerCb) :
    Loop.Ok { toTimers := u, heap := s.heap } := by
  obtain ⟨l, hl, hx⟩ := hs.heap
  refine ⟨⟨l, hl.congr fun x y h1 h2 => ?_, fun x => by rw [hx, ha]⟩, fun x h => ?_⟩
  · obtain ⟨e1, e2, _⟩ := hk x ((hx x).1 h1)
    obtain ⟨e3, e4, _⟩ := hk y ((hx y).1 h2)
    simp [Timers.lessThan, timerLessThan, e1, e2, e3, e4]
  · rw [ha] at h
    rw [(hk x h).2.2]
    exact hs.callable x h

theorem stop (x : α) : ∃ h, uvTimerStop s x = some { toTimers := s.stop x, heap := h } ∧
    Loop.Ok { toTimers := s.stop x, heap := h } ∧
    h.nelts.toNat + (if (s.timers x).flags.active then 1 else 0) = s.heap.nelts.toNat := by
  have hother : ∀ y, y ≠ x → (s.stop x).timers y = s.timers y := fun y hy => update_of_ne hy _ _
  unfold uvTimerStop
  split
  · next ha =>
    have hsame : s.stop x = s.toTimers := by simp [Timers.stop, Timers.put, handleStop, ha]
    rw [hsame]
    exact ⟨s.heap, rfl, hs, by simp [ha]⟩
  · next ha =>
    have ha : (s.timers x).flags.active = true := by simpa using ha
    obtain ⟨l, hl, hx⟩ := hs.heap
    obtain ⟨l', h, he, hl', hn, hx'⟩ := remove_spec (lessThan_strictWeakOrder _) hl ((hx x).2 ha)
    rw [he]
    refine ⟨h, rfl, ⟨⟨l', hl'.congr fun y z hy hz => ?_, fun y => ?_⟩, fun y hy => ?_⟩, by simpa [ha] using hn⟩
    · simp [Timers.lessThan, hother y ((hx' y).1 hy).2, hother z ((hx' z).1 hz).2]
    · by_cases e : y = x
      · subst e
        simp [hx', Timers.stop, Timers.put]
      · rw [hx', hx, hother y e]
        simp [e]
    · by_cases e : y = x
      · subst e
        simp [Timers.stop, Timers.put] at hy
      · rw [hother y e] at hy ⊢
        exact hs.callable y hy

theorem insert {x : α} (ha : (s.timers x).flags.active = false) (hn : s.heap.nelts.toNat + 1 < 2 ^ 32)
    {u v : Timers α} (hu : ∀ y, y ≠ x → u.timers y = s.timers y) (hv : ∀ y, y ≠ x → v.timers y = s.timers y)
    (hk : v.lessThan = u.lessThan) (hx : (v.timers x).flags.active = true) (hc : (v.timers x).timerCb.isSome = true) :
    ∃ h, heapInsert u.lessThan s.heap x = some h ∧ Loop.Ok { toTimers := v, heap := h } := by
  obtain ⟨l, hl, hm⟩ := hs.heap
  have hnot : ¬ Has l x := by simp [hm, ha]
  have hne : ∀ y, Has l y → y ≠ x := fun y hy e => hnot (e ▸ hy)
  have hl : HeapAt u.lessThan l s.heap := hl.congr fun y z hy hz => by
    simp [Timers.lessThan, hu y (hne y hy), hu z (hne z hz)]
  obtain ⟨l', h, he, hl', -, hm'⟩ := insert_spec (lessThan_strictWeakOrder u) hl hnot hn
  refine ⟨h, he, ⟨l', ?_, fun y => ?_⟩, fun y hy => ?_⟩
  · rw [hk]
    exact hl'
  · by_cases e : y = x
    · subst e
      simp [hm', hx]
    · rw [hm', hm, hv y e]
      simp [e]
  · by_cases e : y = x
    · subst e
      exact hc
    · rw [hv y e] at hy ⊢
      exact hs.callable y hy

theorem start (x : α) (cb : Option ℕ) (timeout repeat_ : ℕ)
    (hn : (s.timers x).flags.active = false → s.heap.nelts.toNat + 1 < 2 ^ 32) :
    ∃ r h, uvTimerStart s x cb timeout repeat_ = some (r, { toTimers := s.start x cb timeout repeat_, heap := h }) ∧
      Loop.Ok { toTimers := s.start x cb timeout repeat_, heap := h } := by
  cases cb with
  | none => exact ⟨einval, s.heap, by simp [uvTimerStart, Timers.start], hs⟩
  | some cb =>
    cases hc : (s.timers x).flags.isClosing with
    | true => exact ⟨einval, s.heap, by simp [uvTimerStart, Timers.start, hc], by simpa [Timers.start, hc] using hs⟩
    | false =>
      obtain ⟨h, he, hs', hn'⟩ := hs.stop x
      rw [uvTimerStart_open s hc, Timers.start_open _ hc, he, bind_some]
      have ha : ((s.stop x).timers x).flags.active = false := by simp
      generalize s.stop x = u at hs' ha
      obtain ⟨h', he', hs''⟩ := hs'.insert ha (room_stop hn' hn) (u := u.entered x cb timeout repeat_)
        (v := u.begin_ x cb timeout repeat_) (fun y hy => update_of_ne hy _ _)
        (fun y hy => update_of_ne hy _ _)
        (by
          funext y z
          by_cases hy : y = x <;> by_cases hz : z = x <;>
            simp [Timers.lessThan, timerLessThan, Timers.begin_, Timers.entered, Timers.put, Function.update, hy, hz])
        (by simp [Timers.begin_, Timers.put]) (by simp [Timers.begin_, Timers.put])
      exact ⟨0, h', by rw [he', bind_some], hs''⟩

theorem again (x : α) (hn : (s.timers x).flags.active = false → s.heap.nelts.toNat + 1 < 2 ^ 32) :
    ∃ r h, uvTimerAgain s x = some (r, { toTimers := s.again x, heap := h }) ∧
      Loop.Ok { toTimers := s.again x, heap := h } := by
  unfold uvTimerAgain Timers.again
  cases hc : (s.timers x).timerCb with
  | none => exact ⟨einval, s.heap, by simp, by simpa using hs⟩
  | some cb =>
    simp only [isSome_some, true_and]
    split
    · obtain ⟨h, he, hs', hn'⟩ := hs.stop x
      have hroom := room_stop hn' hn
      have hr : ((s.stop x).timers x).repeat_ = (s.timers x).repeat_ := by simp [Timers.stop, Timers.put]
      obtain ⟨r, h', he', hs''⟩ := hs'.start x (some cb) (s.timers x).repeat_ (s.timers x).repeat_ fun _ => hroom
      refine ⟨0, h', ?_, hs''⟩
      rw [he, bind_some]
      rw [hr, he', bind_some]
    · exact ⟨_, s.heap, rfl, hs⟩

omit [DecidableEq α] in
theorem none_active (h : heapMin s.heap = none) (x : α) : (s.timers x).flags.active = false := by
  obtain ⟨l, hl, hx⟩ := hs.heap
  have h1 : l 1 = none := hl.lays.root.symm.trans h
  cases ha : (s.timers x).flags.active with
  | false => rfl
  | true =>
    obtain ⟨i, hi⟩ := (hx x).2 ha
    have hir := hl.complete.range hi
    obtain ⟨y, hy⟩ := hl.complete.get (i := 1) (by omega) (by omega)
    rw [h1] at hy
    cases hy

omit [DecidableEq α] in
theorem least {x : α} (h : heapMin s.heap = some x) : s.Least x := by
  obtain ⟨l, hl, hx⟩ := hs.heap
  have h1 : l 1 = some x := hl.lays.root.symm.trans h
  refine ⟨(hx x).1 ⟨1, h1⟩, fun y hy => ?_⟩
  obtain ⟨i, hi⟩ := (hx y).2 hy
  exact hl.ordered.root_min (lessThan_strictWeakOrder _) hl.complete h1 i y hi

theorem round : ∃ t, uvRunTimers s = some t ∧ s.Round t.toTimers ∧ t.Ok := by
  have hidle : Loop.Ok { s with pc := .idle } := hs.keep (fun _ => rfl) fun _ _ => ⟨rfl, rfl, rfl⟩
  unfold uvRunTimers
  cases hm : heapMin s.heap with
  | none => exact ⟨_, rfl, .empty (hs.none_active hm), hidle⟩
  | some x =>
    have hleast := hs.least hm
    dsimp only
    split
    · next hlt => exact ⟨_, rfl, .early hleast hlt, hidle⟩
    · next hge =>
      obtain ⟨h, he, hs', hn⟩ := hs.stop x
      obtain ⟨r, h', he', hs''⟩ := hs'.again x fun _ => room_stop hn fun hf => by simp [hleast.1] at hf
      have hcb : (((s.stop x).again x).timers x).timerCb.isSome = true := by
        have h0 := hs.callable x hleast.1
        have h1 : ((s.stop x).timers x).timerCb.isSome = true := by simpa [Timers.stop, Timers.put] using h0
        exact again_callable h1
      obtain ⟨cb, hcb⟩ := isSome_iff_exists.1 hcb
      rw [he, bind_some, he', bind_some]
      rw [hcb]
      exact ⟨_, rfl, .due hleast (by omega), hs''.keep (fun _ => rfl) fun _ _ => ⟨rfl, rfl, rfl⟩⟩

end Loop.Ok

/-- Fewer than 2^32 - 1 nodes are in the heap when another one comes in. -/
def Loop.HeapRoom (s : Loop α) : Label α → Prop
  | .start x _ _ _ | .again x => (s.timers x).flags.active = false → s.heap.nelts.toNat + 1 < 2 ^ 32
  | _ => True

/-- **One step.** Every allowed step for which the heap has room returns, and does to the
timers what it should. -/
theorem step_spec {s : Loop α} {l : Label α} (hs : s.Ok) (hlive : ∀ x, (s.timers x).flags.active = true → x ∈ s.known)
    (ha : s.Allowed l) (hr : s.HeapRoom l) : ∃ t, step s l = some t ∧ s.After l t.toTimers ∧ t.Ok := by
  unfold step
  rw [if_pos ha]
  cases l with
  | init x =>
    have hx : (s.timers x).flags.active = false := by
      simpa using fun h => ha.2 (hlive x h)
    refine ⟨_, rfl, rfl, hs.keep (fun y => ?_) fun y hy => ?_⟩
    · by_cases e : y = x
      · subst e
        simp [uvTimerInit, Timers.put, handleInit, hx]
      · simp [uvTimerInit, Timers.put, e]
    · have e : y ≠ x := fun e => by simp [e, hx] at hy
      simp [uvTimerInit, Timers.put, e]
  | start x cb timeout repeat_ =>
    obtain ⟨r, h, he, ht⟩ := hs.start x cb timeout repeat_ hr
    exact ⟨_, congrArg (Option.map Prod.snd) he, rfl, ht⟩
  | stop x =>
    obtain ⟨h, he, ht, -⟩ := hs.stop x
    exact ⟨_, he, rfl, ht⟩
  | again x =>
    obtain ⟨r, h, he, ht⟩ := hs.again x hr
    exact ⟨_, congrArg (Option.map Prod.snd) he, rfl, ht⟩
  | setRepeat x repeat_ =>
    refine ⟨_, rfl, rfl, hs.keep (fun y => ?_) fun y _ => ?_⟩ <;>
      by_cases e : y = x <;> simp [Timers.put, Function.update, e]
  | close x =>
    have hc : Loop.Ok { s with
        toTimers := s.put x { s.timers x with flags := { (s.timers x).flags with closing := true } } } := by
      refine hs.keep (fun y => ?_) fun y _ => ?_ <;>
        by_cases e : y = x <;> simp [Timers.put, Function.update, e]
    obtain ⟨h, he, ht, -⟩ := hc.stop x
    exact ⟨_, he, rfl, ht⟩
  | finishClose x =>
    refine ⟨_, rfl, rfl, hs.keep (fun y => ?_) fun y _ => ?_⟩ <;>
      by_cases e : y = x <;> simp [uvFinishClose, Timers.put, Function.update, e]
  | updateTime t | run => exact ⟨_, rfl, rfl, hs.keep (fun _ => rfl) fun _ _ => ⟨rfl, rfl, rfl⟩⟩
  | next => exact hs.round
  | ret => exact ⟨_, rfl, rfl, hs.keep (fun _ => rfl) fun _ _ => ⟨rfl, rfl, rfl⟩⟩

end Libuv.L2.Timer
