import Libuv.L2Loop.Timer

/-!
# Timers over whole runs

* `run_timers`: while no more than 2^32 - 1 timers are active and `timer_counter` does not
  wrap, the heap holds exactly the active timers, a callback is only run when its timer is
  due, the timers of one pass fire in strictly increasing order of timeout and start id,
  and no active timer is due when a pass ends.
* `run_timers_bounded`: a pass whose callbacks make no timer due that fired in it or was
  initialised in it runs each callback at most once and ends.
-/
namespace Libuv.L2.Timer
open Libuv.TreeHeap Libuv.L1.HeapInl Libuv.L2.Handle List Function

variable {α : Type*} [DecidableEq α]

/-! ## What an operation does to the active timers -/

structure Same (t t' : UvTimer) : Prop where
  active : t.flags.active = true
  closing : t'.flags.isClosing = t.flags.isClosing
  timeout : t'.timeout = t.timeout
  startId : t'.startId = t.startId
  startTime : t'.startTime = t.startTime
  delay : t'.delay = t.delay

theorem Same.trans {t t' t'' : UvTimer} (h : Same t t') (h' : Same t' t'') : Same t t'' :=
  ⟨h.active, h'.closing.trans h.closing, h'.timeout.trans h.timeout, h'.startId.trans h.startId,
    h'.startTime.trans h.startTime, h'.delay.trans h.delay⟩

structure Frame (s u : Timers α) : Prop where
  time : u.time = s.time
  pc : u.pc = s.pc
  fired : u.fired = s.fired
  initial : u.initial = s.initial

structure Calm (s u : Timers α) : Prop extends Frame s u where
  counter : u.timerCounter = s.timerCounter
  kept : ∀ y, (u.timers y).flags.active = true → Same (s.timers y) (u.timers y)

/-- The timer `x` was started, due `delay` from now. -/
structure Begun (s u : Timers α) (x : α) (delay : ℕ) : Prop extends Frame s u where
  counter : u.timerCounter = (s.timerCounter + 1) % u64
  was : (s.timers x).flags.isClosing = false
  closing : (u.timers x).flags.isClosing = false
  timeout : (u.timers x).timeout = clamp s.time delay
  startId : (u.timers x).startId = s.timerCounter
  startTime : (u.timers x).startTime = s.time
  delay : (u.timers x).delay = delay
  kept : ∀ y, y ≠ x → (u.timers y).flags.active = true → Same (s.timers y) (u.timers y)

omit [DecidableEq α] in
theorem Calm.refl (s : Timers α) : Calm s s := ⟨⟨rfl, rfl, rfl, rfl⟩, rfl, fun _ h => ⟨h, rfl, rfl, rfl, rfl, rfl⟩⟩

omit [DecidableEq α] in
theorem Calm.trans {s u v : Timers α} (h : Calm s u) (hv : Calm u v) : Calm s v := by
  refine ⟨⟨hv.time.trans h.time, hv.pc.trans h.pc, hv.fired.trans h.fired, hv.initial.trans h.initial⟩,
    hv.counter.trans h.counter, fun y hy => ?_⟩
  exact (h.kept y (hv.kept y hy).active).trans (hv.kept y hy)

omit [DecidableEq α] in
theorem Calm.begun {s u v : Timers α} {x : α} {d : ℕ} (h : Calm s u) (hx : (u.timers x).flags.isClosing = (s.timers x).flags.isClosing)
    (hb : Begun u v x d) : Begun s v x d := by
  constructor
  · exact ⟨hb.time.trans h.time, hb.pc.trans h.pc, hb.fired.trans h.fired, hb.initial.trans h.initial⟩
  · rw [hb.counter, h.counter]
  · rw [← hx, hb.was]
  · exact hb.closing
  · rw [hb.timeout, h.time]
  · rw [hb.startId, h.counter]
  · rw [hb.startTime, h.time]
  · exact hb.delay
  · intro y hy hv
    have h2 := hb.kept y hy hv
    exact (h.kept y h2.active).trans h2

section Effects
variable (s : Timers α) (x : α)

theorem calm_put {t : UvTimer} (ht : t.flags.active = true → Same (s.timers x) t) : Calm s (s.put x t) := by
  refine ⟨⟨rfl, rfl, rfl, rfl⟩, rfl, fun y hy => ?_⟩
  by_cases e : y = x
  · subst e
    simp only [Timers.put, update_self] at hy ⊢
    exact ht hy
  · simp only [Timers.put, update_of_ne e] at hy ⊢
    exact ⟨hy, rfl, rfl, rfl, rfl, rfl⟩

theorem calm_stop : Calm s (s.stop x) :=
  have h := calm_put s x (t := { s.timers x with flags := (handleStop (s.timers x).flags s.activeHandles).1 }) (by simp)
  ⟨⟨h.time, h.pc, h.fired, h.initial⟩, h.counter, h.kept⟩

theorem calm_close : Calm s (s.close x) := by
  refine ⟨⟨rfl, rfl, rfl, rfl⟩, rfl, fun y hy => ?_⟩
  by_cases e : y = x
  · subst e
    simp [Timers.close] at hy
  · rw [Timers.close, Timers.stop_other _ e, Timers.put_other _ _ e] at hy ⊢
    exact ⟨hy, rfl, rfl, rfl, rfl, rfl⟩

theorem calm_finishClose (hx : (s.timers x).flags.active = false) : Calm s (s.finishClose x) :=
  have h := calm_put s x (t := { s.timers x with flags := (finishClose (s.timers x).flags s.activeHandles).1 })
    (by simp [hx])
  ⟨⟨h.time, h.pc, h.fired, h.initial⟩, h.counter, h.kept⟩

theorem begun_begin (cb timeout repeat_ : ℕ) (hc : (s.timers x).flags.isClosing = false) :
    Begun s (s.begin_ x cb timeout repeat_) x timeout := by
  constructor
  · exact ⟨rfl, rfl, rfl, rfl⟩
  all_goals try simp [Timers.begin_, Timers.put, hc]
  intro y hy h
  rw [update_of_ne hy] at h ⊢
  exact ⟨h, rfl, rfl, rfl, rfl, rfl⟩

theorem stop_isClosing : ((s.stop x).timers x).flags.isClosing = (s.timers x).flags.isClosing := by
  simp [Timers.stop, Timers.put]

theorem start_effect (cb : Option ℕ) (timeout repeat_ : ℕ) :
    s.start x cb timeout repeat_ = s ∨ (cb ≠ none ∧ Begun s (s.start x cb timeout repeat_) x timeout) := by
  unfold Timers.start
  cases cb with
  | none => exact .inl rfl
  | some cb =>
    dsimp only
    split
    · exact .inl rfl
    · next hc =>
      have hc : ((s.stop x).timers x).flags.isClosing = false := by
        simpa using hc
      exact .inr ⟨nofun, (calm_stop s x).begun (stop_isClosing s x) (begun_begin _ x cb timeout repeat_ hc)⟩

theorem again_effect : Calm s (s.again x) ∨
    ((s.timers x).timerCb ≠ none ∧ (s.timers x).repeat_ ≠ 0 ∧ Begun s (s.again x) x (s.timers x).repeat_) := by
  unfold Timers.again
  split
  · next h =>
    rcases start_effect (s.stop x) x (s.timers x).timerCb (s.timers x).repeat_ (s.timers x).repeat_ with e | ⟨hcb, hb⟩
    · rw [e]
      exact .inl (calm_stop s x)
    · exact .inr ⟨hcb, h.2, (calm_stop s x).begun (stop_isClosing s x) hb⟩
  · exact .inl (Calm.refl s)

theorem fire_effect : (Calm s ((s.stop x).again x) ∧ (((s.stop x).again x).timers x).flags.active = false) ∨
    ((s.timers x).repeat_ ≠ 0 ∧ Begun s ((s.stop x).again x) x (s.timers x).repeat_) := by
  have hr : ((s.stop x).timers x).repeat_ = (s.timers x).repeat_ := by simp
  rcases again_effect (s.stop x) x with h | ⟨-, h0, h⟩
  · refine .inl ⟨(calm_stop s x).trans h, ?_⟩
    cases ha : (((s.stop x).again x).timers x).flags.active with
    | false => rfl
    | true => simpa using (h.kept x ha).active
  · rw [hr] at h0 h
    exact .inr ⟨h0, (calm_stop s x).begun (stop_isClosing s x) h⟩

@[simp] theorem stop_known : (s.stop x).known = s.known := rfl

@[simp] theorem stop_repeat (y : α) : ((s.stop x).timers y).repeat_ = (s.timers y).repeat_ := by
  by_cases e : y = x <;> simp [Timers.stop, Timers.put, Function.update, e]

@[simp] theorem start_known (cb : Option ℕ) (timeout repeat_ : ℕ) : (s.start x cb timeout repeat_).known = s.known := by
  unfold Timers.start
  cases cb with
  | none => rfl
  | some cb =>
    dsimp only
    split <;> rfl

theorem start_repeat (cb : Option ℕ) (timeout repeat_ : ℕ) (y : α) :
    ((s.start x cb timeout repeat_).timers y).repeat_ = (s.timers y).repeat_ ∨
      y = x ∧ ((s.start x cb timeout repeat_).timers y).repeat_ = repeat_ := by
  unfold Timers.start
  cases cb with
  | none => exact .inl rfl
  | some cb =>
    dsimp only
    split
    · exact .inl rfl
    · by_cases e : y = x
      · subst e
        exact .inr ⟨rfl, by simp [Timers.begin_, Timers.put]⟩
      · left
        simp [Timers.begin_, Timers.stop, Timers.put, e]

@[simp] theorem again_known : (s.again x).known = s.known := by
  unfold Timers.again
  split <;> simp

@[simp] theorem again_repeat (y : α) : ((s.again x).timers y).repeat_ = (s.timers y).repeat_ := by
  unfold Timers.again
  split
  · rcases start_repeat (s.stop x) x (s.timers x).timerCb (s.timers x).repeat_ (s.timers x).repeat_ y with h | ⟨rfl, h⟩
    · rw [h, stop_repeat]
    · exact h
  · rfl

end Effects

/-! ## The timers that are active -/

/-- Only timers that are open are active; times and intervals are `uint64_t`. -/
structure Live (s : Timers α) : Prop where
  time : s.time < u64
  active : ∀ x, (s.timers x).flags.active = true → x ∈ s.known ∧ (s.timers x).flags.isClosing = false
  repeats : ∀ x ∈ s.known, (s.timers x).repeat_ < u64

section Live
variable {s u : Timers α} (hs : Live s)
include hs

omit [DecidableEq α] in
theorem Live.not_active {x : α} (hc : (s.timers x).flags.closing = true) : (s.timers x).flags.active = false := by
  simpa [Flags.isClosing, hc] using fun h => (hs.active x h).2

omit [DecidableEq α] in
theorem Live.calm (h : Calm s u) (hk : u.known = s.known) (hr : ∀ x ∈ s.known, (u.timers x).repeat_ < u64) : Live u where
  time := h.time ▸ hs.time
  active x hx := by
    have hk' := h.kept x hx
    rw [hk, hk'.closing]
    exact hs.active x hk'.active
  repeats x hx := hr x (hk ▸ hx)

omit [DecidableEq α] in
theorem Live.begun {x : α} {d : ℕ} (h : Begun s u x d) (hx : x ∈ s.known) (hk : u.known = s.known)
    (hr : ∀ y ∈ s.known, (u.timers y).repeat_ < u64) : Live u where
  time := h.time ▸ hs.time
  active y hy := by
    by_cases e : y = x
    · subst e
      exact ⟨hk ▸ hx, h.closing⟩
    · have hk' := h.kept y e hy
      rw [hk, hk'.closing]
      exact hs.active y hk'.active
  repeats y hy := hr y (hk ▸ hy)

theorem Live.stop (x : α) : Live (s.stop x) :=
  hs.calm (calm_stop s x) rfl fun y hy => by simpa using hs.repeats y hy

theorem Live.again {x : α} (hx : x ∈ s.known) : Live (s.again x) := by
  have hr : ∀ y ∈ s.known, ((s.again x).timers y).repeat_ < u64 := fun y hy => by simpa using hs.repeats y hy
  rcases again_effect s x with h | ⟨-, -, h⟩
  · exact hs.calm h (again_known s x) hr
  · exact hs.begun h hx (again_known s x) hr

end Live

theorem live_inductive : (timerSet α).Inductive Live where
  init := by
    rintro s ⟨ha, ht, -, -, -, hk, -⟩
    refine ⟨ht, fun x hx => ?_, fun x hx => ?_⟩
    · rw [ha] at hx
      cases hx
    · rw [hk] at hx
      cases hx
  step := by
    rintro s l u hs ⟨ha, hu⟩
    cases l with
    | init x =>
      cases hu
      refine ⟨hs.time, fun y hy => ?_, fun y hy => ?_⟩ <;> by_cases e : y = x
      · subst e
        simp [Timers.put, handleInit] at hy
      · simp only [Timers.put, update_of_ne e] at hy ⊢
        exact ⟨mem_append_left _ (hs.active y hy).1, (hs.active y hy).2⟩
      · subst e
        simp [Timers.put, u64]
      · simp only [Timers.put, update_of_ne e, mem_append, mem_singleton, e, or_false] at hy ⊢
        exact hs.repeats y hy
    | start x cb timeout repeat_ =>
      cases hu
      obtain ⟨-, hx, -, hr⟩ := ha
      rcases start_effect s x cb timeout repeat_ with e | ⟨-, hb⟩
      · rw [e]
        exact hs
      · refine hs.begun hb hx (start_known _ _ _ _ _) fun y hy => ?_
        rcases start_repeat s x cb timeout repeat_ y with h | ⟨-, h⟩
        · rw [h]
          exact hs.repeats y hy
        · rw [h]
          exact hr
    | stop x =>
      cases hu
      exact hs.stop x
    | again x =>
      cases hu
      exact hs.again ha.2
    | setRepeat x r =>
      cases hu
      refine hs.calm (calm_put s x fun h => ⟨h, rfl, rfl, rfl, rfl, rfl⟩) rfl fun y hy => ?_
      by_cases e : y = x
      · subst e
        simpa [Timers.put] using ha.2.2
      · simpa [Timers.put, e] using hs.repeats y hy
    | close x =>
      cases hu
      refine hs.calm (calm_close s x) rfl fun y hy => ?_
      by_cases e : y = x
      · subst e
        simpa [Timers.close] using hs.repeats y hy
      · rw [Timers.close, Timers.stop_other _ e, Timers.put_other _ _ e]
        exact hs.repeats y hy
    | finishClose x =>
      cases hu
      obtain ⟨-, -, hc⟩ := ha
      have hx := hs.not_active hc
      refine ⟨hs.time, fun y hy => ?_, fun y hy => ?_⟩
      · have hk := (calm_finishClose s x hx).kept y hy
        have e : y ≠ x := fun e => by simp [e ▸ hk.active] at hx
        rw [hk.closing]
        exact ⟨mem_filter.2 ⟨(hs.active y hk.active).1, by simpa using e⟩, (hs.active y hk.active).2⟩
      · obtain ⟨hy, e⟩ := mem_filter.1 hy
        have e : y ≠ x := by simpa using e
        have hother : (s.finishClose x).timers y = s.timers y := update_of_ne e ..
        rw [hother]
        exact hs.repeats y hy
    | updateTime t =>
      cases hu
      exact ⟨ha.2.2, hs.active, hs.repeats⟩
    | run =>
      cases hu
      exact ⟨hs.time, hs.active, hs.repeats⟩
    | next =>
      cases hu with
      | empty | early => exact ⟨hs.time, hs.active, hs.repeats⟩
      | @due x hx =>
        have h := (hs.stop x).again (x := x) (hs.active x hx.1).1
        exact ⟨h.time, h.active, h.repeats⟩
    | ret =>
      cases hu
      exact ⟨hs.time, hs.active, hs.repeats⟩

/-! ## The order in which timers fire -/

theorem clamp_eq {time timeout : ℕ} (ht : time < u64) (h : timeout < u64) :
    clamp time timeout = min (time + timeout) (u64 - 1) := by
  unfold clamp
  rcases Nat.lt_or_ge (time + timeout) u64 with hlt | hge
  · rw [Nat.mod_eq_of_lt hlt, if_neg (by omega)]
    omega
  · rw [Nat.mod_eq_sub_mod hge, Nat.mod_eq_of_lt (by omega), if_pos (by omega)]
    omega

theorem le_clamp {time timeout : ℕ} (ht : time < u64) (h : timeout < u64) : time ≤ clamp time timeout := by
  rw [clamp_eq ht h]
  omega

/-- Earlier timeout, or the same and an earlier start. -/
def Before (a b : UvTimer) : Prop :=
  a.timeout < b.timeout ∨ (a.timeout = b.timeout ∧ a.startId < b.startId)

/-- When the timer is due: its start time plus its timeout, saturated. -/
def UvTimer.dueTime (t : UvTimer) : ℕ := min (t.startTime + t.delay) (u64 - 1)

theorem before_of_not_less {a b : UvTimer} (h : timerLessThan b a = false) (hne : a.startId ≠ b.startId) : Before a b := by
  unfold timerLessThan at h
  unfold Before
  grind

structure Sound (s : Timers α) : Prop where
  due : ∀ x, (s.timers x).flags.active = true → (s.timers x).timeout = (s.timers x).dueTime
  ids : ∀ x, (s.timers x).flags.active = true → (s.timers x).startId < s.timerCounter
  unique : ∀ x y, (s.timers x).flags.active = true → (s.timers y).flags.active = true →
    (s.timers x).startId = (s.timers y).startId → x = y
  early : ∀ f ∈ s.fired, f.was.dueTime ≤ f.time
  past : ∀ f ∈ s.fired, f.was.timeout ≤ s.time ∧ f.was.startId < s.timerCounter
  later : ∀ f ∈ s.fired, ∀ x, (s.timers x).flags.active = true → Before f.was (s.timers x)
  sorted : s.fired.Pairwise fun f g => Before f.was g.was

section Sound
variable {s u : Timers α} (hs : Sound s)
include hs

omit [DecidableEq α] in
theorem Sound.calm (h : Calm s u) : Sound u where
  due x hx := by
    have k := h.kept x hx
    rw [UvTimer.dueTime, k.timeout, k.startTime, k.delay]
    exact hs.due x k.active
  ids x hx := by
    have k := h.kept x hx
    rw [k.startId, h.counter]
    exact hs.ids x k.active
  unique x y hx hy := by
    have k := h.kept x hx
    have k' := h.kept y hy
    rw [k.startId, k'.startId]
    exact hs.unique x y k.active k'.active
  early := h.fired ▸ hs.early
  past := by
    rw [h.fired, h.time, h.counter]
    exact hs.past
  later f hf x hx := by
    have k := h.kept x hx
    have := hs.later f (h.fired ▸ hf) x k.active
    rwa [Before, k.timeout, k.startId]
  sorted := h.fired ▸ hs.sorted

omit [DecidableEq α] in
theorem Sound.begun {x : α} {d : ℕ} (hl : Live s) (h : Begun s u x d) (hd : d < u64) (hc : s.timerCounter + 1 < u64) :
    Sound u := by
  have hcount : u.timerCounter = s.timerCounter + 1 := h.counter.trans (Nat.mod_eq_of_lt hc)
  have hdue : (u.timers x).timeout = (u.timers x).dueTime := by
    rw [UvTimer.dueTime, h.timeout, h.startTime, h.delay, clamp_eq hl.time hd]
  have hid : ∀ y, y ≠ x → (u.timers y).flags.active = true → (u.timers y).startId < (u.timers x).startId := fun y e hy => by
    have k := h.kept y e hy
    rw [k.startId, h.startId]
    exact hs.ids y k.active
  constructor
  case due =>
    intro y hy
    by_cases e : y = x
    · rw [e]
      exact hdue
    · have k := h.kept y e hy
      rw [UvTimer.dueTime, k.timeout, k.startTime, k.delay]
      exact hs.due y k.active
  case ids =>
    intro y hy
    by_cases e : y = x
    · rw [e, h.startId]
      omega
    · have := hid y e hy
      rw [h.startId] at this
      omega
  case unique =>
    intro y z hy hz he
    by_cases e : y = x <;> by_cases e' : z = x
    · rw [e, e']
    · have := hid z e' hz
      subst e
      omega
    · have := hid y e hy
      subst e'
      omega
    · have k := h.kept y e hy
      have k' := h.kept z e' hz
      rw [k.startId, k'.startId] at he
      exact hs.unique y z k.active k'.active he
  case early => exact h.fired ▸ hs.early
  case past =>
    intro f hf
    obtain ⟨h1, h2⟩ := hs.past f (h.fired ▸ hf)
    rw [h.time]
    omega
  case later =>
    intro f hf y hy
    have hf := h.fired ▸ hf
    by_cases e : y = x
    · -- it is due now or later, and its id is new
      obtain ⟨h1, h2⟩ := hs.past f hf
      have h3 := le_clamp hl.time hd
      rw [e, Before, h.timeout, h.startId]
      omega
    · have k := h.kept y e hy
      have := hs.later f hf y k.active
      rwa [Before, k.timeout, k.startId]
  case sorted => exact h.fired ▸ hs.sorted

end Sound

/-- `timer_counter` does not wrap in this step. -/
def Timers.CounterRoom (s : Timers α) : Label α → Prop
  | .start _ _ _ _ | .again _ | .next => s.timerCounter + 1 < u64
  | _ => True

instance (s : Timers α) (l : Label α) : Decidable (s.CounterRoom l) :=
  match l with
  | .start _ _ _ _ | .again _ | .next => inferInstanceAs (Decidable (_ < _))
  | .init _ | .stop _ | .setRepeat _ _ | .close _ | .finishClose _ | .updateTime _ | .run | .ret =>
    inferInstanceAs (Decidable True)

theorem Sound.fire {s : Timers α} {x : α} (hs : Sound s) (hl : Live s) (hc : s.timerCounter + 1 < u64) (hx : s.Least x)
    (hd : (s.timers x).timeout ≤ s.time) : Sound (s.fire x) := by
  have hrep : (s.timers x).repeat_ < u64 := hl.repeats x (hl.active x hx.1).1
  have hv : Sound ((s.stop x).again x) ∧ ((s.stop x).again x).fired = s.fired ∧ ((s.stop x).again x).time = s.time ∧
      s.timerCounter ≤ ((s.stop x).again x).timerCounter ∧ ∀ y, (((s.stop x).again x).timers y).flags.active = true →
        Before (s.timers x) (((s.stop x).again x).timers y) := by
    have hother : ∀ y, y ≠ x → ∀ t, Same (s.timers y) t → Before (s.timers x) t := fun y e t k => by
      have h := before_of_not_less (hx.2 y k.active) fun he => e (hs.unique x y hx.1 k.active he).symm
      rwa [Before, k.timeout, k.startId]
    rcases fire_effect s x with ⟨h, h0⟩ | ⟨-, h⟩
    · refine ⟨hs.calm h, h.fired, h.time, h.counter.ge, fun y hy => ?_⟩
      have e : y ≠ x := fun e => by simp [e, h0] at hy
      exact hother y e _ (h.kept y hy)
    · have hcount := h.counter.trans (Nat.mod_eq_of_lt hc)
      have hid := hs.ids x hx.1
      refine ⟨hs.begun hl h hrep hc, h.fired, h.time, by omega, fun y hy => ?_⟩
      by_cases e : y = x
      · have := le_clamp hl.time hrep
        rw [e, Before, h.timeout, h.startId]
        omega
      · exact hother y e _ (h.kept y e hy)
  obtain ⟨hv, hf, ht, hcount, hlater⟩ := hv
  have hid := hs.ids x hx.1
  constructor
  case due => exact hv.due
  case ids => exact hv.ids
  case unique => exact hv.unique
  case early =>
    refine forall_mem_append.2 ⟨hs.early, forall_mem_singleton.2 ?_⟩
    rw [← hs.due x hx.1]
    exact hd
  case past =>
    refine forall_mem_append.2 ⟨fun f h => hv.past f (hf ▸ h), forall_mem_singleton.2 ⟨ht ▸ hd, ?_⟩⟩
    exact hid.trans_le hcount
  case later =>
    refine forall_mem_append.2 ⟨fun f h => hv.later f (hf ▸ h), forall_mem_singleton.2 hlater⟩
  case sorted =>
    refine pairwise_append.2 ⟨hs.sorted, pairwise_singleton _ _, fun f hf' g hg => ?_⟩
    rw [mem_singleton.1 hg]
    exact hs.later f hf' x hx.1

theorem sound_inductive : ((timerSet α).restrict Timers.CounterRoom).Inductive fun s => Live s ∧ Sound s := by
  refine (live_inductive.restrict _).with_ ?_ ?_
  · rintro s ⟨ha, -, -, -, hf, -, -⟩
    have hno : ∀ x, ¬ (s.timers x).flags.active = true := fun x => by simp [ha]
    constructor
    case sorted =>
      rw [hf]
      exact List.Pairwise.nil
    all_goals
      simp [hno, hf]
  · rintro s l u hl hs ⟨hc, ha, hu⟩
    cases l with
    | init x =>
      cases hu
      have h := hs.calm (calm_put s x (t := { s.timers x with
        flags := handleInit, timerCb := none, timeout := 0, repeat_ := 0 }) nofun)
      exact ⟨h.due, h.ids, h.unique, h.early, h.past, h.later, h.sorted⟩
    | start x cb timeout repeat_ =>
      cases hu
      rcases start_effect s x cb timeout repeat_ with e | ⟨-, hb⟩
      · rw [e]
        exact hs
      · exact hs.begun hl hb ha.2.2.1 hc
    | stop x =>
      cases hu
      exact hs.calm (calm_stop s x)
    | again x =>
      cases hu
      rcases again_effect s x with h | ⟨-, -, h⟩
      · exact hs.calm h
      · exact hs.begun hl h (hl.repeats x ha.2) hc
    | setRepeat x r =>
      cases hu
      exact hs.calm (calm_put s x fun h => ⟨h, rfl, rfl, rfl, rfl, rfl⟩)
    | close x =>
      cases hu
      exact hs.calm (calm_close s x)
    | finishClose x =>
      cases hu
      have hx := hl.not_active ha.2.2
      exact hs.calm (calm_finishClose s x hx)
    | updateTime t =>
      cases hu
      exact ⟨hs.due, hs.ids, hs.unique, hs.early, fun f hf => ⟨(hs.past f hf).1.trans ha.2.1, (hs.past f hf).2⟩,
        hs.later, hs.sorted⟩
    | run =>
      cases hu
      exact ⟨hs.due, hs.ids, hs.unique, nofun, nofun, nofun, List.Pairwise.nil⟩
    | next =>
      cases hu with
      | empty | early => exact ⟨hs.due, hs.ids, hs.unique, hs.early, hs.past, hs.later, hs.sorted⟩
      | due hx hd => exact hs.fire hl hc hx hd
    | ret =>
      cases hu
      exact ⟨hs.due, hs.ids, hs.unique, hs.early, hs.past, hs.later, hs.sorted⟩

/-! ## Runs of the loop -/

omit [DecidableEq α] in
theorem start_ok {s : Loop α} (hs : s.Start) {mem : α → HeapNode α} (hm : s.heap = heapInit mem) : s.Ok := by
  obtain ⟨l, hl, hx⟩ : Libuv.L1.HeapInl.Sound s.lessThan ⟨heapInit mem, ∅⟩ := sound_init
  refine ⟨⟨l, hm ▸ hl, fun x => ?_⟩, fun x hx => ?_⟩
  · simp [hx, hs.1 x]
  · simp [hs.1 x] at hx

theorem step_allowed {s t : Loop α} {l : Label α} (h : step s l = some t) : s.Allowed l := by
  unfold step at h
  split at h
  · assumption
  · cases h

section Refine
variable {C : Loop α → Label α → Prop} {D : Timers α → Label α → Prop} (hC : ∀ s l, C s l → s.HeapRoom l ∧ D s.toTimers l)
include hC

theorem history_refines {ls : List (Label α)} {s : Loop α} (h : ((system α).restrict C).History ls s) :
    ((timerSet α).restrict D).History ls s.toTimers ∧ s.Ok := by
  have init : ∀ s : Loop α, (system α).init s → ∃ u, (timerSet α).init u ∧ u = s.toTimers ∧ s.Ok := fun s hs =>
    ⟨_, hs.1, rfl, start_ok hs.1 hs.2.choose_spec⟩
  obtain ⟨u, hu, rfl, hs⟩ := h.refines (U := (timerSet α).restrict D) (R := fun s u => u = s.toTimers ∧ s.Ok) init
    fun s u l t hu hR hst => by
      obtain ⟨rfl, hs⟩ := hR
      obtain ⟨hroom, hD⟩ := hC s l hst.1
      have hl := (live_inductive.restrict D).reachable hu
      have ha := step_allowed hst.2
      obtain ⟨t', ht', hafter, hok⟩ := step_spec hs (fun x hx => (hl.active x hx).1) ha hroom
      cases ht'.symm.trans hst.2
      exact ⟨_, ⟨hD, ha, hafter⟩, rfl, hok⟩
  exact ⟨hu, hs⟩

theorem reachable_refines {s : Loop α} (h : ((system α).restrict C).Reachable s) :
    ((timerSet α).restrict D).Reachable s.toTimers ∧ s.Ok := by
  obtain ⟨ls, hl⟩ := h
  obtain ⟨hr, hok⟩ := history_refines hC hl
  exact ⟨⟨ls, hr⟩, hok⟩

theorem history_step {ls : List (Label α)} {s : Loop α} (h : ((system α).restrict C).History ls s) {l : Label α} (hc : C s l)
    (ha : s.Allowed l) : ∃ t, ((system α).restrict C).History (ls ++ [l]) t ∧ step s l = some t ∧ s.After l t.toTimers := by
  obtain ⟨hr, hok⟩ := history_refines hC h
  have hl := (live_inductive.restrict D).reachable ⟨ls, hr⟩
  obtain ⟨t, ht, hafter, -⟩ := step_spec hok (fun x hx => (hl.active x hx).1) ha (hC s l hc).1
  exact ⟨t, h.snoc (l := l) ⟨hc, ht⟩, ht, hafter⟩

theorem reachable_step {s : Loop α} (h : ((system α).restrict C).Reachable s) {l : Label α} (hc : C s l) (ha : s.Allowed l) :
    ∃ t, ((system α).restrict C).Reachable t ∧ step s l = some t ∧ s.After l t.toTimers := by
  obtain ⟨ls, hl⟩ := h
  obtain ⟨t, ht, hst, hafter⟩ := history_step hC hl hc ha
  exact ⟨t, ⟨_, ht⟩, hst, hafter⟩

end Refine

/-- No more than 2^32 - 1 timers are active, and `timer_counter` does not wrap. -/
def Loop.Room (s : Loop α) (l : Label α) : Prop := s.HeapRoom l ∧ s.CounterRoom l

omit [DecidableEq α] in
theorem Loop.Ok.once {s : Loop α} (hs : s.Ok) (x : α) :
    (s.timers x).flags.active = true ↔ ∃! i, nodeAt s.heap i = some x := by
  obtain ⟨l, hl, hx⟩ := hs.heap
  have hn := hl.lays.nodeAt hl.complete
  rw [← hx]
  constructor
  · rintro ⟨i, hi⟩
    refine ⟨i, by rw [← hi, ← hn], fun j hj => ?_⟩
    exact hl.complete.inj ((hn j).symm.trans hj) hi
  · rintro ⟨i, hi, -⟩
    exact ⟨i, by rw [← hi, ← hn]⟩

omit [DecidableEq α] in
theorem Timers.Least.timeout_le {s : Timers α} {x : α} (hx : s.Least x) {y : α} (hy : (s.timers y).flags.active = true) :
    (s.timers x).timeout ≤ (s.timers y).timeout := by
  have h := hx.2 y hy
  unfold Timers.lessThan timerLessThan at h
  grind

theorem Timers.Round.done {s u : Timers α} (h : s.Round u) (hu : u.pc = .idle) :
    ∀ x, (u.timers x).flags.active = true → u.time < (u.timers x).timeout := by
  cases h with
  | empty h => exact fun x hx => by simp [h x] at hx
  | early hx hlt => exact fun y hy => hlt.trans_le (hx.timeout_le hy)
  | due => cases hu

theorem step_next {s t : Loop α} (hs : s.Ok) (h : step s .next = some t) : s.Round t.toTimers := by
  unfold step at h
  split at h
  · obtain ⟨t', ht', hround, -⟩ := hs.round
    cases ht'.symm.trans h
    exact hround
  · cases h

/-- **Timers over whole runs.** The heap holds each active timer once and no other; a
callback is only run when its timer is due; the timers of a pass fire in the order of
timeout and start id; no active timer is due when a pass ends. -/
theorem run_timers {s : Loop α} (h : ((system α).restrict Loop.Room).Reachable s) :
    (∀ x, (s.timers x).flags.active = true ↔ ∃! i, nodeAt s.heap i = some x) ∧
      (∀ f ∈ s.fired, f.was.dueTime ≤ f.time) ∧ (s.fired.Pairwise fun f g => Before f.was g.was) ∧
      ∀ t, step s .next = some t → t.pc = .idle → ∀ x, (t.timers x).flags.active = true → t.time < (t.timers x).timeout := by
  obtain ⟨hr, hok⟩ := reachable_refines (fun _ _ => id) h
  have hs := (sound_inductive.reachable hr).2
  exact ⟨hok.once, hs.early, hs.sorted, fun t ht hi => (step_next hok ht).done hi⟩

omit [DecidableEq α] in
theorem Loop.Ok.heapRoom [Fintype α] {s : Loop α} (hs : s.Ok) (hcard : Fintype.card α + 1 < 2 ^ 32) (l : Label α) :
    s.HeapRoom l := by
  obtain ⟨lay, hl, hx⟩ := hs.heap
  have hn := Complete.card hl.complete (S := Finset.univ.filter fun x => (s.timers x).flags.active = true)
    (fun x => by simp [hx])
  have hle : s.heap.nelts.toNat ≤ Fintype.card α := hn ▸ Finset.card_le_univ _
  cases l <;> first | trivial | exact fun _ => by omega

instance [Fintype α] (s : Timers α) (x : α) : Decidable (s.Least x) := by
  unfold Timers.Least
  infer_instance

theorem Timers.Round.fires {s u : Timers α} {x : α} (h : s.Round u) (hx : s.Least x) (hone : ∀ y, s.Least y → y = x)
    (hd : (s.timers x).timeout ≤ s.time) : u = s.fire x := by
  cases h with
  | empty h => exact absurd hx.1 (by simp [h x])
  | early hy hlt =>
    rw [hone _ hy] at hlt
    omega
  | due hy => rw [hone _ hy]

theorem Timers.Round.ends {s u : Timers α} (h : s.Round u) (hn : ∀ x, (s.timers x).flags.active = false) : u.fired = s.fired := by
  cases h with
  | empty | early => rfl
  | due hx => exact absurd hx.1 (by simp [hn])

def Timers.blank (α : Type*) : Timers α :=
  ⟨fun _ => ⟨⟨false, false, false, false⟩, none, 0, 0, 0, 0, 0⟩, 0, 0, 0, .idle, [], [], []⟩

omit [DecidableEq α] in
theorem blank_start : (Timers.blank α).Start := ⟨fun _ => rfl, Nat.two_pow_pos 64, rfl, rfl, rfl, rfl, rfl⟩

/-- A timer is started for 5 with an interval of 3 and fires at 7. -/
theorem run_timers_one : ∃ s : Loop Bool, s.fired.map (fun f => (f.timer, f.was.timeout, f.time)) = [(true, 5, 7)] ∧
    (∀ x, (s.timers x).flags.active = true ↔ ∃! i, nodeAt s.heap i = some x) ∧
    (∀ f ∈ s.fired, f.was.dueTime ≤ f.time) ∧ (s.fired.Pairwise fun f g => Before f.was g.was) := by
  have room : ∀ {s : Loop Bool} {l}, ((system Bool).restrict Loop.Room).Reachable s → s.CounterRoom l → s.Room l :=
    fun h hc => ⟨(reachable_refines (fun _ _ => id) h).2.heapRoom (by decide) _, hc⟩
  have h0 : ((system Bool).restrict Loop.Room).Reachable ⟨Timers.blank Bool, heapInit fun _ => ⟨none, none, none⟩⟩ :=
    .init ⟨blank_start, _, rfl⟩
  obtain ⟨s1, h1, -, e1⟩ := reachable_step (fun _ _ => id) h0 (l := .init true) (room h0 trivial) (by decide)
  obtain ⟨s2, h2, -, e2⟩ := reachable_step (fun _ _ => id) h1 (l := .start true (some 0) 5 3)
    (room h1 (by rw [e1]; decide)) (by rw [e1]; decide)
  obtain ⟨s3, h3, -, e3⟩ := reachable_step (fun _ _ => id) h2 (l := .updateTime 7) (room h2 trivial) (by rw [e2, e1]; decide)
  obtain ⟨s4, h4, -, e4⟩ := reachable_step (fun _ _ => id) h3 (l := .run) (room h3 trivial) (by rw [e3, e2, e1]; decide)
  obtain ⟨s5, h5, -, e5⟩ := reachable_step (fun _ _ => id) h4 (l := .next) (room h4 (by rw [e4, e3, e2, e1]; decide))
    (by rw [e4, e3, e2, e1]; decide)
  have hfire : s5.toTimers = s4.fire true := by
    apply e5.fires <;> rw [e4, e3, e2, e1] <;> decide
  obtain ⟨k1, k2, k3, -⟩ := run_timers h5
  refine ⟨s5, ?_, k1, k2, k3⟩
  rw [hfire, e4, e3, e2, e1]
  decide

/-! ## The two limits -/

/-- The first `k` timers are active, each due now. -/
def Timers.full (k : ℕ) : Timers ℕ where
  timers i := if i < k then ⟨⟨false, false, true, true⟩, some 0, 0, 0, i, 0, 0⟩ else ⟨⟨false, false, false, false⟩, none, 0, 0, 0, 0, 0⟩
  time := 0
  timerCounter := k
  activeHandles := k
  pc := .idle
  fired := []
  known := List.range k
  initial := []

def Timers.grown (k : ℕ) : Timers ℕ :=
  { (Timers.full k).put k ⟨handleInit, none, 0, 0, 0, 0, 0⟩ with known := List.range (k + 1) }

theorem full_init (k : ℕ) : (Timers.full k).After (.init k) (Timers.grown k) := by
  simp [Timers.After, Timers.grown, Timers.full, Timers.put, range_succ]

theorem full_start {k : ℕ} (hk : k + 1 < uintMax) : (Timers.grown k).start k (some 0) 0 0 = Timers.full (k + 1) := by
  have hu : k + 1 < u64 := hk.trans (by decide)
  have ht : ((Timers.grown k).stop k).begin_ k 0 0 0 = Timers.full (k + 1) := by
    simp only [Timers.begin_, Timers.grown, Timers.full, Timers.stop, Timers.put, update_self, update_idem]
    congr 1
    · funext i
      by_cases e : i = k
      · subst e
        simp [handleStop, handleStart, handleInit, clamp]
      · have : i < k + 1 ↔ i < k := by omega
        simp [e, this]
    · exact Nat.mod_eq_of_lt hu
    · exact Nat.mod_eq_of_lt hk
  rw [← ht]
  simp [Timers.start, Timers.grown, Timers.put, handleInit, Flags.isClosing]

def roomySystem (α : Type*) [DecidableEq α] : LTS (Loop α) (Label α) := (system α).restrict Loop.HeapRoom

theorem roomy_refines {s : Loop α} (h : (roomySystem α).Reachable s) :
    ((timerSet α).restrict fun _ _ => True).Reachable s.toTimers ∧ s.Ok :=
  reachable_refines (fun _ _ hr => ⟨hr, trivial⟩) h

theorem roomy_step {s : Loop α} (h : (roomySystem α).Reachable s) {l : Label α} (hr : s.HeapRoom l) (ha : s.Allowed l) :
    ∃ t, (roomySystem α).Reachable t ∧ s.After l t.toTimers := by
  obtain ⟨t, ht, -, hafter⟩ := reachable_step (D := fun _ _ => True) (fun _ _ hr => ⟨hr, trivial⟩) h hr ha
  exact ⟨t, ht, hafter⟩

def Label.isStart : Label α → Bool
  | .init _ | .start .. => true
  | _ => false

/-- The runs in which timers are only initialised and started. -/
def startSystem (α : Type*) [DecidableEq α] : LTS (Loop α) (Label α) :=
  (system α).restrict fun s l => s.HeapRoom l ∧ l.isStart = true

theorem start_refines {s : Loop α} (h : (startSystem α).Reachable s) :
    ((timerSet α).restrict fun _ _ => True).Reachable s.toTimers ∧ s.Ok :=
  reachable_refines (fun _ _ hr => ⟨hr.1, trivial⟩) h

theorem start_step {s : Loop α} (h : (startSystem α).Reachable s) {l : Label α} (hr : s.HeapRoom l) (hl : l.isStart = true)
    (ha : s.Allowed l) : ∃ t, (startSystem α).Reachable t ∧ s.After l t.toTimers := by
  obtain ⟨t, ht, -, hafter⟩ := reachable_step (D := fun _ _ => True) (fun _ _ hr => ⟨hr.1, trivial⟩) h ⟨hr, hl⟩ ha
  exact ⟨t, ht, hafter⟩

theorem full_grow {s : Loop ℕ} {k : ℕ} (h : (startSystem ℕ).Reachable s) (e : s.toTimers = Timers.full k) :
    ∃ t : Loop ℕ, (startSystem ℕ).Reachable t ∧ t.toTimers = Timers.grown k ∧ t.heap.nelts.toNat = k := by
  have ha : s.Allowed (.init k) := by
    rw [e]
    exact ⟨nofun, by simp [Timers.full]⟩
  obtain ⟨t, ht, et⟩ := start_step h (l := .init k) trivial rfl ha
  rw [e] at et
  have et : t.toTimers = Timers.grown k := et.trans (full_init k).symm
  obtain ⟨l, hl, hx⟩ := (start_refines ht).2.heap
  refine ⟨t, ht, et, ?_⟩
  rw [← Complete.card hl.complete (S := Finset.range k) fun x => ?_, Finset.card_range]
  rw [hx, et]
  by_cases hk : x = k
  · simp [Timers.grown, hk, handleInit]
  · rw [Timers.grown, Timers.put_other _ _ hk, Timers.full]
    dsimp only
    split <;> simp [*]

theorem grown_allowed (k : ℕ) {d : ℕ} (hd : d < u64) : (Timers.grown k).Allowed (.start k (some 0) d 0) :=
  ⟨nofun, by simp [Timers.grown], hd, Nat.two_pow_pos 64⟩

theorem reachable_full {k : ℕ} (hk : k < 2 ^ 32) : ∃ s : Loop ℕ, (startSystem ℕ).Reachable s ∧ s.toTimers = Timers.full k := by
  induction k with
  | zero =>
    refine ⟨⟨Timers.full 0, heapInit fun _ => ⟨none, none, none⟩⟩, .init ⟨?_, _, rfl⟩, rfl⟩
    exact ⟨fun _ => rfl, Nat.two_pow_pos 64, rfl, rfl, rfl, rfl, rfl⟩
  | succ k ih =>
    obtain ⟨s, h, e⟩ := ih (by omega)
    obtain ⟨t, ht, et, hn⟩ := full_grow h e
    have hroom : t.HeapRoom (.start k (some 0) 0 0) := fun _ => by
      rw [hn]
      exact hk
    obtain ⟨u, hu, eu⟩ := start_step ht hroom rfl (et ▸ grown_allowed k (by decide))
    rw [et] at eu
    exact ⟨u, hu, eu.trans (full_start hk)⟩

theorem full_heap_drops {d : ℕ} (hd : d < u64) : ∃ (s t : Loop ℕ) (k : ℕ), (startSystem ℕ).Reachable s ∧
    step s (.start k (some 0) d 0) = some t ∧ t.toTimers = (Timers.grown k).begin_ k 0 d 0 ∧ 0 < k ∧
    heapMin t.heap = some k ∧ ∀ i y, nodeAt t.heap i = some y → y = k := by
  obtain ⟨s, h, e⟩ := reachable_full (k := 2 ^ 32 - 1) (by decide)
  obtain ⟨t, ht, et, hn⟩ := full_grow h e
  generalize hk : 2 ^ 32 - 1 = k at *
  have hnelts : t.heap.nelts = 4294967295 := UInt32.toNat_inj.1 (by rw [hn, ← hk]; rfl)
  have h0 : 0 < k := by omega
  have hself : t.timers k = ⟨handleInit, none, 0, 0, 0, 0, 0⟩ := by rw [et, Timers.grown, Timers.put_self]
  have hid : ∀ p, p ≠ k → (t.timers p).timeout = 0 ∧ (t.timers p).startId < k := fun p hp => by
    rw [et, Timers.grown, Timers.put_other _ _ hp, Timers.full]
    dsimp only
    split
    · exact ⟨rfl, ‹_›⟩
    · exact ⟨rfl, h0⟩
  have hless : ∀ p, (t.entered k 0 d 0).lessThan k p = false := fun p => by
    have hc : t.timerCounter = k := by rw [et]; rfl
    by_cases hp : p = k
    · subst hp
      simp [Timers.lessThan, timerLessThan]
    · obtain ⟨h1, h2⟩ := hid p hp
      simp only [Timers.entered, Timers.lessThan, timerLessThan, Timers.put, update_self, update_of_ne hp, hc, h1]
      simp
      omega
  obtain ⟨h', he, hm, -, hl, hr⟩ := insert_wraps hnelts hless
  have hinact : (t.timers k).flags.active = false := by rw [hself]; rfl
  have hstep : step t (.start k (some 0) d 0) = some { toTimers := t.begin_ k 0 d 0, heap := h' } := by
    have hrun := uvTimerStart_open t (x := k) (by rw [hself]; rfl) 0 d 0
    rw [uvTimerStop_inactive t hinact, Option.bind_some, he] at hrun
    unfold step
    rw [if_pos (et ▸ grown_allowed k hd)]
    exact congrArg (Option.map Prod.snd) hrun
  exact ⟨t, _, k, ht, hstep, by rw [et], h0, hm, fun i y hi => nodeAt_root hm hl hr hi⟩

/-- **A full heap loses its timers.** When 2^32 - 1 timers are active and another one is
started, the first is active and not in the heap. -/
theorem full_heap_loses : ∃ s : Loop ℕ, (system ℕ).Reachable s ∧ (s.timers 0).flags.active = true ∧ ∀ i, nodeAt s.heap i ≠ some 0 := by
  obtain ⟨s, t, k, hs, hstep, ht, hk, -, hone⟩ := full_heap_drops (d := 0) (by decide)
  refine ⟨t, hs.of_restrict.step hstep, ?_, fun i hi => hk.ne (hone i 0 hi)⟩
  rw [ht, Timers.begin_]
  rw [Timers.put_other _ _ hk.ne, Timers.grown, Timers.put_other _ _ hk.ne, Timers.full]
  simp [hk]

/-- The timer `true` has been started `k + 1` times. -/
def Timers.worn (k : ℕ) : Timers Bool where
  timers b := if b then ⟨⟨false, false, true, true⟩, some 0, 0, 0, k, 0, 0⟩ else ⟨handleInit, none, 0, 0, 0, 0, 0⟩
  time := 0
  timerCounter := k + 1
  activeHandles := 1
  pc := .idle
  fired := []
  known := [true, false]
  initial := []

theorem worn_start {k : ℕ} (hk : k + 2 < u64) : (Timers.worn k).start true (some 0) 0 0 = Timers.worn (k + 1) := by
  rw [Timers.start_open _ rfl]
  simp only [Timers.begin_, Timers.stop, Timers.worn, Timers.put, update_self, update_idem]
  congr 1
  · funext b
    cases b <;> simp [handleStop, handleStart, clamp]
  · exact Nat.mod_eq_of_lt hk

theorem bool_room {s : Loop Bool} (h : (roomySystem Bool).Reachable s) (l : Label Bool) : s.HeapRoom l :=
  (roomy_refines h).2.heapRoom (by decide) l

theorem reachable_worn {k : ℕ} (hk : k + 1 < u64) : ∃ s : Loop Bool, (roomySystem Bool).Reachable s ∧ s.toTimers = Timers.worn k := by
  induction k with
  | zero =>
    have h0 : (roomySystem Bool).Reachable ⟨Timers.blank Bool, heapInit fun _ => ⟨none, none, none⟩⟩ :=
      .init ⟨blank_start, _, rfl⟩
    obtain ⟨s1, h1, e1⟩ := roomy_step h0 (l := .init true) trivial (by decide)
    obtain ⟨s2, h2, e2⟩ := roomy_step h1 (l := .init false) trivial (by rw [e1]; decide)
    obtain ⟨s3, h3, e3⟩ := roomy_step h2 (bool_room h2 (.start true (some 0) 0 0)) (by rw [e2, e1]; decide)
    refine ⟨s3, h3, ?_⟩
    rw [e2, e1] at e3
    exact Eq.trans e3 (Timers.ext (by funext b; cases b <;> rfl) rfl rfl rfl rfl rfl rfl rfl)
  | succ k ih =>
    obtain ⟨s, h, e⟩ := ih (by omega)
    have ha : s.Allowed (.start true (some 0) 0 0) := by
      rw [e]
      exact ⟨nofun, by simp [Timers.worn], Nat.two_pow_pos 64, Nat.two_pow_pos 64⟩
    obtain ⟨t, ht, et⟩ := roomy_step h (bool_room h _) ha
    rw [e] at et
    exact ⟨t, ht, Eq.trans et (worn_start hk)⟩

/-- **`timer_counter` wraps.** After 2^64 - 1 starts of one timer another one gets the last
id; the first, started again in its callback, gets 0 and fires after it. -/
theorem start_id_wraps : ∃ s : Loop Bool, (system Bool).Reachable s ∧ ¬ s.fired.Pairwise fun f g => Before f.was g.was := by
  obtain ⟨s, h, e⟩ := reachable_worn (k := u64 - 2) (by decide)
  obtain ⟨s1, h1, e1⟩ := roomy_step h (bool_room h (.start false (some 0) 0 0)) (by rw [e]; decide)
  obtain ⟨s2, h2, e2⟩ := roomy_step h1 (l := .stop true) trivial (by rw [e1, e]; decide)
  obtain ⟨s3, h3, e3⟩ := roomy_step h2 (l := .run) trivial (by rw [e2, e1, e]; decide)
  obtain ⟨s4, h4, e4⟩ := roomy_step h3 (l := .next) trivial (by rw [e3, e2, e1, e]; decide)
  have e4 : s4.toTimers = s3.fire false := by
    apply e4.fires <;> rw [e3, e2, e1, e] <;> decide
  obtain ⟨s5, h5, e5⟩ := roomy_step h4 (bool_room h4 (.start true (some 0) 0 0)) (by rw [e4, e3, e2, e1, e]; decide)
  obtain ⟨s6, h6, e6⟩ := roomy_step h5 (l := .ret) trivial (by rw [e5, e4, e3, e2, e1, e]; decide)
  obtain ⟨s7, h7, e7⟩ := roomy_step h6 (l := .next) trivial (by rw [e6, e5, e4, e3, e2, e1, e]; decide)
  have e7 : s7.toTimers = s6.fire true := by
    apply e7.fires <;> rw [e6, e5, e4, e3, e2, e1, e] <;> decide
  refine ⟨s7, h7.of_restrict, ?_⟩
  have hf : s7.fired.map (fun f => (f.was.timeout, f.was.startId)) = [(0, u64 - 1), (0, 0)] := by
    rw [e7, e6, e5, e4, e3, e2, e1, e]
    decide
  intro hp
  have hp : (s7.fired.map fun f => (f.was.timeout, f.was.startId)).Pairwise
      fun a b => a.1 < b.1 ∨ (a.1 = b.1 ∧ a.2 < b.2) := pairwise_map.2 hp
  rw [hf] at hp
  simp at hp

/-- The two limits of `run_timers`. -/
theorem run_timers_limits :
    (¬ ∀ s : Loop ℕ, (system ℕ).Reachable s → ∀ x, (s.timers x).flags.active = true ↔ ∃! i, nodeAt s.heap i = some x) ∧
      ¬ ∀ s : Loop Bool, (system Bool).Reachable s → s.fired.Pairwise fun f g => Before f.was g.was := by
  constructor
  · intro hall
    obtain ⟨s, hs, ha, hn⟩ := full_heap_loses
    obtain ⟨i, hi, -⟩ := (hall s hs 0).1 ha
    exact hn i hi
  · intro hall
    obtain ⟨s, hs, hn⟩ := start_id_wraps
    exact hn (hall s hs)

/-! ## How long a pass takes -/

def Timers.HasFired (s : Timers α) (x : α) : Prop := x ∈ s.fired.map (·.timer)

/-- A timer that `x` may become due as: one that was there when the pass began and has
not fired in it. -/
def Timers.Waiting (s : Timers α) (x : α) : Prop := x ∈ s.initial ∧ ¬ s.HasFired x

/-- In a pass the time stands still, no start makes a timer due that has fired or is new,
and no repeating timer fires at the last moment of time. -/
def Timers.Tame (s : Timers α) : Label α → Prop
  | .start x cb timeout _ => s.pc ≠ .idle → cb ≠ none → (s.timers x).flags.isClosing = false →
    clamp s.time timeout ≤ s.time → s.Waiting x
  | .again x => s.pc ≠ .idle → (s.timers x).timerCb ≠ none → (s.timers x).flags.isClosing = false →
    (s.timers x).repeat_ ≠ 0 → clamp s.time (s.timers x).repeat_ ≤ s.time → s.Waiting x
  | .updateTime _ => s.pc = .idle
  | .next => ∀ x, s.Least x → (s.timers x).timeout ≤ s.time → (s.timers x).repeat_ ≠ 0 → s.time + 1 < u64
  | _ => True

structure Bounded (s : Timers α) : Prop where
  once : (s.fired.map (·.timer)).Nodup
  old : ∀ f ∈ s.fired, f.timer ∈ s.initial
  waiting : s.pc ≠ .idle → ∀ x, (s.timers x).flags.active = true → (s.timers x).timeout ≤ s.time → s.Waiting x

section Bounded
variable {s u : Timers α} (hs : Bounded s)
include hs

omit [DecidableEq α] in
theorem Bounded.calm (h : Calm s u) : Bounded u where
  once := h.fired ▸ hs.once
  old := by
    rw [h.fired, h.initial]
    exact hs.old
  waiting hpc x hx hd := by
    have k := h.kept x hx
    rw [k.timeout, h.time] at hd
    rw [Timers.Waiting, Timers.HasFired, h.initial, h.fired]
    exact hs.waiting (h.pc ▸ hpc) x k.active hd

omit [DecidableEq α] in
theorem Bounded.begun {x : α} {d : ℕ} (h : Begun s u x d) (hw : s.pc ≠ .idle → clamp s.time d ≤ s.time → s.Waiting x) :
    Bounded u where
  once := h.fired ▸ hs.once
  old := by
    rw [h.fired, h.initial]
    exact hs.old
  waiting hpc y hy hd := by
    rw [Timers.Waiting, Timers.HasFired, h.initial, h.fired]
    by_cases e : y = x
    · rw [e, h.timeout, h.time] at hd
      rw [e]
      exact hw (h.pc ▸ hpc) hd
    · have k := h.kept y e hy
      rw [k.timeout, h.time] at hd
      exact hs.waiting (h.pc ▸ hpc) y k.active hd

theorem Bounded.fire {x : α} (hl : Live s) (hpc : s.pc = .scanning) (hx : s.Least x) (hd : (s.timers x).timeout ≤ s.time)
    (ht : (s.timers x).repeat_ ≠ 0 → s.time + 1 < u64) : Bounded (s.fire x) := by
  have hw := hs.waiting (by rw [hpc]; nofun) x hx.1 hd
  have hrep : (s.timers x).repeat_ < u64 := hl.repeats x (hl.active x hx.1).1
  generalize hv : (s.stop x).again x = v
  have hframe : v.fired = s.fired ∧ v.initial = s.initial ∧ v.time = s.time ∧
      ∀ y, (v.timers y).flags.active = true → (v.timers y).timeout ≤ s.time → y ≠ x ∧ s.Waiting y := by
    have hkept : ∀ y, y ≠ x → Same (s.timers y) (v.timers y) → (v.timers y).timeout ≤ s.time → s.Waiting y :=
      fun y e k hy => hs.waiting (by rw [hpc]; nofun) y k.active (k.timeout ▸ hy)
    rcases fire_effect s x with ⟨h, h0⟩ | ⟨hr, h⟩ <;> rw [hv] at h
    · refine ⟨h.fired, h.initial, h.time, fun y hy hy' => ?_⟩
      have e : y ≠ x := fun e => by
        rw [hv, ← e, hy] at h0
        cases h0
      exact ⟨e, hkept y e (h.kept y hy) hy'⟩
    · refine ⟨h.fired, h.initial, h.time, fun y hy hy' => ?_⟩
      have e : y ≠ x := fun e => by
        rw [e, h.timeout, clamp_eq hl.time hrep] at hy'
        omega
      exact ⟨e, hkept y e (h.kept y e hy) hy'⟩
  obtain ⟨hf, hi, htime, hdue⟩ := hframe
  have hfire : s.fire x = { v with pc := .callback x, fired := s.fired ++ [⟨x, s.timers x, s.time⟩] } := by
    rw [← hv]
    rfl
  rw [hfire]
  constructor
  case once =>
    rw [map_append]
    exact List.Nodup.append hs.once (nodup_singleton x) (by simpa [Timers.HasFired] using hw.2)
  case old =>
    rw [hi]
    exact forall_mem_append.2 ⟨hs.old, forall_mem_singleton.2 hw.1⟩
  case waiting =>
    intro _ y hy hy'
    obtain ⟨e, h1, h2⟩ := hdue y hy (htime ▸ hy')
    refine ⟨hi ▸ h1, ?_⟩
    unfold Timers.HasFired at h2 ⊢
    rw [map_append, mem_append, not_or]
    exact ⟨h2, by simpa using e⟩

end Bounded

theorem bounded_inductive : ((timerSet α).restrict Timers.Tame).Inductive fun s => Live s ∧ Bounded s := by
  refine (live_inductive.restrict _).with_ ?_ ?_
  · rintro s ⟨-, -, -, hpc, hf, -, -⟩
    refine ⟨?_, ?_, fun h => absurd hpc h⟩ <;> simp [hf]
  · rintro s l u hl hs ⟨hc, ha, hu⟩
    cases l with
    | init x =>
      cases hu
      have h := hs.calm (calm_put s x (t := { s.timers x with
        flags := handleInit, timerCb := none, timeout := 0, repeat_ := 0 }) nofun)
      exact ⟨h.once, h.old, h.waiting⟩
    | start x cb timeout repeat_ =>
      cases hu
      rcases start_effect s x cb timeout repeat_ with e | ⟨hcb, hb⟩
      · rw [e]
        exact hs
      · exact hs.begun hb fun hpc hd => hc hpc hcb hb.was hd
    | stop x =>
      cases hu
      exact hs.calm (calm_stop s x)
    | again x =>
      cases hu
      rcases again_effect s x with h | ⟨hcb, hr, h⟩
      · exact hs.calm h
      · exact hs.begun h fun hpc hd => hc hpc hcb h.was hr hd
    | setRepeat x r =>
      cases hu
      exact hs.calm (calm_put s x fun h => ⟨h, rfl, rfl, rfl, rfl, rfl⟩)
    | close x =>
      cases hu
      exact hs.calm (calm_close s x)
    | finishClose x =>
      cases hu
      have hx := hl.not_active ha.2.2
      exact hs.calm (calm_finishClose s x hx)
    | updateTime t =>
      cases hu
      exact ⟨hs.once, hs.old, fun hpc => absurd hc hpc⟩
    | run =>
      cases hu
      exact ⟨nodup_nil, nofun, fun _ x hx _ => ⟨(hl.active x hx).1, nofun⟩⟩
    | next =>
      cases hu with
      | empty | early => exact ⟨hs.once, hs.old, fun h => absurd rfl h⟩
      | due hx hd => exact hs.fire hl ha hx hd fun hr => hc _ hx hd hr
    | ret =>
      cases hu
      exact ⟨hs.once, hs.old, fun _ => hs.waiting ha.1⟩

def rounds (ls : List (Label α)) : ℕ :=
  ls.foldl (fun n l => match l with | .run => 0 | .next => n + 1 | _ => n) 0

omit [DecidableEq α] in
theorem rounds_snoc (ls : List (Label α)) (l : Label α) :
    rounds (ls ++ [l]) = match l with | .run => 0 | .next => rounds ls + 1 | _ => rounds ls := by
  unfold rounds
  rw [foldl_append]
  cases l <;> rfl

/-- Every round but the last of a pass calls a callback. -/
structure Rounds (ls : List (Label α)) (s : Timers α) : Prop where
  last : rounds ls ≤ s.fired.length + 1
  pass : s.pc ≠ .idle → rounds ls = s.fired.length

omit [DecidableEq α] in
theorem Rounds.frame {ls ls' : List (Label α)} {s u : Timers α} (h : Rounds ls s) (he : rounds ls' = rounds ls)
    (hf : u.fired = s.fired) (hpc : u.pc = .idle ∨ s.pc ≠ .idle) : Rounds ls' u := by
  constructor
  · rw [he, hf]
    exact h.last
  · intro hi
    rw [he, hf]
    exact h.pass (hpc.resolve_left hi)

theorem Rounds.same {ls ls' : List (Label α)} {s u : Timers α} (h : Rounds ls s) (he : rounds ls' = rounds ls)
    (hf : Frame s u) : Rounds ls' u :=
  h.frame he hf.fired (by rw [hf.pc]; exact Decidable.em _)

theorem rounds_inductive {D : Timers α → Label α → Prop} : ((timerSet α).restrict D).TraceInductive Rounds where
  init := by
    rintro s ⟨-, -, -, hpc, hf, -, -⟩
    exact ⟨by simp [rounds], fun h => absurd hpc h⟩
  step := by
    rintro ls s l u h ⟨-, ha, hu⟩
    have he := rounds_snoc ls l
    cases l with
    | init x =>
      cases hu
      exact h.same he ⟨rfl, rfl, rfl, rfl⟩
    | start x cb timeout repeat_ =>
      cases hu
      rcases start_effect s x cb timeout repeat_ with e | ⟨-, hb⟩
      · rw [e]
        exact h.same he ⟨rfl, rfl, rfl, rfl⟩
      · exact h.same he hb.toFrame
    | stop x =>
      cases hu
      exact h.same he ⟨rfl, rfl, rfl, rfl⟩
    | again x =>
      cases hu
      rcases again_effect s x with hc | ⟨-, -, hb⟩
      · exact h.same he hc.toFrame
      · exact h.same he hb.toFrame
    | setRepeat x r | close x | finishClose x =>
      cases hu
      exact h.same he ⟨rfl, rfl, rfl, rfl⟩
    | updateTime t =>
      cases hu
      exact h.frame he rfl (Decidable.em _)
    | run =>
      cases hu
      exact ⟨by rw [he]; exact Nat.zero_le _, fun _ => he⟩
    | next =>
      have hn : rounds (ls ++ [.next]) = s.fired.length + 1 := he.trans (congrArg (· + 1) (h.pass (by rw [ha]; nofun)))
      cases hu with
      | empty | early => exact ⟨hn.le, fun h => absurd rfl h⟩
      | due hx hd =>
        have hlen : ∀ x, (s.fire x).fired.length = s.fired.length + 1 := fun x => by simp [Timers.fire]
        exact ⟨by rw [hn, hlen]; exact Nat.le_succ _, fun _ => by rw [hn, hlen]⟩
    | ret =>
      cases hu
      exact h.frame he rfl (.inr ha.1)

/-- The heap has room, and the callbacks are tame. -/
def Loop.Tame (s : Loop α) (l : Label α) : Prop := s.HeapRoom l ∧ s.toTimers.Tame l

/-- **A pass ends.** When no callback makes a timer due that has fired in the pass or is
new, each timer fires at most once in it, it takes at most one round more than there were
timers, and no round fails to return. -/
theorem run_timers_bounded {s : Loop α} {ls : List (Label α)} (h : ((system α).restrict Loop.Tame).History ls s) :
    (s.fired.map (·.timer)).Nodup ∧ (∀ f ∈ s.fired, f.timer ∈ s.initial) ∧ rounds ls ≤ s.initial.length + 1 ∧
      (s.pc = .scanning → ∃ t, step s .next = some t) := by
  obtain ⟨hr, hok⟩ := history_refines (fun _ _ => id) h
  obtain ⟨hl, hb⟩ := bounded_inductive.reachable ⟨ls, hr⟩
  have hlen : s.fired.length ≤ s.initial.length := by
    have hsub : s.fired.map (·.timer) ⊆ s.initial := fun x hx => by
      obtain ⟨f, hf, rfl⟩ := mem_map.1 hx
      exact hb.old f hf
    simpa using (hb.once.subperm hsub).length_le
  have hrounds := (rounds_inductive.run hr).last
  refine ⟨hb.once, hb.old, by omega, fun hpc => ?_⟩
  obtain ⟨t, ht, -⟩ := step_spec hok (fun x hx => (hl.active x hx).1) (l := .next) hpc trivial
  exact ⟨t, ht⟩

instance (s : Timers α) (x : α) : Decidable (s.Waiting x) := inferInstanceAs (Decidable (_ ∈ _ ∧ ¬_ ∈ _))

instance [Fintype α] (s : Timers α) (l : Label α) : Decidable (s.Tame l) :=
  match l with
  | .start x cb timeout _ => inferInstanceAs (Decidable (s.pc ≠ .idle → cb ≠ none →
      (s.timers x).flags.isClosing = false → clamp s.time timeout ≤ s.time → s.Waiting x))
  | .again x => inferInstanceAs (Decidable (s.pc ≠ .idle → (s.timers x).timerCb ≠ none →
      (s.timers x).flags.isClosing = false → (s.timers x).repeat_ ≠ 0 → clamp s.time (s.timers x).repeat_ ≤ s.time →
      s.Waiting x))
  | .updateTime _ => inferInstanceAs (Decidable (s.pc = .idle))
  | .next => inferInstanceAs (Decidable (∀ x, s.Least x → (s.timers x).timeout ≤ s.time → (s.timers x).repeat_ ≠ 0 →
      s.time + 1 < u64))
  | .init _ | .stop _ | .setRepeat _ _ | .close _ | .finishClose _ | .run | .ret => inferInstanceAs (Decidable True)

/-- Two timers are due; the first stops the second in its callback, and the pass takes two
rounds. -/
theorem run_timers_bounded_two : ∃ (s : Loop Bool) (ls : List (Label Bool)), s.fired.map (·.timer) = [true] ∧ rounds ls = 2 ∧
    (s.fired.map (·.timer)).Nodup ∧ rounds ls ≤ s.initial.length + 1 := by
  have tame : ∀ {s : Loop Bool} {ls l}, ((system Bool).restrict Loop.Tame).History ls s → s.toTimers.Tame l → s.Tame l :=
    fun h hc => ⟨(history_refines (fun _ _ => id) h).2.heapRoom (by decide) _, hc⟩
  have h0 : ((system Bool).restrict Loop.Tame).History [] ⟨Timers.blank Bool, heapInit fun _ => ⟨none, none, none⟩⟩ :=
    .nil ⟨blank_start, _, rfl⟩
  have go : ∀ {ls} {s : Loop Bool} {l}, ((system Bool).restrict Loop.Tame).History ls s → s.Tame l → s.Allowed l →
      ∃ t, ((system Bool).restrict Loop.Tame).History (ls ++ [l]) t ∧ step s l = some t ∧ s.After l t.toTimers :=
    fun h => history_step (fun _ _ => id) h
  obtain ⟨s1, h1, -, e1⟩ := go (l := .init true) h0 (tame h0 trivial) (by decide)
  obtain ⟨s2, h2, -, e2⟩ := go (l := .init false) h1 (tame h1 trivial) (by rw [e1]; decide)
  obtain ⟨s3, h3, -, e3⟩ := go (l := .start true (some 0) 0 0) h2 (tame h2 (by rw [e2, e1]; decide)) (by rw [e2, e1]; decide)
  obtain ⟨s4, h4, -, e4⟩ := go (l := .start false (some 0) 0 0) h3 (tame h3 (by rw [e3, e2, e1]; decide))
    (by rw [e3, e2, e1]; decide)
  obtain ⟨s5, h5, -, e5⟩ := go (l := .run) h4 (tame h4 trivial) (by rw [e4, e3, e2, e1]; decide)
  obtain ⟨s6, h6, -, e6⟩ := go (l := .next) h5 (tame h5 (by rw [e5, e4, e3, e2, e1]; decide)) (by rw [e5, e4, e3, e2, e1]; decide)
  have e6 : s6.toTimers = s5.fire true := by
    apply e6.fires <;> rw [e5, e4, e3, e2, e1] <;> decide
  obtain ⟨s7, h7, -, e7⟩ := go (l := .stop false) h6 (tame h6 trivial) (by rw [e6, e5, e4, e3, e2, e1]; decide)
  obtain ⟨s8, h8, -, e8⟩ := go (l := .ret) h7 (tame h7 trivial) (by rw [e7, e6, e5, e4, e3, e2, e1]; decide)
  obtain ⟨s9, h9, -, e9⟩ := go (l := .next) h8 (tame h8 (by rw [e8, e7, e6, e5, e4, e3, e2, e1]; decide))
    (by rw [e8, e7, e6, e5, e4, e3, e2, e1]; decide)
  obtain ⟨k1, -, k3, -⟩ := run_timers_bounded h9
  have hnone : ∀ x, (s8.timers x).flags.active = false := by
    rw [e8, e7, e6, e5, e4, e3, e2, e1]
    decide
  refine ⟨s9, _, ?_, rfl, k1, k3⟩
  rw [e9.ends hnone, e8, e7, e6, e5, e4, e3, e2, e1]
  decide

/-- The pass has fired the one timer `n` times and it is due again. -/
structure Restarted (n : ℕ) (s : Timers Unit) : Prop where
  pc : s.pc = .scanning
  time : s.time = 0
  known : s.known = [()]
  initial : s.initial = [()]
  fired : s.fired.map (·.timer) = List.replicate n ()
  active : (s.timers ()).flags.active = true
  closing : (s.timers ()).flags.isClosing = false
  timeout : (s.timers ()).timeout = 0
  repeat_ : (s.timers ()).repeat_ = 0

theorem Restarted.again {n : ℕ} {s : Loop Unit} (h : (roomySystem Unit).Reachable s) (hs : Restarted n s.toTimers) :
    ∃ t : Loop Unit, (roomySystem Unit).Reachable t ∧ Restarted (n + 1) t.toTimers := by
  have room : ∀ {s : Loop Unit} l, (roomySystem Unit).Reachable s → s.HeapRoom l := fun l h =>
    (roomy_refines h).2.heapRoom (by decide) l
  have hleast : s.Least () := ⟨hs.active, fun _ _ => by simp [Timers.lessThan, timerLessThan]⟩
  have hagain : (s.stop ()).again () = s.stop () := by simp [Timers.again, hs.repeat_]
  obtain ⟨s1, h1, e1⟩ := roomy_step h (l := .next) trivial hs.pc
  have e1 : s1.toTimers = s.fire () := e1.fires hleast (fun _ _ => rfl) (by rw [hs.timeout]; exact Nat.zero_le _)
  have e1 : s1.toTimers = { s.stop () with pc := .callback (), fired := s.fired ++ [⟨(), s.timers (), s.time⟩] } := by
    rw [e1, Timers.fire, hagain]
  have hself : s1.timers () = (s.stop ()).timers () := congrArg (fun t => t.timers ()) e1
  have hclosing : (s1.timers ()).flags.isClosing = false := by
    rw [hself, stop_isClosing, hs.closing]
  have hinact : (s1.timers ()).flags.active = false := by
    rw [hself]
    simp
  have hknown : s1.known = [()] := (congrArg Timers.known e1).trans hs.known
  obtain ⟨s2, h2, e2⟩ := roomy_step h1 (room (.start () (some 0) 0 0) h1) (by
    rw [Timers.Allowed, hknown, e1]
    exact ⟨by simp, mem_singleton_self _, Nat.two_pow_pos 64, Nat.two_pow_pos 64⟩)
  have e2 : s2.toTimers = s1.begin_ () 0 0 0 := by
    rw [← s1.toTimers.stop_inactive hinact, ← Timers.start_open _ hclosing]
    exact e2
  have htime : s1.time = 0 := (congrArg Timers.time e1).trans hs.time
  obtain ⟨s3, h3, e3⟩ := roomy_step h2 (l := .ret) trivial (by
    rw [e2, Timers.begin_]
    dsimp only [Timers.put]
    rw [e1]
    exact ⟨by simp, by simp⟩)
  have e3 : s3.toTimers = { s1.begin_ () 0 0 0 with pc := .scanning } := by
    rw [← e2]
    exact e3
  refine ⟨s3, h3, ?_⟩
  rw [e3]
  constructor
  all_goals dsimp only [Timers.begin_, Timers.put]
  case time => exact htime
  case known => exact hknown
  case initial => exact (congrArg Timers.initial e1).trans hs.initial
  case fired =>
    rw [e1, replicate_succ', ← hs.fired]
    simp
  all_goals simp [htime, hclosing, clamp]

theorem restarted (n : ℕ) : ∃ s : Loop Unit, (roomySystem Unit).Reachable s ∧ Restarted n s.toTimers := by
  induction n with
  | zero =>
    have h0 : (roomySystem Unit).Reachable ⟨Timers.blank Unit, heapInit fun _ => ⟨none, none, none⟩⟩ :=
      .init ⟨blank_start, _, rfl⟩
    obtain ⟨s1, h1, e1⟩ := roomy_step h0 (l := .init ()) trivial (by decide)
    obtain ⟨s2, h2, e2⟩ := roomy_step h1 (l := .start () (some 0) 0 0) ((roomy_refines h1).2.heapRoom (by decide) _)
      (by rw [e1]; decide)
    obtain ⟨s3, h3, e3⟩ := roomy_step h2 (l := .run) trivial (by rw [e2, e1]; decide)
    refine ⟨s3, h3, ?_⟩
    rw [e3, e2, e1]
    constructor <;> rfl
  | succ n ih =>
    obtain ⟨s, h, hs⟩ := ih
    exact hs.again h

/-- **A pass need not end.** A timer that starts itself with timeout 0 in its callback fires
any number of times in one pass. -/
theorem restart_repeats : (¬ ∀ s : Loop Unit, (system Unit).Reachable s → (s.fired.map (·.timer)).Nodup) ∧
    ∀ n, ∃ s : Loop Unit, (system Unit).Reachable s ∧ s.pc = .scanning ∧ s.initial = [()] ∧ s.fired.length = n := by
  constructor
  · intro hall
    obtain ⟨s, h, hs⟩ := restarted 2
    have := hall s h.of_restrict
    rw [hs.fired] at this
    exact absurd this (by decide)
  · intro n
    obtain ⟨s, h, hs⟩ := restarted n
    exact ⟨s, h.of_restrict, hs.pc, hs.initial, by simpa using congrArg List.length hs.fired⟩

end Libuv.L2.Timer
