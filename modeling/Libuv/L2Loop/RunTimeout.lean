import Libuv.L2Loop.Run

/-!
# What `uv_run` waits for

The timers of the loop are those of `timer.c` in every run, with the operations of the
callbacks between the phases (`Sound`), and `r` is whether the loop is alive when the loop condition is
reached.

* `run_timeout`: `uv_run` waits only if there is nothing to do, not beyond the earliest timer, and returns whether the
  loop is alive, while no more than 2^32 - 1 timers are active.
* `waits_for_due`: otherwise it waits with a timer due.
-/
namespace Libuv.L2.Run
open Option
open Handle (Flags uintMax handleInit handleStart handleStop handleRef handleUnref)
open Libuv.L1.HeapInl (heapMin heapInit HeapNode)
open Timer (u64)

variable {α : Type*} [DecidableEq α]

/-! ## The timers of the loop -/

structure Sound (t : Timer.Loop α) : Prop where
  ok : t.Ok
  live : Timer.Live t.toTimers

namespace Sound
variable {t u : Timer.Loop α} (hs : Sound t)
include hs

theorem step {l : Timer.Label α} (hr : t.HeapRoom l) (h : Timer.step t l = some u) : Sound u := by
  have ha := Timer.step_allowed h
  obtain ⟨v, hv, hafter, hok⟩ := Timer.step_spec hs.ok (fun x hx => (hs.live.active x hx).1) ha hr
  rw [h] at hv
  cases hv
  exact ⟨hok, Timer.live_inductive.step _ l _ hs.live ⟨ha, hafter⟩⟩

omit [DecidableEq α] in
theorem setActive (n : ℕ) : Sound { t with activeHandles := n } :=
  ⟨hs.ok.keep (fun _ => rfl) fun _ _ => ⟨rfl, rfl, rfl⟩, hs.live.time, hs.live.active, hs.live.repeats⟩

theorem setFlags {x : α} {f : Flags} (ha : f.active = (t.timers x).flags.active)
    (hc : f.isClosing = (t.timers x).flags.isClosing) :
    Sound { t with toTimers := t.put x { t.timers x with flags := f } } := by
  have hcalm : Timer.Calm t.toTimers (t.put x { t.timers x with flags := f }) :=
    Timer.calm_put _ x fun h => ⟨ha ▸ h, hc, rfl, rfl, rfl, rfl⟩
  refine ⟨hs.ok.keep (fun y => ?_) fun y _ => ?_, hs.live.calm hcalm rfl fun y hy => ?_⟩
  all_goals
    by_cases e : y = x
    · subst e
      simp [Timer.Timers.put, hs.live.repeats, *]
    · simp [Timer.Timers.put, hs.live.repeats, *]

end Sound

variable {s t : Loop α}

def Room (s : Loop α) : Label α → Prop
  | .timer l => s.timer.HeapRoom l
  | _ => True

theorem onTimer_sound (hs : Sound s.timer) {l : Timer.Label α} (hr : s.timer.HeapRoom l) (h : s.onTimer l = some t) :
    Sound t.timer ∧ ∃ u, t = { s with timer := u } := by
  obtain ⟨u, hu, rfl⟩ := map_eq_some_iff.1 h
  exact ⟨hs.step hr hu, u, rfl⟩

variable {h : Name α} {l : Label α} {now : ℕ}

theorem flag_sound (hs : Sound s.timer) (hh : ∀ x, h ≠ .timer x) (m : Flags → ℕ → Flags × ℕ) :
    Sound (s.flag h m).timer := by
  cases h with
  | timer x => exact absurd rfl (hh x)
  | watcher k i | other i => exact hs.setActive _

theorem ref_sound (hs : Sound s.timer) {m : Flags → ℕ → Flags × ℕ}
    (hm : ∀ f n, (m f n).1.active = f.active ∧ (m f n).1.isClosing = f.isClosing) : Sound (s.flag h m).timer := by
  cases h with
  | timer x => exact (hs.setFlags (hm _ _).1 (hm _ _).2).setActive _
  | watcher k i | other i => exact hs.setActive _

theorem flag_pc (h : Name α) (m : Flags → ℕ → Flags × ℕ) : (s.flag h m).pc = s.pc := by
  cases h <;> rfl

/-! ## Calls of the API -/

/-- The timers are sound, and `uv_run` is where it was. -/
def Keeps (s t : Loop α) : Prop := Sound t.timer ∧ t.pc = s.pc

theorem watcherStop_keeps (hs : Sound s.timer) (k : Kind) (i : ℕ) : Keeps s (s.watcherStop k i) := by
  unfold Loop.watcherStop
  split
  · exact ⟨hs, rfl⟩
  · exact ⟨flag_sound (s := s.put k _) (h := .watcher k i) hs nofun _, flag_pc (s := s.put k _) _ _⟩

omit [DecidableEq α] in
theorem makeClosePending_keeps (hs : Sound s.timer) (ht : s.makeClosePending h = some t) : Keeps s t := by
  unfold Loop.makeClosePending at ht
  split at ht
  · cases ht
    exact ⟨hs, rfl⟩
  · cases ht

theorem uvClose_keeps (hs : Sound s.timer) {later : Bool} (ht : s.uvClose h later = some t) : Keeps s t := by
  unfold Loop.uvClose at ht
  split at ht
  · cases ht
  · obtain ⟨u, hu, ht⟩ := bind_eq_some_iff.1 ht
    have hk : Keeps s u := by
      cases h with
      | timer x =>
        obtain ⟨h1, v, rfl⟩ := onTimer_sound hs (l := .close x) trivial hu
        exact ⟨h1, rfl⟩
      | watcher k i =>
        cases hu
        exact watcherStop_keeps (s := s.put k _) hs k i
      | other i =>
        cases hu
        exact ⟨hs.setActive _, rfl⟩
    split at ht
    · cases ht
      exact hk
    · have := makeClosePending_keeps hk.1 ht
      exact ⟨this.1, this.2.trans hk.2⟩

theorem handleRef_same (f : Flags) (n : ℕ) : (handleRef f n).1.active = f.active ∧ (handleRef f n).1.isClosing = f.isClosing := by
  unfold handleRef
  split
  · exact ⟨rfl, rfl⟩
  · dsimp only
    split <;> exact ⟨rfl, rfl⟩

theorem handleUnref_same (f : Flags) (n : ℕ) :
    (handleUnref f n).1.active = f.active ∧ (handleUnref f n).1.isClosing = f.isClosing := by
  unfold handleUnref
  split
  · exact ⟨rfl, rfl⟩
  · dsimp only
    split <;> exact ⟨rfl, rfl⟩

theorem call_spec (hs : Sound s.timer) (hr : Room s l) (ht : s.call l = some t) : Keeps s t := by
  cases l with
  | timer l =>
    simp only [Loop.call] at ht
    split at ht
    · obtain ⟨h, u, rfl⟩ := onTimer_sound hs hr ht
      exact ⟨h, rfl⟩
    · cases ht
  | watcherStart k i cb =>
    simp only [Loop.call] at ht
    split at ht
    · cases ht
    · cases ht
      unfold Loop.watcherStart
      split
      · exact ⟨hs, rfl⟩
      · split
        · exact ⟨hs, rfl⟩
        · exact ⟨flag_sound (s := s.put k _) (h := .watcher k i) hs nofun _, flag_pc (s := s.put k _) _ _⟩
  | watcherStop k i =>
    cases ht
    exact watcherStop_keeps hs k i
  | otherStart i =>
    simp only [Loop.call] at ht
    split at ht
    · cases ht
    · cases ht
      exact ⟨hs.setActive _, rfl⟩
  | otherStop i =>
    cases ht
    exact ⟨hs.setActive _, rfl⟩
  | ref h =>
    cases ht
    exact ⟨ref_sound hs handleRef_same, flag_pc h _⟩
  | unref h =>
    cases ht
    exact ⟨ref_sound hs handleUnref_same, flag_pc h _⟩
  | close h later =>
    simp only [Loop.call] at ht
    split at ht
    · split at ht
      · exact uvClose_keeps hs ht
      · cases ht
    · exact uvClose_keeps hs ht
  | closePending i =>
    simp only [Loop.call] at ht
    split at ht
    · cases ht
    · exact makeClosePending_keeps hs ht
  | unregister =>
    simp only [Loop.call] at ht
    split at ht
    · cases ht
    · cases ht
      exact ⟨hs, rfl⟩
  | feed w =>
    cases ht
    unfold Loop.ioFeed
    split <;> exact ⟨hs, rfl⟩
  | register | ioClose | stop =>
    cases ht
    exact ⟨hs, rfl⟩
  | run | next => cases ht

/-! ## The timeout -/

omit [DecidableEq α] in
theorem nextTimeout_spec (hs : s.timer.Ok) :
    (s.nextTimeout = -1 ∧ ∀ x, (s.timer.timers x).flags.active = false) ∨
      0 ≤ s.nextTimeout ∧ s.nextTimeout ≤ intMax ∧ ∀ x, (s.timer.timers x).flags.active = true →
        s.nextTimeout ≤ ((s.timer.timers x).timeout - s.timer.time : ℕ) ∧
          (s.nextTimeout ≠ 0 → s.timer.time < (s.timer.timers x).timeout) := by
  unfold Loop.nextTimeout
  cases hm : heapMin s.timer.heap with
  | none => exact .inl ⟨rfl, hs.none_active hm⟩
  | some x =>
    have hmin : ∀ y, (s.timer.timers y).flags.active = true → (s.timer.timers x).timeout ≤ (s.timer.timers y).timeout := by
      intro y hy
      have hless := (hs.least hm).2 y hy
      by_contra hlt
      simp [Timer.Timers.lessThan, Timer.timerLessThan, Nat.lt_of_not_le hlt] at hless
    right
    dsimp only
    split
    · exact ⟨le_rfl, Int.natCast_nonneg _, fun y _ => ⟨Int.natCast_nonneg _, fun h => absurd rfl h⟩⟩
    · next hlt =>
      refine ⟨Int.natCast_nonneg _, by exact_mod_cast Nat.min_le_right _ _, fun y hy => ⟨?_, fun _ => ?_⟩⟩
      · have := hmin y hy
        have : min ((s.timer.timers x).timeout - s.timer.time) intMax ≤ (s.timer.timers y).timeout - s.timer.time := by omega
        exact_mod_cast this
      · have := hmin y hy
        omega

/-- What is known when `uv__io_poll` is called. -/
structure Passes (t : Loop α) (timeout : ℤ) : Prop where
  nothing : timeout ≠ 0 → t.stopFlag = false ∧ t.pendingQueue = [] ∧ (t.watchers .idle).handles = [] ∧
    t.closingHandles = [] ∧ (0 < t.timer.activeHandles ∨ 0 < t.activeReqs) ∧
    ∀ x, (t.timer.timers x).flags.active = true → t.timer.time < (t.timer.timers x).timeout
  forever : timeout = -1 → ∀ x, (t.timer.timers x).flags.active = false
  early : ∀ x, (t.timer.timers x).flags.active = true → timeout ≤ ((t.timer.timers x).timeout - t.timer.time : ℕ)
  range : -1 ≤ timeout ∧ timeout ≤ intMax
  noWait : t.mode = .noWait → timeout = 0

omit [DecidableEq α] in
theorem passes_zero (s : Loop α) : Passes s 0 :=
  ⟨fun h => absurd rfl h, nofun, fun _ _ => Int.natCast_nonneg _, ⟨by decide, Int.natCast_nonneg _⟩, fun _ => rfl⟩

omit [DecidableEq α] in
theorem enterPoll_passes (hs : s.timer.Ok) : ∃ timeout, s.enterPoll = { s with pc := .poll timeout } ∧ Passes s timeout := by
  refine ⟨_, rfl, ?_⟩
  split
  · next hmode =>
    have hwait : s.mode ≠ .noWait := by
      rintro h
      rw [h] at hmode
      rcases hmode with ⟨h, -⟩ | h <;> cases h
    unfold Loop.backendTimeout
    split
    · next hc =>
      obtain ⟨h1, h2, h3, h4, h5⟩ := hc
      rcases nextTimeout_spec hs with ⟨he, hno⟩ | ⟨h0, hmax, hall⟩
      · rw [he]
        refine ⟨fun _ => ⟨h1, h3, h4, h5, h2, fun x hx => ?_⟩, fun _ => hno, fun x hx => ?_, ⟨le_rfl, by decide⟩, fun h => absurd h hwait⟩
        · rw [hno x] at hx
          cases hx
        · rw [hno x] at hx
          cases hx
      · exact ⟨fun hne => ⟨h1, h3, h4, h5, h2, fun x hx => (hall x hx).2 hne⟩, fun h => by omega, fun x hx => (hall x hx).1,
          ⟨by omega, hmax⟩, fun h => absurd h hwait⟩
    · exact passes_zero s
  · exact passes_zero s

/-! ## `uv_run` -/

structure Inv (s : Loop α) : Prop where
  timer : Sound s.timer
  top : ∀ r, s.pc = .top r → r = s.loopAlive

/-- What a step of `uv_run` leads to. -/
structure Goes (t : Loop α) : Prop extends Inv t where
  poll : ∀ timeout, t.pc = .poll timeout → Passes t timeout
  out : t.pc = .out → ∃ r, t.result = some r ∧ (r = false ↔ t.loopAlive = false)

/-- A place inside of `uv_run`, other than the loop condition and the poll. -/
def Pc.within : Pc → Bool
  | .out | .top _ | .poll _ => false
  | _ => true

omit [DecidableEq α] in
theorem Goes.within (hs : Sound t.timer) (h : t.pc.within = true) : Goes t := by
  refine ⟨⟨hs, fun r hp => ?_⟩, fun u hp => ?_, fun hp => ?_⟩
  all_goals
    rw [hp] at h
    cases h

omit [DecidableEq α] in
theorem enterPending_goes (hs : Sound s.timer) : Goes s.enterPending := by
  unfold Loop.enterPending
  split
  · exact .within hs rfl
  · exact .within hs rfl

omit [DecidableEq α] in
theorem bottom_goes (hs : Sound s.timer) : Goes s.bottom := by
  unfold Loop.bottom
  split
  · exact ⟨⟨hs, nofun⟩, nofun, fun _ => ⟨_, rfl, Iff.rfl⟩⟩
  · refine ⟨⟨hs, fun r h => ?_⟩, nofun, nofun⟩
    cases h
    rfl

theorem enterTimers_goes (hs : Sound s.timer) {last : Bool} (ht : s.enterTimers now last = some t) : Goes t := by
  obtain ⟨u, hu, ht⟩ := bind_eq_some_iff.1 ht
  obtain ⟨v, hv, rfl⟩ := map_eq_some_iff.1 ht
  obtain ⟨hu, -⟩ := onTimer_sound hs (l := .updateTime now) trivial hu
  obtain ⟨hv, -⟩ := onTimer_sound hu (l := .run) trivial hv
  exact .within hv rfl

theorem finishClose_goes (hs : Sound s.timer) (hpc : s.pc.within = true) {again : Bool}
    (ht : s.finishClose h again = some t) : Goes t := by
  unfold Loop.finishClose at ht
  split at ht
  · cases h with
    | timer x =>
      obtain ⟨u, hu, rfl⟩ := map_eq_some_iff.1 ht
      exact .within (onTimer_sound hs (l := .finishClose x) trivial hu).1 rfl
    | watcher k i =>
      cases ht
      exact .within (flag_sound (h := .watcher k i) hs nofun Handle.finishClose) rfl
    | other i =>
      dsimp only at ht
      split at ht
      · have := makeClosePending_keeps hs ht
        exact .within this.1 (this.2 ▸ hpc)
      · cases ht
        exact .within (flag_sound (h := .other i) hs nofun Handle.finishClose) rfl
  · cases ht

theorem next_spec (hs : Inv s) {again : Bool} (ht : s.next now again = some t) : Goes t := by
  unfold Loop.next at ht
  split at ht
  · cases ht
  · next r hpc =>
    split at ht
    · exact enterTimers_goes hs.timer ht
    · cases ht
      refine ⟨⟨hs.timer, nofun⟩, nofun, fun _ => ⟨r, rfl, ?_⟩⟩
      rw [hs.top r hpc]
      exact Iff.rfl
  · next last hpc =>
    obtain ⟨u, hu, rfl⟩ := map_eq_some_iff.1 ht
    have hsound : Sound u.timer ∧ u.pc = s.pc := by
      split at hu
      · obtain ⟨h, v, rfl⟩ := onTimer_sound hs.timer (l := .ret) trivial hu
        exact ⟨h, rfl⟩
      · obtain ⟨h, v, rfl⟩ := onTimer_sound hs.timer (l := .next) trivial hu
        exact ⟨h, rfl⟩
    split
    · split
      · exact bottom_goes hsound.1
      · exact enterPending_goes hsound.1
    · exact .within hsound.1 (by rw [hsound.2, hpc]; rfl)
  · split at ht <;> cases ht <;> exact .within hs.timer rfl
  · cases ht
    exact .within hs.timer rfl
  · split at ht
    · split at ht
      · cases ht
        exact .within hs.timer rfl
      · cases ht
        obtain ⟨u, he, hp⟩ := enterPoll_passes hs.timer.ok
        rw [he]
        refine ⟨⟨hs.timer, nofun⟩, fun v hv => ?_, nofun⟩
        cases hv
        exact ⟨hp.nothing, hp.forever, hp.early, hp.range, hp.noWait⟩
      · cases ht
        exact .within hs.timer rfl
    · cases ht
      exact .within hs.timer rfl
  · cases ht
    exact .within hs.timer rfl
  · cases ht
    exact .within hs.timer rfl
  · next hpc =>
    split at ht
    · split at ht
      · exact enterTimers_goes hs.timer ht
      · cases ht
        exact bottom_goes hs.timer
    · next h rest _ => exact finishClose_goes (s := { s with detached := rest }) hs.timer (by rw [hpc]; rfl) ht
  · cases ht
    exact .within hs.timer rfl

theorem run_goes (hs : Inv s) {mode : Mode} (ht : s.run mode now = some t) : Goes t := by
  obtain ⟨u, hu, rfl⟩ := map_eq_some_iff.1 ht
  split at hu
  · cases hu
    refine ⟨⟨hs.timer, fun r h => ?_⟩, nofun, nofun⟩
    cases h
    rfl
  · obtain ⟨h, v, rfl⟩ := onTimer_sound hs.timer (l := .updateTime now) trivial hu
    -- `uv__update_time` does not make a loop alive
    have hv : v.activeHandles = s.timer.activeHandles := by
      obtain ⟨w, hw, he⟩ := map_eq_some_iff.1 hu
      unfold Timer.step at hw
      split at hw
      · cases hw
        exact congrArg (fun s : Loop α => s.timer.activeHandles) he.symm
      · cases hw
    refine ⟨⟨h, fun r h => ?_⟩, nofun, nofun⟩
    cases h
    unfold Loop.loopAlive
    rw [hv]

theorem step_spec (hs : Inv s) (hr : Room s l) (ht : step s l = some t) :
    (Keeps s t ∧ s.isUser = true) ∨ Goes t := by
  have call : ∀ {l : Label α}, Room s l → (if s.isUser then s.call l else none) = some t → Keeps s t ∧ s.isUser = true := by
    intro l hr h
    split at h
    · exact ⟨call_spec hs.timer hr h, ‹_›⟩
    · cases h
  cases l with
  | run mode now =>
    simp only [step] at ht
    split at ht
    · exact .inr (run_goes hs ht)
    · cases ht
  | next now again => exact .inr (next_spec hs ht)
  | _ => exact .inl (call hr ht)

theorem inv_step (hs : Inv s) (hr : Room s l) (ht : step s l = some t) : Inv t := by
  rcases step_spec hs hr ht with ⟨h, hu⟩ | h
  · refine ⟨h.1, fun r hpc => ?_⟩
    rw [h.2] at hpc
    rw [Loop.isUser, hpc] at hu
    cases hu
  · exact h.toInv

theorem initial_inv (h : (system α).init s) : Inv s := by
  obtain ⟨t, ⟨hstart, mem, hmem⟩, rfl⟩ := h
  exact ⟨⟨Timer.start_ok hstart hmem, Timer.live_inductive.init _ hstart⟩, nofun⟩

/-- **What `uv_run` waits for**: in every run in which no more than 2^32 - 1 timers are active, whatever the
callbacks did, a call of `uv__io_poll` with a timeout other than 0 finds `stop_flag` 0, no pending watcher, no idle handle,
no closing handle, an active handle or request and no timer due; the timeout is -1 only if no timer is active, does not
exceed the time to any timer, and is 0 in mode `UV_RUN_NOWAIT`; and `uv_run` returns 0 if and only if the loop
is not alive then. -/
theorem run_timeout (h : ((system α).restrict Room).Reachable s) {l : Label α} (ht : ((system α).restrict Room).step s l t) :
    (∀ timeout, t.pc = .poll timeout → t.pc ≠ s.pc → Passes t timeout) ∧
      (t.pc = .out → s.pc ≠ .out → ∃ r, t.result = some r ∧ (r = false ↔ t.loopAlive = false)) := by
  have hi : ((system α).restrict Room).Inductive Inv :=
    ⟨fun s (hs : (system α).init s) => initial_inv hs, fun s l t hs ht => inv_step hs ht.1 ht.2⟩
  rcases step_spec (hi.reachable h) ht.1 ht.2 with ⟨hk, -⟩ | hg
  · exact ⟨fun u _ hne => absurd hk.2 hne, fun hp hne => absurd (hk.2.symm.trans hp) hne⟩
  · exact ⟨fun u hp _ => hg.poll u hp, fun hp _ => hg.out hp⟩

theorem small_reachable [Fintype α] (hcard : Fintype.card α + 1 < 2 ^ 32) (h : (system α).Reachable s) :
    ((system α).restrict Room).Reachable s := by
  have hi : (system α).Inductive fun s => Inv s ∧ ((system α).restrict Room).Reachable s := by
    refine ⟨fun s hs => ⟨initial_inv hs, .init hs⟩, fun s l t hs ht => ?_⟩
    have hr : Room s l := by
      cases l with
      | timer l => exact hs.1.timer.ok.heapRoom hcard l
      | _ => trivial
    exact ⟨inv_step hs.1 hr ht, hs.2.step ⟨hr, ht⟩⟩
  exact (hi.reachable h).2

def fresh : Timer.Loop Bool := ⟨Timer.Timers.blank Bool, heapInit fun _ => ⟨none, none, none⟩⟩

/-- A timer is started for 5 at 0; at 2 the loop waits for 3. -/
theorem run_timeout_three : ∃ s t : Loop Bool, ((system Bool).restrict Room).Reachable s ∧ t.pc = .poll 3 ∧ Passes t 3 := by
  obtain ⟨s, hs⟩ : ∃ s, [Label.timer (.init true), .timer (.start true (some 0) 5 0), .run .default 2, .next 2 false,
      .next 0 false, .next 0 false].foldlM step (initial fresh) = some s := isSome_iff_exists.1 (by decide +kernel)
  have hlast : ([Label.timer (.init true), .timer (.start true (some 0) 5 0), .run .default 2, .next 2 false,
      .next 0 false, .next 0 false].foldlM step (initial fresh)).bind (fun s => (step s (.next 0 false)).map fun t => (s.pc, t.pc)) =
      some (.walk .prepare, .poll 3) := by decide +kernel
  rw [hs] at hlast
  obtain ⟨t, ht, he⟩ := map_eq_some_iff.1 hlast
  obtain ⟨hpc, htpc⟩ := Prod.mk.inj he
  have h0 : (system Bool).Reachable (initial fresh) := .init ⟨fresh, ⟨Timer.blank_start, _, rfl⟩, rfl⟩
  have hreach : ((system Bool).restrict Room).Reachable s := small_reachable (by decide) (h0.foldlM (fun _ _ _ h => h) hs)
  have hstep : ((system Bool).restrict Room).step s (.next 0 false) t := ⟨trivial, ht⟩
  exact ⟨s, t, hreach, htpc, (run_timeout hreach hstep).1 3 htpc (by rw [htpc, hpc]; nofun)⟩

/-- The program starts timers before `uv_run`. -/
theorem start_reachable {t : Timer.Loop α} (h : (Timer.startSystem α).Reachable t) :
    (system α).Reachable (initial t) := by
  have hi : (Timer.startSystem α).Inductive fun t => (system α).Reachable (initial t) := by
    refine ⟨fun t ht => .init ⟨t, ht, rfl⟩, fun t l u ht hu => ht.step (l := .timer l) ?_⟩
    obtain ⟨⟨-, hl⟩, hu⟩ := hu
    have hcall : isCall l = true := by
      cases l with
      | init | start => rfl
      | _ => cases hl
    show (if isCall l then (initial t).onTimer l else none) = _
    rw [if_pos hcall]
    exact congrArg (Option.map _) hu
  exact hi.reachable h

/-- **A due timer that is not seen**: 2^32 - 1 timers are active and due, another one is started for 1000 and is
alone in the heap; `uv_run` waits for it. -/
theorem waits_for_due : ∃ s t : Loop ℕ, (system ℕ).Reachable s ∧ step s (.next 0 false) = some t ∧ s.pc ≠ t.pc ∧ t.pc = .poll 1000 ∧
    (t.timer.timers 0).flags.active = true ∧ (t.timer.timers 0).timeout ≤ t.timer.time := by
  obtain ⟨r, T, k, hr, hstep, hT, hk, hmin, -⟩ := Timer.full_heap_drops (d := 1000) (by decide)
  have hstart : step (initial r) (.timer (.start k (some 0) 1000 0)) = some (initial T) :=
    congrArg (Option.map fun t => initial t) hstep
  have h0 : (system ℕ).Reachable (initial T) := (start_reachable hr).step hstart
  have hpc : T.pc = .idle := by rw [hT]; rfl
  have htime : T.time = 0 := by rw [hT]; rfl
  have hlate : (T.timers k).timeout = 1000 := by
    rw [hT]
    simp [Timer.Timers.begin_, Timer.Timers.put, Timer.Timers.grown, Timer.clamp, Timer.u64, Timer.Timers.full]
  have hzero : (T.timers 0).flags.active = true ∧ (T.timers 0).timeout = 0 := by
    rw [hT, Timer.Timers.begin_]
    rw [Timer.Timers.put_other _ _ hk.ne, Timer.Timers.grown, Timer.Timers.put_other _ _ hk.ne, Timer.Timers.full]
    simp [hk]
  have h1 : (system ℕ).Reachable { initial T with activeReqs := 1 } := h0.step (l := .register) rfl
  have h2 : (system ℕ).Reachable { initial T with activeReqs := 1, pc := .top true } :=
    h1.step (l := .run .default 0) (by simp [system, step, Loop.run, Loop.loopAlive, initial])
  let U : Timer.Loop ℕ := { T with time := 0, pc := .scanning, fired := [], initial := T.known }
  have h3 : (system ℕ).Reachable { initial T with timer := U, activeReqs := 1, pc := .timers false } := by
    refine h2.step (l := .next 0 false) ?_
    simp [system, step, Loop.next, Loop.enterTimers, Loop.onTimer, Timer.step, Timer.Timers.Allowed, Timer.Loop.perform,
      initial, hpc, htime, u64, U]
  let V : Timer.Loop ℕ := { U with pc := .idle }
  have h4 : (system ℕ).Reachable ({ initial T with timer := V, activeReqs := 1, pc := .timers false } : Loop ℕ).enterPending := by
    refine h3.step (l := .next 0 false) ?_
    simp [system, step, Loop.next, Loop.onTimer, Timer.step, Timer.Timers.Allowed, Timer.Loop.perform, Timer.uvRunTimers,
      initial, hmin, hlate, U, V]
  have h5 : (system ℕ).Reachable _ := h4.step (l := .next 0 false) rfl
  refine ⟨_, _, h5, rfl, Pc.noConfusion, ?_, hzero.1, hzero.2.le⟩
  simp [Loop.enterPoll, Loop.enterWalk, Loop.enterPending, Loop.backendTimeout, Loop.nextTimeout, Loop.put, initial, V, U,
    hmin, hlate, intMax]

end Libuv.L2.Run
