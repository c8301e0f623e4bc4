import Libuv.L2Loop.IoWatcherBatch

/-!
# `uv_loop_fork` (`loop.c`, `linux-core.c`, `async.c`, `signal.c`)

In the child of a `fork` the loop gets a new, empty epoll instance, and the loop's own
watchers (inotify, async, signal) get new descriptors; then `uv_loop_fork` goes through the
table and queues what is not queued yet, with `events` 0. The system is that of the I/O
watchers with one more call by the loop's owner; the descriptors are those the operating
system hands out (`Granted`), and a `uv_loop_fork` that fails is not a step. Restarting the
fs_event handles only matters here for whether the inotify watcher is opened again.

* `loop_fork`: after `uv_loop_fork` the registration loop gets through and tells the kernel
  everything if and only if no watcher but the loop's own was in the queue with something
  the old epoll instance had been told.
* `loop_fork_aborts`: a watcher that wants one thing more when the process forks.
* `fork_run`: in the runs whose forks meet the condition every poll gets through.
-/
namespace Libuv.L2.Fork
open Libuv.L2.IoWatcher List Function

/-- `inotify_read_watcher`, `async_io_watcher`, `signal_io_watcher`. -/
structure Own (W : Type*) where
  inotify : W
  async : W
  signal : W
  inotify_ne_async : inotify ≠ async
  inotify_ne_signal : inotify ≠ signal
  async_ne_signal : async ≠ signal

/-- The descriptors of the new inotify instance, eventfd and signal pipe. -/
structure Fds where
  inotify : ℤ
  async : ℤ
  signal : ℤ

variable {W : Type*} [DecidableEq W]

/-- `uv__io_stop(loop, w, POLLIN); uv__close(w->fd)` -/
def shut (s : Loop W) (w : W) : Option (Loop W) :=
  (s.ioStop w POLLIN).map fun s => { s with live := Function.update s.live w false }

/-- `uv__io_init(w, cb, fd); uv__io_start(loop, w, POLLIN)` -/
def reopen (s : Loop W) (w : W) (fd : ℤ) : Option (Loop W) := (s.ioInit w fd).ioStart w POLLIN

section Source
variable (own : Own W) (s : Loop W)

/-- `watching` is `loop->inotify_watchers != NULL`.
mirrors unix/linux-core.c:94-118, linux-inotify.c:68-83, 86-148 -/
def ioFork (watching : Bool) (fd : ℤ) : Option (Loop W) :=
  (if s.live own.inotify then shut s own.inotify else some s).bind fun s =>
    let s := { s with kernel := fun _ => none }
    if watching then reopen s own.inotify fd else some s

/-- mirrors unix/async.c:246-315 -/
def asyncFork (fd : ℤ) : Option (Loop W) :=
  if s.live own.async then (shut s own.async).bind fun s => reopen s own.async fd else some s

/-- Without a signal pipe the `uv__close` of its descriptors stops the program.
mirrors unix/signal.c:270-302 -/
def signalLoopFork (fd : ℤ) : Option (Loop W) :=
  if s.live own.signal then (shut s own.signal).bind fun s => reopen s own.signal fd else none

/-- mirrors unix/loop.c:167-176 -/
def rearm (s : Loop W) : Cell W → Loop W
  | .watcher w =>
    if (s.io w).pevents ≠ 0 ∧ w ∉ s.watcherQueue then
      { s.setIo w { s.io w with events := 0 } with watcherQueue := s.watcherQueue ++ [w] }
    else s
  | _ => s

/-- mirrors unix/loop.c:149-179 -/
def loopFork (watching : Bool) (fds : Fds) : Option (Loop W) :=
  (ioFork own s watching fds.inotify).bind fun s =>
  (asyncFork own s fds.async).bind fun s =>
  (signalLoopFork own s fds.signal).map fun s => (s.watchers.take s.nwatchers.toNat).foldl rearm s

end Source

def Own.Has (own : Own W) (w : W) : Prop := w = own.inotify ∨ w = own.async ∨ w = own.signal

/-- A new descriptor is none that is open: those of the loop's own watchers are closed one
after the other. -/
structure Granted (own : Own W) (s : Loop W) (watching : Bool) (fds : Fds) : Prop where
  live : watching = true → s.live own.inotify = true
  nonneg : 0 ≤ fds.inotify ∧ 0 ≤ fds.async ∧ 0 ≤ fds.signal
  inotify : watching = true → ∀ w, s.live w = true → w ≠ own.inotify → (s.io w).fd ≠ fds.inotify
  async : s.live own.async = true → (watching = true → fds.async ≠ fds.inotify) ∧
    ∀ w, s.live w = true → w ≠ own.inotify → w ≠ own.async → (s.io w).fd ≠ fds.async
  signal : (watching = true → fds.signal ≠ fds.inotify) ∧ (s.live own.async = true → fds.signal ≠ fds.async) ∧
    ∀ w, s.live w = true → ¬ own.Has w → (s.io w).fd ≠ fds.signal

inductive Label (W : Type*)
  | io (l : IoWatcher.Label W)
  | fork

/-- The loop's own watchers are only ever started, and for reading. -/
def Own.Allows (own : Own W) : IoWatcher.Label W → Prop
  | .start w events => own.Has w → events = POLLIN
  | .stop w _ | .close w _ => ¬ own.Has w
  | _ => True

inductive Step (own : Own W) : Loop W → Label W → Loop W → Prop
  | io {s t : Loop W} {l : IoWatcher.Label W} (ha : own.Allows l) (h : IoWatcher.Step (some own.signal) s l t) :
      Step own s (.io l) t
  | fork {s t : Loop W} {watching : Bool} {fds : Fds} (hc : s.Calls) (hg : Granted own s watching fds)
      (ht : loopFork own s watching fds = some t) : Step own s .fork t

def system (own : Own W) : LTS (Loop W) (Label W) where
  init := Loop.fresh
  step := Step own

/-! ## The invariant, whatever the kernel holds -/

/-- The table, the queue and the watchers agree, for some interest list. -/
def Tabled (s : Loop W) : Prop := ∃ k, Agrees (s.under s.live k)

/-- Whoever is not in `A` is as before. -/
structure Others (A : W → Prop) (s t : Loop W) : Prop where
  io : ∀ w, ¬ A w → t.io w = s.io w
  live : ∀ w, ¬ A w → t.live w = s.live w
  queue : ∀ w, ¬ A w → (w ∈ t.watcherQueue ↔ w ∈ s.watcherQueue)

omit [DecidableEq W] in
theorem Others.trans {A B : W → Prop} {s t u : Loop W} (h : Others A s t) (h' : Others B t u) :
    Others (fun w => A w ∨ B w) s u := by
  refine ⟨fun w hw => ?_, fun w hw => ?_, fun w hw => ?_⟩
  · rw [h'.io w fun e => hw (.inr e), h.io w fun e => hw (.inl e)]
  · rw [h'.live w fun e => hw (.inr e), h.live w fun e => hw (.inl e)]
  · rw [h'.queue w fun e => hw (.inr e), h.queue w fun e => hw (.inl e)]

section Calls
variable {s t : Loop W} {w : W}

theorem Tabled.ioStop (h : Tabled s) {ev : Mask} (hl : s.live w = true) (ht : s.ioStop w ev = some t) :
    Tabled t ∧ ((s.io w).pevents.sub ev → (t.io w).pevents = 0 ∧ (t.io w).events = 0) := by
  obtain ⟨k, h⟩ := h
  have hu : (s.under s.live k).ioStop w ev = some (t.under s.live k) := by rw [ioStop_under, ht]; rfl
  have hlive := (ioStop_frame ht).live
  refine ⟨⟨k, ?_⟩, fun hm => ioStop_wanted (t := t.under s.live k) h hm hu⟩
  rw [hlive]
  exact ioStop_agrees h hl hu

theorem Tabled.ioStart (h : Tabled s) {ev : Mask} (hl : s.live w = true) (ht : s.ioStart w ev = some t) :
    Tabled t := by
  obtain ⟨k, h⟩ := h
  have hu : (s.under s.live k).ioStart w ev = some (t.under s.live k) := by rw [ioStart_under, ht]; rfl
  refine ⟨k, ?_⟩
  rw [(ioStart_startFrame ht).live]
  exact ioStart_agrees h hl hu

theorem Tabled.ioInit (h : Tabled s) {fd : ℤ} (hl : s.live w = false)
    (hd : fd ≠ -1 → ∀ w', s.live w' = true → (s.io w').fd ≠ fd) : Tabled (s.ioInit w fd) := by
  obtain ⟨k, h⟩ := h
  exact ⟨k, ioInit_agrees h hl hd⟩

theorem Tabled.setKernel (h : Tabled s) (kernel : ℤ → Option Mask) : Tabled { s with kernel := kernel } := h

/-- The loop's own watchers want to read, if anything. -/
def Reads (own : Own W) (s : Loop W) : Prop := ∀ w, own.Has w → (s.io w).pevents.sub POLLIN

theorem shut_spec (h : Tabled s) (hl : s.live w = true) (hm : (s.io w).pevents.sub POLLIN) (ht : shut s w = some t) :
    Tabled t ∧ Others (· = w) s t ∧ t.kernel = s.kernel ∧ t.live w = false ∧ (t.io w).pevents = 0 ∧
      (t.io w).events = 0 := by
  obtain ⟨u, hu, rfl⟩ := Option.map_eq_some_iff.1 ht
  obtain ⟨⟨k, hk⟩, hz⟩ := h.ioStop hl hu
  have hf := ioStop_callFrame hu
  refine ⟨⟨k, hk.drop (w := w) (hz hm).1⟩, ⟨hf.other, fun w' hw' => ?_, fun w' hw' => ioStop_queue hu hw'⟩, hf.kernel, ?_, hz hm⟩
  · exact (update_of_ne hw' ..).trans (by rw [hf.live])
  · exact update_self ..

theorem reopen_spec (h : Tabled s) {fd : ℤ} (hl : s.live w = false) (hd : ∀ w', s.live w' = true → (s.io w').fd ≠ fd)
    (ht : reopen s w fd = some t) :
    Tabled t ∧ Others (· = w) s t ∧ t.kernel = s.kernel ∧ t.live w = true ∧ t.io w = ⟨fd, 0, POLLIN⟩ := by
  have hf := ioStart_startFrame ht
  have hlive : ∀ w', (s.ioInit w fd).live w' = if w' = w then true else s.live w' := fun w' => update_apply ..
  have hio : t.io w = ⟨fd, 0, POLLIN⟩ := by
    rw [hf.io]
    simp [Loop.ioInit]
  refine ⟨(h.ioInit hl fun _ => hd).ioStart ?_ ht, ⟨fun w' hw' => ?_, fun w' hw' => ?_, hf.queue⟩, hf.kernel, ?_, hio⟩
  · rw [hlive, if_pos rfl]
  · rw [hf.io, if_neg hw']
    exact setIo_other w' hw'
  · rw [hf.live, hlive, if_neg hw']
  · rw [hf.live, hlive, if_pos rfl]

theorem renew_spec (h : Tabled s) {fd : ℤ} (hl : s.live w = true) (hm : (s.io w).pevents.sub POLLIN)
    (hd : ∀ w', w' ≠ w → s.live w' = true → (s.io w').fd ≠ fd)
    (ht : ((shut s w).bind fun s => reopen s w fd) = some t) :
    Tabled t ∧ Others (· = w) s t ∧ t.kernel = s.kernel ∧ t.live w = true ∧ t.io w = ⟨fd, 0, POLLIN⟩ := by
  obtain ⟨u, hu, ht⟩ := Option.bind_eq_some_iff.1 ht
  obtain ⟨h1, h2, h3, h4, -⟩ := shut_spec h hl hm hu
  have hd' : ∀ w', u.live w' = true → (u.io w').fd ≠ fd := fun w' hw' => by
    have hne : w' ≠ w := fun e => by rw [e, h4] at hw'; cases hw'
    rw [h2.live w' hne] at hw'
    rw [h2.io w' hne]
    exact hd w' hne hw'
  obtain ⟨k1, k2, k3, k4, k5⟩ := reopen_spec h1 h4 hd' ht
  have ho : Others (· = w) s t := by
    have := h2.trans k2
    simp only [or_self] at this
    exact this
  exact ⟨k1, ho, k3.trans h3, k4, k5⟩

theorem Tabled.idle (h : Tabled s) (hl : s.live w = false) : (s.io w).pevents = 0 ∧ (s.io w).events = 0 := by
  obtain ⟨k, h⟩ := h
  have hp : (s.io w).pevents = 0 := by
    by_contra hne
    have := h.live w hne
    change s.live w = true at this
    rw [hl] at this
    cases this
  refine ⟨hp, ?_⟩
  by_contra hne
  exact (h.clean w hne).1 hp

theorem Tabled.register (h : Tabled s) {rest : List W} (hq : s.watcherQueue = w :: rest)
    (ht : ({ s with watcherQueue := rest } : Loop W).register w = some t) :
    Tabled t ∧ t.watcherQueue = rest ∧ (∀ w', (t.io w').fd = (s.io w').fd ∧ (t.io w').pevents = (s.io w').pevents) := by
  obtain ⟨k, h⟩ := h
  obtain ⟨u, hu, ha, -, -, -, -, -, hio⟩ := register_agrees h hq
  have ht := register_eq ht
  have hu := register_eq hu
  subst ht hu
  exact ⟨⟨_, ha⟩, rfl, hio⟩

theorem Tabled.registerAll : ∀ (q : List W) (s t : Loop W), Tabled s → s.watcherQueue = q →
    Loop.registerAll q s = some t → Tabled t ∧ ∀ w, (t.io w).pevents = (s.io w).pevents := by
  intro q
  induction q with
  | nil =>
    intro s t h _ ht
    cases ht
    exact ⟨h, fun _ => rfl⟩
  | cons w rest ih =>
    intro s t h hq ht
    rw [Loop.registerAll] at ht
    split at ht
    · cases ht
    · next u hu =>
      obtain ⟨h1, h2, h3⟩ := h.register hq hu
      obtain ⟨h4, h5⟩ := ih u t h1 h2 ht
      exact ⟨h4, fun w' => (h5 w').trans (h3 w').2⟩

theorem Tabled.pollHead (h : Tabled s) (ht : s.pollHead = some t) :
    Tabled t ∧ ∀ w, (t.io w).pevents = (s.io w).pevents := by
  unfold Loop.pollHead at ht
  split at ht
  · split at ht
    · cases ht
      exact ⟨h, fun _ => rfl⟩
    · cases ht
  · split at ht
    · cases ht
    · next u hu =>
      cases ht
      obtain ⟨⟨k, h1⟩, h2⟩ := Tabled.registerAll _ _ _ h rfl hu
      exact ⟨⟨k, setPc_agrees h1 _⟩, h2⟩

theorem Tabled.ioClose (h : Tabled s) (hl : s.live w = true) (ht : s.ioClose w = some t) :
    Tabled t ∧ ∀ w', w' ≠ w → t.io w' = s.io w' := by
  unfold Loop.ioClose at ht
  split at ht
  · cases ht
  · next u hu =>
    obtain ⟨⟨k, h1⟩, hz⟩ := h.ioStop hl hu
    obtain ⟨k', h⟩ := h
    have hd := h1.drop (hz (h.mask w)).1
    have hother : ∀ w', w' ≠ w → u.io w' = s.io w' := (ioStop_callFrame hu).other
    dsimp only at ht
    split at ht
    · obtain ⟨pc, rfl⟩ := platformInvalidateFd_eq ht
      exact ⟨⟨k, setPc_agrees hd pc⟩, hother⟩
    · cases ht
      exact ⟨⟨k, hd⟩, hother⟩

theorem Tabled.dispatch (h : Tabled s) {sig : Option W} {b : Batch} {pe : EpollEvent} {c : Option (W × Mask)}
    (ht : s.dispatch sig b pe = some (t, c)) : Tabled t ∧ t.io = s.io := by
  obtain ⟨k, h⟩ := h
  obtain ⟨-, k', rfl, -⟩ | ⟨w, -, -, -, -, ⟨-, -, rfl⟩ | ⟨-, rfl⟩⟩ := dispatch_cases ht
  all_goals exact ⟨⟨k, setPc_agrees h _⟩, rfl⟩

end Calls

theorem inv_io {own : Own W} {sig : Option W} {s t : Loop W} {l : IoWatcher.Label W} (h : Tabled s) (hr : Reads own s)
    (ha : own.Allows l) (hs : IoWatcher.Step sig s l t) : Tabled t ∧ Reads own t := by
  cases hs with
  | @init w fd _ hl _ hd =>
    refine ⟨h.ioInit hl hd, fun w' hw' => ?_⟩
    simp only [Loop.ioInit, Loop.setIo_io]
    split
    · exact BitVec.zero_and
    · exact hr w' hw'
  | @start _ w ev _ hl _ ht =>
    refine ⟨h.ioStart hl ht, fun w' hw' => ?_⟩
    rw [(ioStart_startFrame ht).io]
    split
    · next e =>
      subst e
      refine Mask.sub_or (hr w' hw') ?_
      rw [ha hw']
      decide
    · exact hr w' hw'
  | @stop _ w ev _ hl _ ht =>
    refine ⟨(h.ioStop hl ht).1, fun w' hw' => ?_⟩
    rw [(ioStop_callFrame ht).other w' fun e => ha (e ▸ hw')]
    exact hr w' hw'
  | close _ hl _ ht =>
    obtain ⟨h1, h2⟩ := h.ioClose hl ht
    refine ⟨h1, fun w' hw' => ?_⟩
    rw [h2 w' fun e => ha (e ▸ hw')]
    exact hr w' hw'
  | poll _ ht =>
    obtain ⟨h1, h2⟩ := h.pollHead ht
    refine ⟨h1, fun w' hw' => ?_⟩
    rw [h2]
    exact hr w' hw'
  | wait _ _ _ _ ht =>
    obtain ⟨k, h⟩ := h
    unfold Loop.waited at ht
    split at ht
    · cases ht
    · cases ht
      exact ⟨⟨k, setPc_agrees (setSlots_agrees h _ _) _⟩, hr⟩
  | next _ _ ht | deliver _ _ ht =>
    obtain ⟨h1, h2⟩ := h.dispatch ht
    refine ⟨h1, fun w' hw' => ?_⟩
    rw [h2]
    exact hr w' hw'
  | deliverSignal _ _ _ _ | ret _ =>
    obtain ⟨k, h⟩ := h
    exact ⟨⟨k, setPc_agrees h _⟩, hr⟩
  | finish _ _ _ _ =>
    obtain ⟨k, h⟩ := h
    exact ⟨⟨k, setPc_agrees (setSlots_agrees h _ _) _⟩, hr⟩

/-! ## The fork -/

section Fork
variable {own : Own W} {s t : Loop W} {watching : Bool} {fds : Fds}

omit [DecidableEq W] in
theorem Reads.others (hr : Reads own s) {A : W → Prop} (ho : Others A s t) (hA : ∀ w, A w → own.Has w → (t.io w).pevents.sub POLLIN) :
    Reads own t := fun w hw => by
  by_cases ha : A w
  · exact hA w ha hw
  · rw [ho.io w ha]
    exact hr w hw

theorem sub_self (m : Mask) : m.sub m := BitVec.and_not_self m

theorem zero_sub (m : Mask) : (0 : Mask).sub m := BitVec.zero_and

theorem ioFork_spec (h : Tabled s) (hr : Reads own s) (hg : Granted own s watching fds)
    (ht : ioFork own s watching fds.inotify = some t) :
    Tabled t ∧ Reads own t ∧ Others (· = own.inotify) s t ∧ t.kernel = (fun _ => none) ∧ (t.io own.inotify).events = 0 ∧
      (t.live own.inotify = true → watching = true ∧ (t.io own.inotify).fd = fds.inotify) := by
  obtain ⟨u, hu, ht⟩ := Option.bind_eq_some_iff.1 ht
  have hshut : Tabled u ∧ Others (· = own.inotify) s u ∧ u.live own.inotify = false ∧ (u.io own.inotify).pevents = 0 ∧
      (u.io own.inotify).events = 0 := by
    by_cases hl : s.live own.inotify = true
    · rw [if_pos hl] at hu
      obtain ⟨h1, h2, -, h4, h5⟩ := shut_spec h hl (hr _ (.inl rfl)) hu
      exact ⟨h1, h2, h4, h5⟩
    · rw [if_neg hl] at hu
      cases hu
      have hl : s.live own.inotify = false := by simpa using hl
      exact ⟨h, ⟨fun _ _ => rfl, fun _ _ => rfl, fun _ _ => Iff.rfl⟩, hl, h.idle hl⟩
  obtain ⟨h1, h2, h3, h4, h5⟩ := hshut
  have hru : Reads own u := hr.others h2 fun w e _ => by
    rw [e, h4]
    exact zero_sub _
  split at ht
  · next hw =>
    have hd : ∀ w', u.live w' = true → (u.io w').fd ≠ fds.inotify := fun w' hw' => by
      have hne : w' ≠ own.inotify := fun e => by rw [e, h3] at hw'; cases hw'
      rw [h2.live w' hne] at hw'
      rw [h2.io w' hne]
      exact hg.inotify hw w' hw' hne
    obtain ⟨k1, k2, k3, k4, k5⟩ := reopen_spec (h1.setKernel fun _ => none) h3 hd ht
    have ho : Others (· = own.inotify) s t := by
      have h2' : Others (· = own.inotify) s { u with kernel := fun _ => none } := ⟨h2.io, h2.live, h2.queue⟩
      have := h2'.trans k2
      simp only [or_self] at this
      exact this
    refine ⟨k1, Reads.others hru ⟨k2.io, k2.live, k2.queue⟩ fun w e _ => ?_, ho, k3, by rw [k5], fun _ => ⟨hw, by rw [k5]⟩⟩
    rw [e, k5]
    exact sub_self _
  · cases ht
    refine ⟨h1.setKernel _, hru, ⟨h2.io, h2.live, h2.queue⟩, rfl, h5, fun hl => ?_⟩
    rw [h3] at hl
    cases hl

theorem asyncFork_spec (h : Tabled s) (hr : Reads own s) {fd : ℤ}
    (hd : s.live own.async = true → ∀ w, w ≠ own.async → s.live w = true → (s.io w).fd ≠ fd)
    (ht : asyncFork own s fd = some t) :
    Tabled t ∧ Reads own t ∧ Others (· = own.async) s t ∧ t.kernel = s.kernel ∧ (t.io own.async).events = 0 ∧
      (t.live own.async = true → s.live own.async = true ∧ (t.io own.async).fd = fd) := by
  unfold asyncFork at ht
  split at ht
  · next hl =>
    obtain ⟨h1, h2, h3, -, h5⟩ := renew_spec h hl (hr _ (.inr (.inl rfl))) (hd hl) ht
    refine ⟨h1, hr.others h2 fun w e _ => ?_, h2, h3, by rw [h5], fun _ => ⟨hl, by rw [h5]⟩⟩
    rw [e, h5]
    exact sub_self _
  · next hl =>
    cases ht
    have hl' : s.live own.async = false := by simpa using hl
    exact ⟨h, hr, ⟨fun _ _ => rfl, fun _ _ => rfl, fun _ _ => Iff.rfl⟩, rfl, (h.idle hl').2, fun e => absurd e hl⟩

theorem signalLoopFork_spec (h : Tabled s) (hr : Reads own s) {fd : ℤ}
    (hd : ∀ w, w ≠ own.signal → s.live w = true → (s.io w).fd ≠ fd) (ht : signalLoopFork own s fd = some t) :
    Tabled t ∧ Reads own t ∧ Others (· = own.signal) s t ∧ t.kernel = s.kernel ∧ t.io own.signal = ⟨fd, 0, POLLIN⟩ := by
  unfold signalLoopFork at ht
  split at ht
  · next hl =>
    obtain ⟨h1, h2, h3, -, h5⟩ := renew_spec h hl (hr _ (.inr (.inr rfl))) hd ht
    refine ⟨h1, hr.others h2 fun w e _ => ?_, h2, h3, h5⟩
    rw [e, h5]
    exact sub_self _
  · cases ht

/-- Before the loop over the table: the loop's own watchers are as if they had just been
started, the others as before, and the kernel knows nothing. -/
structure Reopened (own : Own W) (s t : Loop W) : Prop where
  tabled : Tabled t
  reads : Reads own t
  others : Others own.Has s t
  kernel : t.kernel = fun _ => none
  events : ∀ w, own.Has w → (t.io w).events = 0
  signal : (t.io own.signal).pevents = POLLIN

theorem loopFork_reopened (h : Tabled s) (hr : Reads own s) (hg : Granted own s watching fds)
    (ht : loopFork own s watching fds = some t) :
    ∃ u, Reopened own s u ∧ t = (u.watchers.take u.nwatchers.toNat).foldl rearm u := by
  obtain ⟨s1, e1, ht⟩ := Option.bind_eq_some_iff.1 ht
  obtain ⟨s2, e2, ht⟩ := Option.bind_eq_some_iff.1 ht
  obtain ⟨s3, e3, rfl⟩ := Option.map_eq_some_iff.1 ht
  obtain ⟨a1, a2, a3, a4, a5, a6⟩ := ioFork_spec h hr hg e1
  have hia := own.inotify_ne_async
  have his := own.inotify_ne_signal
  have has := own.async_ne_signal
  have hasync : s1.live own.async = true → ∀ w, w ≠ own.async → s1.live w = true → (s1.io w).fd ≠ fds.async := by
    intro hl w hne hw
    rw [a3.live _ hia.symm] at hl
    obtain ⟨g1, g2⟩ := hg.async hl
    by_cases e : w = own.inotify
    · subst e
      obtain ⟨k1, k2⟩ := a6 hw
      rw [k2]
      exact (g1 k1).symm
    · rw [a3.io w e]
      rw [a3.live w e] at hw
      exact g2 w hw e hne
  obtain ⟨b1, b2, b3, b4, b5, b6⟩ := asyncFork_spec a1 a2 hasync e2
  have hsignal : ∀ w, w ≠ own.signal → s2.live w = true → (s2.io w).fd ≠ fds.signal := by
    intro w hne hw
    obtain ⟨g1, g2, g3⟩ := hg.signal
    by_cases ea : w = own.async
    · subst ea
      obtain ⟨k1, k2⟩ := b6 hw
      rw [a3.live _ hia.symm] at k1
      rw [k2]
      exact (g2 k1).symm
    · rw [b3.live w ea] at hw
      rw [b3.io w ea]
      by_cases ei : w = own.inotify
      · subst ei
        obtain ⟨k1, k2⟩ := a6 hw
        rw [k2]
        exact (g1 k1).symm
      · rw [a3.live w ei] at hw
        rw [a3.io w ei]
        exact g3 w hw fun e => e.elim ei (Or.elim · ea hne)
  obtain ⟨c1, c2, c3, c4, c5⟩ := signalLoopFork_spec b1 b2 hsignal e3
  have ho := (a3.trans b3).trans c3
  refine ⟨s3, ⟨c1, c2, ?_, c4.trans (b4.trans a4), fun w hw => ?_, by rw [c5]⟩, rfl⟩
  · have hA : own.Has = fun w => (w = own.inotify ∨ w = own.async) ∨ w = own.signal := by
      funext w
      exact propext (or_assoc (a := w = own.inotify)).symm
    rw [hA]
    exact ho
  · obtain rfl | rfl | rfl := hw
    · rw [c3.io _ his, b3.io _ hia, a5]
    · rw [c3.io _ has, b5]
    · rw [c5]

end Fork

/-! ## The loop over the table -/

/-- What the loop does with the entries `l`. -/
structure Rearmed (l : List (Cell W)) (s t : Loop W) : Prop where
  same : t = { s with io := t.io, watcherQueue := t.watcherQueue }
  queue : ∀ w, w ∈ t.watcherQueue ↔ w ∈ s.watcherQueue ∨ Cell.watcher w ∈ l ∧ (s.io w).pevents ≠ 0
  nodup : s.watcherQueue.Nodup → t.watcherQueue.Nodup
  io : ∀ w, t.io w = if w ∈ t.watcherQueue ∧ w ∉ s.watcherQueue then { s.io w with events := 0 } else s.io w

theorem rearm_foldl (l : List (Cell W)) (s : Loop W) : Rearmed l s (l.foldl rearm s) := by
  induction l generalizing s with
  | nil => exact ⟨rfl, fun w => by simp, id, fun w => by rw [if_neg fun h => h.2 h.1]; rfl⟩
  | cons c l ih =>
    rw [foldl_cons]
    have hi := ih (rearm s c)
    generalize l.foldl rearm (rearm s c) = t at hi
    have hskip : rearm s c = s → (∀ w, c = .watcher w → (s.io w).pevents ≠ 0 → w ∈ s.watcherQueue) → Rearmed (c :: l) s t := by
      intro e hc
      rw [e] at hi
      refine ⟨hi.same, fun w => ?_, hi.nodup, hi.io⟩
      rw [hi.queue, mem_cons]
      constructor
      · exact Or.imp_right fun h => ⟨.inr h.1, h.2⟩
      · rintro (h | ⟨h | h, hp⟩)
        · exact .inl h
        · exact .inl (hc w h.symm hp)
        · exact .inr ⟨h, hp⟩
    cases c with
    | null | events | count _ => exact hskip rfl fun w e => nomatch e
    | watcher v =>
      by_cases hv : (s.io v).pevents ≠ 0 ∧ v ∉ s.watcherQueue
      · have e : rearm s (.watcher v) = { s.setIo v { s.io v with events := 0 } with watcherQueue := s.watcherQueue ++ [v] } :=
          if_pos hv
        rw [e] at hi
        obtain ⟨h1, h2, h3, h4⟩ := hi
        simp only [mem_append, mem_singleton, Loop.setIo_io] at h2 h4
        have hmem : v ∈ t.watcherQueue := (h2 v).2 (.inl (.inr rfl))
        have hpe : ∀ w, (if w = v then { s.io v with events := 0 } else s.io w).pevents = (s.io w).pevents := fun w => by
          split
          · next e => rw [e]
          · rfl
        refine ⟨h1, fun w => ?_, fun hn => h3 ?_, fun w => ?_⟩
        · rw [h2 w, hpe w, mem_cons]
          constructor
          · rintro ((h | rfl) | h)
            · exact .inl h
            · exact .inr ⟨.inl rfl, hv.1⟩
            · exact .inr ⟨.inr h.1, h.2⟩
          · rintro (h | ⟨h | h, hp⟩)
            · exact .inl (.inl h)
            · cases h
              exact .inl (.inr rfl)
            · exact .inr ⟨h, hp⟩
        · exact List.Nodup.append hn (nodup_singleton v) (by simpa using hv.2)
        · rw [h4 w]
          by_cases e : w = v
          · subst e
            rw [if_neg fun h => h.2 (.inr rfl), if_pos rfl, if_pos ⟨hmem, hv.2⟩]
          · simp [if_neg e, or_iff_left e]
      · refine hskip (if_neg hv) fun w e hp => ?_
        cases e
        by_contra hq
        exact hv ⟨hp, hq⟩

/-! ## The next poll -/

/-- The next `uv__io_poll` gets through its registration loop, and the kernel's interest in
each watched descriptor is what its watcher wants. -/
def Recovers (s : Loop W) : Prop :=
  ∃ t, s.pollHead = some t ∧ ∀ w, (s.io w).pevents ≠ 0 → t.kernel (s.io w).fd = some (s.io w).pevents

theorem recovers_of_agrees {s : Loop W} (h : Agrees s) : Recovers s := by
  obtain ⟨t, ht, ha, -, -, -, -, hq, hio⟩ := pollHead_agrees h
  refine ⟨t, ht, fun w hw => ?_⟩
  rw [← (hio w).1, ← (hio w).2]
  rw [← (hio w).2] at hw
  have he : (t.io w).events = (t.io w).pevents := by
    by_contra hne
    have := ha.dirty w hw hne
    rw [hq] at this
    exact absurd this not_mem_nil
  rw [← he]
  exact (ha.clean w (he ▸ hw)).2

/-- `EPOLL_CTL_MOD` of a descriptor the kernel does not know stops the program. -/
theorem registerAll_none (q : List W) (s : Loop W) {w : W} (hw : w ∈ q) (he : (s.io w).events ≠ 0)
    (hk : s.kernel (s.io w).fd = none) (hd : ∀ w' ∈ q, (s.io w').fd = (s.io w).fd → w' = w) :
    Loop.registerAll q s = none := by
  induction q generalizing s with
  | nil => cases hw
  | cons v q ih =>
    rw [Loop.registerAll]
    by_cases e : v = w
    · subst e
      have : ({ s with watcherQueue := q } : Loop W).register v = none := by
        unfold Loop.register
        dsimp only
        split
        · rfl
        · simp [Loop.epollCtl, hk]
      rw [this]
    · cases hr : ({ s with watcherQueue := q } : Loop W).register v with
      | none => rfl
      | some u =>
        have hne : (s.io w).fd ≠ (s.io v).fd := fun e' => e (hd v mem_cons_self e'.symm)
        obtain ⟨hfd, hio, hker⟩ : (∀ w', (u.io w').fd = (s.io w').fd) ∧ u.io w = s.io w ∧ u.kernel (s.io w).fd = none := by
          rw [register_eq hr]
          refine ⟨setIo_fd rfl, setIo_other w (Ne.symm e), ?_⟩
          exact (update_of_ne hne ..).trans hk
        refine ih u ((mem_cons.1 hw).resolve_left (Ne.symm e)) ?_ ?_ fun w' hw' hf => ?_
        · rwa [hio]
        · rwa [hio]
        · rw [hfd, hfd] at hf
          exact hd w' (mem_cons_of_mem _ hw') hf

/-- No watcher but the loop's own is queued with something the old epoll instance knew. -/
def Untold (own : Own W) (s : Loop W) : Prop := ∀ w ∈ s.watcherQueue, ¬ own.Has w → (s.io w).events = 0

section Main
variable {own : Own W} {s t u : Loop W}

/-- What `uv_loop_fork` leaves behind. -/
structure Forked (own : Own W) (s t : Loop W) : Prop where
  tabled : Tabled t
  reads : Reads own t
  kernel : t.kernel = fun _ => none
  /-- every watcher that wants something is queued -/
  queue : ∀ w, w ∈ t.watcherQueue ↔ (t.io w).pevents ≠ 0
  /-- only those who were queued before are remembered to have told something -/
  events : ∀ w, (t.io w).events ≠ 0 ↔ w ∈ s.watcherQueue ∧ ¬ own.Has w ∧ (s.io w).events ≠ 0

theorem Reopened.forked (h : Reopened own s u) : Forked own s ((u.watchers.take u.nwatchers.toNat).foldl rearm u) := by
  obtain ⟨k, ha⟩ := h.tabled
  have hr := rearm_foldl (u.watchers.take u.nwatchers.toNat) u
  generalize (u.watchers.take u.nwatchers.toNat).foldl rearm u = t at hr
  have hpe : ∀ w, (t.io w).pevents = (u.io w).pevents := fun w => by
    rw [hr.io]
    split <;> rfl
  have hfd : ∀ w, (t.io w).fd = (u.io w).fd := fun w => by
    rw [hr.io]
    split <;> rfl
  have hmem : ∀ w, (u.io w).pevents ≠ 0 → Cell.watcher w ∈ u.watchers.take u.nwatchers.toNat := fun w hw => by
    obtain ⟨i, h1, -, h3⟩ := ha.mapped w hw
    have h1 : i < u.nwatchers.toNat := h1
    exact mem_of_getElem? (by rw [getElem?_take_of_lt h1]; exact h3)
  have hqueue : ∀ w, w ∈ t.watcherQueue ↔ (u.io w).pevents ≠ 0 := fun w => by
    rw [hr.queue]
    exact ⟨fun h => h.elim (ha.queued w) And.right, fun hw => .inr ⟨hmem w hw, hw⟩⟩
  have hzero : ∀ w, (u.io w).events ≠ 0 → (u.io w).pevents ≠ 0 := fun w hw => (ha.clean w hw).1
  have hev : ∀ w, (t.io w).events ≠ 0 ↔ w ∈ u.watcherQueue ∧ (u.io w).events ≠ 0 := fun w => by
    rw [hr.io]
    split
    · next hw => exact ⟨fun e => absurd rfl e, fun e => absurd e.1 hw.2⟩
    · next hw =>
      rw [not_and_not_right] at hw
      exact ⟨fun e => ⟨hw ((hqueue w).2 (hzero w e)), e⟩, And.right⟩
  have hkernel : t.kernel = u.kernel := by rw [hr.same]
  refine ⟨?_, fun w hw => ?_, hkernel.trans h.kernel, fun w => ?_, fun w => ?_⟩
  · have hall : Agrees ({ u.under u.live k with io := t.io, watcherQueue := t.watcherQueue } : Loop W) := by
      refine ⟨⟨ha.shaped.length, ha.shaped.cells⟩, fun w hw => ?_, fun i w hi hw => ?_, ha.count,
        fun w hw => ?_, hr.nodup ha.once, fun w hw _ => ?_, fun w hw => ?_, ha.known, fun w hw => ?_,
        fun w w' => ?_, fun w => ?_⟩
      · rw [hpe] at hw
        rw [hfd]
        exact ha.mapped w hw
      · rw [hpe, hfd]
        exact ha.owner i w hi hw
      · rw [hpe]
        exact (hqueue w).1 hw
      · rw [hpe] at hw
        exact (hqueue w).2 hw
      · obtain ⟨h1, h2⟩ := (hev w).1 hw
        have h3 : t.io w = u.io w := by rw [hr.io, if_neg fun e => e.2 h1]
        rw [h3]
        exact ha.clean w h2
      · rw [hpe] at hw
        exact ha.live w hw
      · rw [hfd, hfd]
        exact ha.distinct w w'
      · rw [hpe]
        exact ha.mask w
    refine ⟨k, ?_⟩
    have e : t.under t.live k = { u.under u.live k with io := t.io, watcherQueue := t.watcherQueue } := by
      rw [hr.same]
      rfl
    rw [e]
    exact hall
  · rw [hpe]
    exact h.reads w hw
  · rw [hqueue, hpe]
  · rw [hev]
    by_cases ho : own.Has w
    · exact ⟨fun e => absurd (h.events w ho) e.2, fun e => absurd ho e.2.1⟩
    · rw [h.others.queue w ho, h.others.io w ho]
      exact ⟨fun e => ⟨e.1, ho, e.2⟩, fun e => ⟨e.1, e.2.2⟩⟩

theorem Forked.agrees (h : Forked own s t) (hs : Untold own s) : Agrees t := by
  obtain ⟨k, ha⟩ := h.tabled
  have hz : ∀ w, (t.io w).events = 0 := fun w => by
    by_contra he
    obtain ⟨h1, h2, h3⟩ := (h.events w).1 he
    exact h3 (hs w h1 h2)
  have hk : ∀ fd, (t.kernel fd).isSome = true → ((t.under t.live k).kernel fd).isSome = true := fun fd hfd => by
    rw [h.kernel] at hfd
    cases hfd
  have : Agrees ({ t.under t.live k with live := t.live, kernel := t.kernel } : Loop W) :=
    ha.under ha.live ha.distinct (fun w hw => absurd (hz w) hw) hk
  exact this

theorem Forked.recovers_iff (h : Forked own s t) : Recovers t ↔ Untold own s := by
  obtain ⟨k, ha⟩ := h.tabled
  constructor
  · intro ⟨u, hu, _⟩ w hw ho
    by_contra he
    have he' := (h.events w).2 ⟨hw, ho, he⟩
    have hq : w ∈ t.watcherQueue := (h.queue w).2 (ha.clean w he').1
    have hnone : Loop.registerAll t.watcherQueue t = none := by
      refine registerAll_none _ t hq he' (by rw [h.kernel]) fun w' hw' hf => ?_
      have hp' := ha.queued w' hw'
      obtain ⟨i, -, h2, -⟩ := ha.mapped w' hp'
      have hne : (t.io w').fd ≠ -1 := fun e => by
        have h2 : (t.io w').fd = i := h2
        omega
      exact ha.distinct w' w (ha.live w' hp') (ha.live w (ha.queued w hq)) hne hf
    unfold Loop.pollHead at hu
    split at hu
    · rw [if_neg (ne_nil_of_mem hq)] at hu
      cases hu
    · rw [hnone] at hu
      cases hu
  · exact fun hs => recovers_of_agrees (h.agrees hs)

theorem loopFork_forked {watching : Bool} {fds : Fds} (h : Tabled s) (hr : Reads own s) (hg : Granted own s watching fds)
    (ht : loopFork own s watching fds = some t) : Forked own s t := by
  obtain ⟨u, hu, rfl⟩ := loopFork_reopened h hr hg ht
  exact hu.forked

theorem inv_run (own : Own W) : (system own).Inductive fun s => Tabled s ∧ Reads own s where
  init := by
    intro s h
    refine ⟨⟨s.kernel, (agrees_run none).init s h⟩, fun w _ => ?_⟩
    obtain ⟨-, -, -, -, h5, -⟩ := h
    rw [h5]
    exact zero_sub _
  step := by
    intro s l t h hs
    cases hs with
    | io ha hs => exact inv_io h.1 h.2 ha hs
    | fork _ hg ht =>
      have hf := loopFork_forked h.1 h.2 hg ht
      exact ⟨hf.tabled, hf.reads⟩

/-- **`uv_loop_fork` re-registers everything, unless a watcher waits for an `EPOLL_CTL_MOD`.**
In every state the process may fork in: the next `uv__io_poll` gets through its registration
loop, with the kernel's interest in each watched descriptor what its watcher wants, if and
only if every watcher that was queued when the process forked, but for the loop's own, had
`events` 0. -/
theorem loop_fork (hr : (system own).Reachable s) {watching : Bool} {fds : Fds} (hg : Granted own s watching fds)
    (ht : loopFork own s watching fds = some t) : Recovers t ↔ Untold own s :=
  have h := (inv_run own).reachable hr
  (loopFork_forked h.1 h.2 hg ht).recovers_iff

/-- In a run whose forks find nobody queued who has told the kernel something every poll gets
through, however often the process forks. -/
theorem fork_run (hr : ((system own).restrict fun s l => l = .fork → Untold own s).Reachable s) : Recovers s := by
  have hi : ((system own).restrict fun s l => l = .fork → Untold own s).Inductive
      fun s => (Tabled s ∧ Reads own s) ∧ Agrees s := by
    refine ((inv_run own).restrict _).with_ (fun s h => (agrees_run none).init s h) fun s l t h ha hs => ?_
    obtain ⟨hc, hs⟩ := hs
    cases hs with
    | io _ hs => exact agrees_step ha hs
    | fork _ hg ht => exact (loopFork_forked h.1 h.2 hg ht).agrees (hc rfl)
  exact recovers_of_agrees (hi.reachable hr).2

end Main

/-! ## Two forks -/

def ownThree : Own (Fin 4) := ⟨0, 1, 2, by decide, by decide, by decide⟩

/-- The signal watcher has descriptor 3, and another one 5. -/
def TwoLive (s : Loop (Fin 4)) : Prop :=
  s.pc = .idle ∧ ∀ w, s.live w = true → w = 2 ∧ (s.io w).fd = 3 ∨ w = 3 ∧ (s.io w).fd = 5

instance (s : Loop (Fin 4)) : Decidable (TwoLive s) := by unfold TwoLive; infer_instance

theorem TwoLive.granted {s : Loop (Fin 4)} (h : TwoLive s) : Granted ownThree s false ⟨0, 0, 3⟩ := by
  have hl : ∀ w, w ≠ 2 → w ≠ 3 → s.live w ≠ true := fun w h2 h3 e => (h.2 w e).elim (fun h => h2 h.1) fun h => h3 h.1
  refine ⟨nofun, by decide, nofun, fun e => absurd e (hl 1 (by decide) (by decide)), nofun,
    fun e => absurd e (hl 1 (by decide) (by decide)), fun w hw ho => ?_⟩
  rcases h.2 w hw with ⟨rfl, -⟩ | ⟨-, hf⟩
  · exact absurd (.inr (.inr rfl)) ho
  · rw [hf]
    decide

theorem registered : ∃ s : Loop (Fin 4), (system ownThree).Reachable s ∧ TwoLive s ∧ s.live 3 = true ∧
    (loopFork ownThree s false ⟨0, 0, 3⟩).isSome = true ∧ s.watcherQueue = [] ∧ (s.io 3).events = POLLIN ∧
    (s.ioStart 3 POLLOUT).any (fun s => TwoLive s ∧ s.watcherQueue = [3] ∧
      (loopFork ownThree s false ⟨0, 0, 3⟩).any fun t => t.pollHead.isNone) = true := by
  have h0 : (system ownThree).Reachable ⟨[], 0, 0, [], fun _ => ⟨-1, 0, 0⟩, fun _ => false, fun _ => none, .idle⟩ :=
    .init ⟨rfl, rfl, rfl, rfl, fun _ => rfl, fun _ => rfl, fun _ => rfl, rfl⟩
  have h1 := h0.next (.io (.init 2 3)) (.io trivial (.init trivial rfl (by decide) (by decide)))
  have h2 := h1.next (.io (.start 2 POLLIN)) (.io (fun _ => rfl) (.start trivial rfl (fun _ => rfl) rfl))
  have h3 := h2.next (.io (.init 3 5)) (.io trivial (.init trivial rfl (by decide) (by decide)))
  have h4 := h3.next (.io (.start 3 POLLIN)) (.io (fun _ => rfl) (.start trivial rfl (fun _ => rfl) rfl))
  have h5 := h4.next (.io .poll) (.io trivial (.poll rfl rfl))
  have h6 := h5.next (.io .ret) (.io trivial (.ret rfl))
  exact ⟨_, h6, by decide +kernel, rfl, by decide +kernel, rfl, rfl, by decide +kernel⟩

/-- A loop that has its signal pipe, and forks. -/
theorem fork_run_two : ∃ s t : Loop (Fin 4), loopFork ownThree s false ⟨0, 0, 3⟩ = some t ∧ Recovers t := by
  let s0 : Loop (Fin 4) := ⟨[], 0, 0, [], fun _ => ⟨-1, 0, 0⟩, fun _ => false, fun _ => none, .idle⟩
  have h0 : ((system ownThree).restrict fun s l => l = .fork → Untold ownThree s).Reachable s0 :=
    .init ⟨rfl, rfl, rfl, rfl, fun _ => rfl, fun _ => rfl, fun _ => rfl, rfl⟩
  have h1 := h0.step (l := .io (.init 2 3)) ⟨nofun, .io trivial (.init trivial rfl (by decide) fun _ _ h => nomatch h)⟩
  have hl : TwoLive (s0.ioInit 2 3) := by decide
  obtain ⟨t, ht⟩ : ∃ t, loopFork ownThree (s0.ioInit 2 3) false ⟨0, 0, 3⟩ = some t := Option.isSome_iff_exists.1 (by decide +kernel)
  have hs : (system ownThree).step (s0.ioInit 2 3) .fork t := .fork trivial hl.granted ht
  have hc : (Label.fork : Label (Fin 4)) = .fork → Untold ownThree (s0.ioInit 2 3) := fun _ w hw => nomatch hw
  exact ⟨_, t, ht, fork_run (h1.step (l := .fork) ⟨hc, hs⟩)⟩

/-- The watcher on descriptor 5 wants to write, too, when the process forks: the next poll
stops the program. -/
theorem loop_fork_aborts : ∃ s t : Loop (Fin 4), (system ownThree).Reachable s ∧ s.Calls ∧
    Granted ownThree s false ⟨0, 0, 3⟩ ∧ loopFork ownThree s false ⟨0, 0, 3⟩ = some t ∧ t.pollHead = none := by
  obtain ⟨s, h, ⟨hpc, -⟩, hl, -, -, -, hd⟩ := registered
  obtain ⟨d, hs, hd⟩ := (Option.any_eq_true _ _).1 hd
  obtain ⟨h2, -, hd⟩ := of_decide_eq_true hd
  obtain ⟨t, ht, hn⟩ := (Option.any_eq_true _ _).1 hd
  have hc : s.Calls := by
    unfold Loop.Calls
    rw [hpc]
    trivial
  have hd : (system ownThree).Reachable d :=
    h.step (.io (l := .start 3 POLLOUT) (fun e => absurd e (by unfold Own.Has; decide)) (.start hc hl (fun e => absurd e (by decide)) hs))
  refine ⟨d, t, hd, ?_, h2.granted, ht, Option.isNone_iff_eq_none.1 hn⟩
  unfold Loop.Calls
  rw [h2.1]
  trivial

/-- With nobody queued both descriptors are registered again. -/
theorem loop_fork_two : ∃ s t : Loop (Fin 4), s.live 3 = true ∧ (s.io 3).events = POLLIN ∧
    loopFork ownThree s false ⟨0, 0, 3⟩ = some t ∧ Recovers t := by
  obtain ⟨s, h, h2, hl, ht, hq, he, -⟩ := registered
  obtain ⟨t, ht⟩ := Option.isSome_iff_exists.1 ht
  refine ⟨s, t, hl, he, ht, (loop_fork h h2.granted ht).2 fun w hw => ?_⟩
  rw [hq] at hw
  cases hw

end Libuv.L2.Fork
