import Libuv.L2Loop.IoWatcherBatch

/-!
# Poll handles among other watchers (`poll.c`)

A `uv_poll_t` watches a descriptor that belongs to the user. The user may close it once the
handle is stopped, and its number may come back as the descriptor of another watcher while
the stopped handle is still there. `uv_poll_start`, `uv_poll_stop` and `uv_close` go by that
number: `uv_poll_start` looks for another owner in the table first, `uv__poll_stop` does not,
and `uv__platform_invalidate_fd` takes whatever is registered under the number out of the
kernel and out of the batch that runs.

The system is that of the I/O watchers with poll handles: `isPoll` says which watchers are
the `io_watcher` of a poll handle, `live` whether it is initialised and not closing. The
kernel drops a registration with its descriptor. A watcher may be initialised for any
number, so one number may have several.

* `poll_handles`: in the runs that meet `Safe` every watcher that has told the kernel something
  is registered with it; `uv_poll_start` leaves every other watcher in the table alone, and
  `uv_poll_stop` and `uv_close` do if and only if no other watcher has the number registered
  or events of it pending.
* `poll_stop_disturbs`: a stopped handle is stopped again, and a watcher that has its
  number now is deaf.
-/
namespace Libuv.L2.Poll
open Libuv.L2.IoWatcher Option Function

def UV_READABLE : Mask := 1#32
def UV_WRITABLE : Mask := 2#32
def UV_DISCONNECT : Mask := 4#32
def UV_PRIORITIZED : Mask := 8#32

variable {W : Type*} [DecidableEq W]

section Source
variable (s : Loop W) (w : W)

/-- mirrors unix/core.c:969-971 -/
def fdExists (fd : ℤ) : Prop := 0 ≤ fd ∧ fd.toNat < s.nwatchers.toNat ∧ s.watchers[fd.toNat]? ≠ some .null

/-- `EPOLL_CTL_ADD`, which may fail with `EEXIST`, and `EPOLL_CTL_DEL`.
mirrors unix/epoll.c:82-100 -/
def ioCheckFd (fd : ℤ) : Option (Loop W) :=
  let s := match s.epollCtl .add fd POLLIN with
    | .ok s => s
    | .error _ => s
  match s.epollCtl .del fd 0 with
  | .ok s => some s
  | .error _ => none

instance (fd : ℤ) : Decidable (fdExists s fd) := by unfold fdExists; infer_instance

/-- The result is `true` for `UV_EEXIST`.
mirrors unix/poll.c:68-94 -/
def pollInit (fd : ℤ) : Option (Loop W × Bool) :=
  if fdExists s fd then some (s, true) else (ioCheckFd s fd).map fun s => (s.ioInit w fd, false)

/-- mirrors unix/poll.c:103-109 -/
def pollStop : Option (Loop W) := (s.ioStop w pollMask).bind fun s => s.platformInvalidateFd (s.io w).fd

/-- mirrors unix/poll.c:140-148 -/
def pollEvents (pevents : Mask) : Mask :=
  (if pevents &&& UV_READABLE ≠ 0 then POLLIN else 0) ||| (if pevents &&& UV_PRIORITIZED ≠ 0 then POLLPRI else 0) |||
    (if pevents &&& UV_WRITABLE ≠ 0 then POLLOUT else 0) ||| (if pevents &&& UV_DISCONNECT ≠ 0 then POLLRDHUP else 0)

/-- The result is `true` for `UV_EEXIST`.
mirrors unix/poll.c:119-155 -/
def pollStart (pevents : Mask) : Option (Loop W × Bool) :=
  if ¬ pevents.sub (UV_READABLE ||| UV_WRITABLE ||| UV_DISCONNECT ||| UV_PRIORITIZED) then none
  else if fdExists s (s.io w).fd ∧ s.watchers[(s.io w).fd.toNat]? ≠ some (.watcher w) then some (s, true)
  else
    (pollStop s w).bind fun s =>
      if pevents = 0 then some (s, false) else (s.ioStart w (pollEvents pevents)).map fun s => (s, false)

/-- mirrors unix/poll.c:158-160 -/
def pollClose : Option (Loop W) := (pollStop s w).map fun s => { s with live := Function.update s.live w false }

/-- `uv__poll_io` before the user's callback.
mirrors unix/poll.c:30-52 -/
def pollIo (events : Mask) : Option (Loop W) :=
  if events &&& POLLERR ≠ 0 ∧ events &&& POLLPRI = 0 then s.ioStop w pollMask else some s

end Source

inductive Label (W : Type*)
  | io (l : IoWatcher.Label W)
  | init (w : W) (fd : ℤ)
  | pollInit (w : W) (fd : ℤ)
  | pollStart (w : W) (pevents : Mask)
  | pollStop (w : W)
  | pollClose (w : W)
  | pollIo (w : W) (events : Mask)
  | closeFd (fd : ℤ)

/-- The calls for the other watchers, and the loop's own steps. -/
def Allowed (isPoll : W → Bool) : IoWatcher.Label W → Prop
  | .init _ _ => False
  | .start w _ | .stop w _ | .close w _ | .deliver _ w _ => isPoll w = false
  | _ => True

/-- The user closes a descriptor nobody is active on. -/
inductive Step (sig : Option W) (isPoll : W → Bool) : Loop W → Label W → Loop W → Prop
  | io {s t : Loop W} {l : IoWatcher.Label W} (ha : Allowed isPoll l) (h : IoWatcher.Step sig s l t) :
      Step sig isPoll s (.io l) t
  | init {s : Loop W} {w : W} {fd : ℤ} (hc : s.Calls) (hp : isPoll w = false) (hl : s.live w = false) (hfd : -1 ≤ fd) :
      Step sig isPoll s (.init w fd) (s.ioInit w fd)
  | pollInit {s t : Loop W} {w : W} {fd : ℤ} {e : Bool} (hc : s.Calls) (hp : isPoll w = true) (hl : s.live w = false)
      (hfd : 0 ≤ fd) (ht : pollInit s w fd = some (t, e)) : Step sig isPoll s (.pollInit w fd) t
  | pollStart {s t : Loop W} {w : W} {pevents : Mask} {e : Bool} (hc : s.Calls) (hp : isPoll w = true)
      (hl : s.live w = true) (ht : pollStart s w pevents = some (t, e)) : Step sig isPoll s (.pollStart w pevents) t
  | pollStop {s t : Loop W} {w : W} (hc : s.Calls) (hp : isPoll w = true) (hl : s.live w = true)
      (ht : pollStop s w = some t) : Step sig isPoll s (.pollStop w) t
  | pollClose {s t : Loop W} {w : W} (hc : s.Calls) (hp : isPoll w = true) (hl : s.live w = true)
      (ht : pollClose s w = some t) : Step sig isPoll s (.pollClose w) t
  | pollIo {s t u : Loop W} {i : ℕ} {w : W} {events : Mask} (hp : isPoll w = true)
      (h : IoWatcher.Step sig s (.deliver i w events) t) (hu : pollIo t w events = some u) :
      Step sig isPoll s (.pollIo w events) u
  | closeFd {s : Loop W} {fd : ℤ} (hc : s.Calls) (hs : ∀ w, (s.io w).fd = fd → (s.io w).pevents = 0) :
      Step sig isPoll s (.closeFd fd) { s with kernel := Function.update s.kernel fd none }

def system (sig : Option W) (isPoll : W → Bool) : LTS (Loop W) (Label W) where
  init := Loop.fresh
  step := Step sig isPoll

/-! ## When a call disturbs nobody -/

/-- No other watcher has the number of `w` registered, or events of it pending. -/
def Alone (s : Loop W) (w : W) : Prop :=
  ∀ (i : ℕ) w', w' ≠ w → i < s.nwatchers.toNat → s.watchers[i]? = some (.watcher w') → (s.io w).fd = i →
    (s.io w').events = 0 ∧ ∀ b, s.pc = .batch b → ∀ (j : ℕ) e, b.i ≤ j → b.events[j]? = some e → e.fd ≠ i

/-- No other watcher has the table's entry for the number of `w`. -/
def Vacant (s : Loop W) (w : W) : Prop :=
  ∀ (i : ℕ) w', i < s.nwatchers.toNat → s.watchers[i]? = some (.watcher w') → (s.io w).fd = i → w' = w

def Safe (s : Loop W) : Label W → Prop
  | .pollStop w | .pollClose w | .io (.close w _) => Alone s w
  | .io (.start w _) => Vacant s w
  | _ => True

/-- Every other watcher in the table keeps its entry, its place in the queue, its
registration and its pending events. -/
def Undisturbed (w : W) (s t : Loop W) : Prop :=
  ∀ (i : ℕ) w', w' ≠ w → i < s.nwatchers.toNat → s.watchers[i]? = some (.watcher w') →
    t.watchers[i]? = some (.watcher w') ∧ t.io w' = s.io w' ∧ (w' ∈ t.watcherQueue ↔ w' ∈ s.watcherQueue) ∧
    ((s.io w').events ≠ 0 → t.kernel i = s.kernel i) ∧ ∀ b, s.pc = .batch b → ∃ b', t.pc = .batch b' ∧ b'.i = b.i ∧
      ∀ (j : ℕ) (e : EpollEvent), b.i ≤ j → e.fd = i → b.events[j]? = some e → b'.events[j]? = some e

/-! ## The invariant -/

def started (s : Loop W) (w : W) : Bool := decide ((s.io w).pevents ≠ 0)

/-- The table, the queue, the watchers and the kernel agree, with the watchers that want
something for the live ones: a number has at most one of those. -/
structure Inv (s : Loop W) : Prop where
  agrees : Agrees (s.under (started s) s.kernel)
  hidden : Hidden s
  live : ∀ w, (s.io w).pevents ≠ 0 → s.live w = true

section Steps
variable {s t u : Loop W} {w : W}

theorem agrees_started {live : W → Bool} (h : Agrees (s.under live s.kernel)) : Agrees (s.under (started s) s.kernel) :=
  h.under (fun _ hw => decide_eq_true hw)
    (fun w w' l l' => h.distinct w w' (h.live w (of_decide_eq_true l)) (h.live w' (of_decide_eq_true l')))
    (fun w hw => (h.clean w hw).2) fun _ => id

theorem Inv.shaped (h : Inv s) : Shaped s := ⟨h.agrees.shaped.length, h.agrees.shaped.cells⟩

theorem Inv.told (h : Inv s) (he : (s.io w).events ≠ 0) :
    ∃ i : ℕ, i < s.nwatchers.toNat ∧ (s.io w).fd = i ∧ s.watchers[i]? = some (.watcher w) ∧
      s.kernel i = some (s.io w).events := by
  obtain ⟨hp, hk⟩ := h.agrees.clean w he
  obtain ⟨i, h1, h2, h3⟩ := h.agrees.mapped w hp
  refine ⟨i, h1, h2, h3, ?_⟩
  rw [← h2]
  exact hk

theorem Inv.retell (h : Inv s) {kernel : ℤ → Option Mask} {pc : Pc}
    (hk : ∀ w, (s.io w).events ≠ 0 → kernel (s.io w).fd = s.kernel (s.io w).fd)
    (hm : ∀ fd, (kernel fd).isSome = true → (s.kernel fd).isSome = true) (hpc : size pc = size s.pc) :
    Inv { s with kernel := kernel, pc := pc } := by
  refine ⟨?_, h.hidden.kept (.same rfl rfl) hpc, h.live⟩
  have ha := h.agrees
  exact setPc_agrees (ha.under ha.live ha.distinct (fun w hw => (hk w hw).trans (ha.clean w hw).2) hm) pc

theorem update_isSome {kernel : ℤ → Option Mask} {fd fd' : ℤ} (h : (update kernel fd none fd').isSome = true) :
    (kernel fd').isSome = true := by
  rw [update_apply] at h
  split at h
  · cases h
  · exact h

theorem Inv.forget (h : Inv s) {fd : ℤ} {pc : Pc} (hd : ∀ w, (s.io w).events ≠ 0 → (s.io w).fd ≠ fd)
    (hpc : size pc = size s.pc) : Inv { s with kernel := update s.kernel fd none, pc := pc } :=
  h.retell (fun w hw => update_of_ne (hd w hw) ..) (fun _ => update_isSome) hpc

theorem Inv.awake (h : Inv s) (hv : Vacant s w) : Agrees (s.under (update (started s) w true) s.kernel) := by
  have ha := h.agrees
  have hone : ∀ w', started s w' = true → (s.io w').fd = (s.io w).fd → w' = w := fun w' hw' hf => by
    obtain ⟨i, h1, h2, h3⟩ := ha.mapped w' (of_decide_eq_true hw')
    have h2 : (s.io w').fd = i := h2
    exact hv i w' h1 h3 (by rw [← hf, h2])
  refine ha.under (fun w' hw' => ?_) (fun w1 w2 l1 l2 hne hf => ?_) (fun w' hw' => (ha.clean w' hw').2) fun _ => id
  · rw [update_apply]
    split
    · rfl
    · exact decide_eq_true hw'
  · rw [update_apply] at l1 l2
    have hf : (s.io w1).fd = (s.io w2).fd := hf
    split at l1
    · next e1 =>
      split at l2
      · next e2 => rw [e1, e2]
      · rw [e1]
        exact (hone w2 l2 (by rw [← e1, hf])).symm
    · split at l2
      · next e2 =>
        rw [e2]
        exact hone w1 l1 (by rw [← e2, hf])
      · exact ha.distinct w1 w2 l1 l2 hne hf

theorem Inv.start (h : Inv s) {ev : Mask} (hl : s.live w = true) (hv : Vacant s w) (ht : s.ioStart w ev = some t) : Inv t := by
  have hf := ioStart_startFrame ht
  have hcf := (ioStart_callFrame h.shaped ht).1
  have hu : (s.under (update (started s) w true) s.kernel).ioStart w ev =
      some (t.under (update (started s) w true) s.kernel) := by
    rw [ioStart_under, ht]
    rfl
  have ha := ioStart_agrees (h.awake hv) (by exact update_self ..) hu
  rw [← hf.kernel] at ha
  refine ⟨agrees_started ha, h.hidden.kept hcf.kept (by rw [hcf.pc]), fun w' hw' => ?_⟩
  rw [hf.live]
  by_cases e : w' = w
  · rw [e, hl]
  · rw [hf.io, if_neg e] at hw'
    exact h.live w' hw'

theorem ioStop_idle (h : Agrees s) {ev : Mask} (hp : (s.io w).pevents = 0) (ht : s.ioStop w ev = some t) : t = s := by
  have he : (s.io w).events = 0 := by
    by_contra hne
    exact (h.clean w hne).1 hp
  have hq : w ∉ s.watcherQueue := fun hq => h.queued w hq hp
  have hself : s.idled w = s := by
    have hio : ({ s.io w with events := 0, pevents := 0 } : Io) = s.io w := by
      cases hio : s.io w
      simp_all
    rw [Loop.idled, hio, Loop.setIo, update_eq_self, List.erase_of_not_mem hq]
  cases ioStop_stops ht with
  | unset | outside => rfl
  | fewer f hf hlt hne => exact absurd (by rw [hp]; exact BitVec.zero_and) hne
  | absent => exact hself
  | emptied f hf hlt _ hc h0 => exact absurd hp (h.owner _ w hlt hc).1

theorem ioStop_entry {ev : Mask} (ht : s.ioStop w ev = some t) (i : ℕ) {w' : W} (hw : w' ≠ w) :
    t.watchers[i]? = some (.watcher w') ↔ s.watchers[i]? = some (.watcher w') := by
  cases ioStop_stops ht with
  | unset | outside | absent => rfl
  | fewer =>
    rw [Loop.enqueue_watchers]
    rfl
  | emptied f hf hlt hp hc h0 =>
    by_cases hi : i = f
    · subst hi
      rw [hc, List.getElem?_set_self (List.getElem?_eq_some_iff.1 hc).1]
      exact ⟨nofun, fun h => absurd (Cell.watcher.inj (some.inj h)).symm hw⟩
    · rw [List.getElem?_set_ne (Ne.symm hi)]

theorem Inv.stop (h : Inv s) {ev : Mask} (ht : s.ioStop w ev = some t) : Inv t := by
  have hf := ioStop_callFrame ht
  have hu : (s.under (started s) s.kernel).ioStop w ev = some (t.under (started s) s.kernel) := by
    rw [ioStop_under, ht]
    rfl
  by_cases hp : (s.io w).pevents = 0
  · have := ioStop_idle h.agrees hp hu
    have e : t = s := by
      have h1 := congrArg (fun x : Loop W => x.under s.live s.kernel) this
      have h2 : t = t.under s.live s.kernel := by rw [← hf.live, ← hf.kernel]; rfl
      exact h2.trans h1
    rw [e]
    exact h
  · have ha := ioStop_agrees h.agrees (by exact decide_eq_true hp) hu
    rw [← hf.kernel] at ha
    refine ⟨agrees_started ha, h.hidden.kept hf.kept (by rw [hf.pc]), fun w' hw' => ?_⟩
    rw [hf.live]
    by_cases e : w' = w
    · rw [e]
      exact h.live w hp
    · rw [hf.other w' e] at hw'
      exact h.live w' hw'

theorem Inv.stop_all (h : Inv s) (ht : s.ioStop w pollMask = some t) : (t.io w).pevents = 0 ∧ (t.io w).events = 0 := by
  have hu : (s.under (started s) s.kernel).ioStop w pollMask = some (t.under (started s) s.kernel) := by
    rw [ioStop_under, ht]
    rfl
  exact ioStop_wanted (t := t.under (started s) s.kernel) h.agrees (h.agrees.mask w) hu

/-! ## Stopping a poll handle -/

/-- What `uv__poll_stop` does: `w` wants nothing, its number leaves the kernel and the batch. -/
structure Stopped (w : W) (s t : Loop W) : Prop where
  io : ∀ w', w' ≠ w → t.io w' = s.io w'
  fd : (t.io w).fd = (s.io w).fd
  idle : (t.io w).pevents = 0 ∧ (t.io w).events = 0
  live : t.live = s.live
  queue : ∀ w', w' ≠ w → (w' ∈ t.watcherQueue ↔ w' ∈ s.watcherQueue)
  nwatchers : t.nwatchers = s.nwatchers
  entry : ∀ (i : ℕ) w', w' ≠ w → (t.watchers[i]? = some (.watcher w') ↔ s.watchers[i]? = some (.watcher w'))
  kernel : t.kernel = Function.update s.kernel (s.io w).fd none
  outside : size s.pc = none → t.pc = s.pc
  batch : ∀ b, s.pc = .batch b → ∃ b', t.pc = .batch b' ∧ Cleared (s.io w).fd b b'

theorem pollStop_stopped (h : Inv s) (ht : pollStop s w = some t) : Stopped w s t := by
  obtain ⟨u, hu, ht⟩ := bind_eq_some_iff.1 ht
  have hf := ioStop_callFrame hu
  have hi := h.stop hu
  obtain ⟨e, h1, h2⟩ := platformInvalidateFd_spec hi.hidden ht
  rw [hf.pc] at h1 h2
  rw [hf.fd] at h2
  have hio : t.io = u.io := by rw [e]
  refine ⟨fun w' hw' => ?_, ?_, ?_, ?_, fun w' hw' => ?_, ?_, fun i w' hw' => ?_, ?_, h1, h2⟩
  · rw [hio]
    exact hf.other w' hw'
  · rw [hio]
    exact hf.fd w
  · rw [hio]
    exact h.stop_all hu
  · rw [e]
    exact hf.live
  · rw [e]
    exact ioStop_queue hu hw'
  · rw [e]
    exact (ioStop_frame hu).nwatchers
  · rw [e]
    exact ioStop_entry hu i hw'
  · rw [e, ← hf.kernel, hf.fd]

theorem Inv.alone_told (h : Inv s) (ha : Alone s w) {w' : W} (hne : w' ≠ w) (he : (s.io w').events ≠ 0) :
    (s.io w').fd ≠ (s.io w).fd := fun e => by
  obtain ⟨i, h1, h2, h3, -⟩ := h.told he
  exact he (ha i w' hne h1 h3 (by rw [← e, h2])).1

theorem Inv.invalidate (h : Inv s) {fd : ℤ} (hd : ∀ w, (s.io w).events ≠ 0 → (s.io w).fd ≠ fd)
    (ht : s.platformInvalidateFd fd = some t) : Inv t := by
  have hh := platformInvalidateFd_hidden h.hidden ht
  obtain ⟨e, -, -⟩ := platformInvalidateFd_spec h.hidden ht
  have ha := (h.forget hd (rfl : size s.pc = size s.pc)).agrees
  refine ⟨?_, hh, ?_⟩
  · rw [e]
    exact setPc_agrees ha t.pc
  · rw [e]
    exact h.live

theorem Inv.stop_told (h : Inv s) (ha : Alone s w) (hu : s.ioStop w pollMask = some u) {w' : W} (hw : (u.io w').events ≠ 0) :
    (u.io w').fd ≠ (u.io w).fd := by
  have hf := ioStop_callFrame hu
  have hne : w' ≠ w := fun e => hw (by rw [e]; exact (h.stop_all hu).2)
  rw [hf.other w' hne] at hw ⊢
  rw [hf.fd w]
  exact h.alone_told ha hne hw

theorem Inv.pollStop (h : Inv s) (ha : Alone s w) (ht : pollStop s w = some t) : Inv t := by
  obtain ⟨u, hu, ht⟩ := bind_eq_some_iff.1 ht
  exact (h.stop hu).invalidate (fun w' hw' => h.stop_told ha hu hw') ht

theorem Stopped.undisturbed_iff (hs : Stopped w s t) (h : Inv s) : Undisturbed w s t ↔ Alone s w := by
  constructor
  · intro hu i w' hne hi hw' hf
    obtain ⟨-, -, -, hk, hb⟩ := hu i w' hne hi hw'
    refine ⟨?_, fun b hpc j e hj he hfd => ?_⟩
    · by_contra he
      obtain ⟨i', -, h2, -, h4⟩ := h.told he
      have hi' := (h.agrees.owner i w' hi hw').2
      have hi' : (s.io w').fd = i := hi'
      have := hk he
      rw [hs.kernel, hf, update_self] at this
      rw [← hi', h2, h4] at this
      cases this
    · obtain ⟨b1, e1, -, hkeep⟩ := hb b hpc
      obtain ⟨b2, e2, hc⟩ := hs.batch b hpc
      cases e1.symm.trans e2
      exact (hc.get j e (hkeep j e hj hfd he) (by omega)).2 (hfd.trans hf.symm)
  · intro ha i w' hne hi hw'
    refine ⟨(hs.entry i w' hne).2 hw', hs.io w' hne, hs.queue w' hne, fun he => ?_, fun b hpc => ?_⟩
    · have hi' : (s.io w').fd = i := (h.agrees.owner i w' hi hw').2
      rw [hs.kernel, ← hi', update_of_ne (h.alone_told ha hne he)]
    · obtain ⟨b', e, hc⟩ := hs.batch b hpc
      refine ⟨b', e, by rw [hc.rest], fun j ev hj hf hev => hc.keep j ev hev fun e' => ?_⟩
      exact (ha i w' hne hi hw' (by rw [← e', hf])).2 b hpc j ev hj hev hf

omit [DecidableEq W] in
theorem Vacant.alone (hv : Vacant s w) : Alone s w := fun i w' hne hi hw' hf => absurd (hv i w' hi hw' hf) hne

omit [DecidableEq W] in
theorem Undisturbed.refl (w : W) (s : Loop W) : Undisturbed w s s := fun _ _ _ _ hw' =>
  ⟨hw', rfl, Iff.rfl, fun _ => rfl, fun b hb => ⟨b, hb, rfl, fun _ _ _ _ h => h⟩⟩

omit [DecidableEq W] in
theorem Undisturbed.trans (h : Undisturbed w s t) (h' : Undisturbed w t u) (hn : s.nwatchers.toNat ≤ t.nwatchers.toNat) :
    Undisturbed w s u := by
  intro i w' hne hi hw'
  obtain ⟨a1, a2, a3, a4, a5⟩ := h i w' hne hi hw'
  obtain ⟨b1, b2, b3, b4, b5⟩ := h' i w' hne (by omega) a1
  refine ⟨b1, b2.trans a2, b3.trans a3, fun he => ?_, fun b hb => ?_⟩
  · rw [b4 (by rw [a2]; exact he), a4 he]
  · obtain ⟨b', e', hi', hk'⟩ := a5 b hb
    obtain ⟨b'', e'', hi'', hk''⟩ := b5 b' e'
    exact ⟨b'', e'', hi''.trans hi', fun j e hj hf he => hk'' j e (by omega) hf (hk' j e hj hf he)⟩

theorem ioStart_entry (h : Shaped s) {ev : Mask} (ht : s.ioStart w ev = some t) {i : ℕ} {w' : W} (hi : i < s.nwatchers.toNat)
    (hw : s.watchers[i]? = some (.watcher w')) : t.watchers[i]? = some (.watcher w') := by
  obtain ⟨f, u, -, -, -, hlt, hlen, hu, hstarts⟩ := ioStart_starts ht
  obtain ⟨hgr, -⟩ := maybeResize_spec h (by omega) hu
  have hold : u.watchers[i]? = some (.watcher w') := (hgr.old i hi).trans hw
  cases hstarts with
  | told => exact hold
  | entered _ hc =>
    have hne : f ≠ i := fun e => by
      rw [e, Loop.setIo_watchers, hold] at hc
      cases hc
    simp only
    rw [Loop.enqueue_watchers, List.getElem?_set_ne hne]
    exact hold
  | kept =>
    rw [Loop.enqueue_watchers]
    exact hold

theorem ioStart_undisturbed (h : Shaped s) {ev : Mask} (ht : s.ioStart w ev = some t) : Undisturbed w s t := by
  have hf := ioStart_startFrame ht
  have hcf := (ioStart_callFrame h ht).1
  intro i w' hne hi hw'
  refine ⟨ioStart_entry h ht hi hw', hcf.other w' hne, hf.queue w' hne, fun _ => by rw [hf.kernel], fun b hb =>
    ⟨b, ?_, rfl, fun _ _ _ _ h => h⟩⟩
  rw [hcf.pc, hb]

theorem pollStart_cases {pevents : Mask} {e : Bool} (ht : pollStart s w pevents = some (t, e)) :
    t = s ∧ e = true ∨ Vacant s w ∧ ∃ u, pollStop s w = some u ∧
      (t = u ∨ u.ioStart w (pollEvents pevents) = some t) := by
  unfold pollStart at ht
  split at ht
  · cases ht
  · split at ht
    · cases ht
      exact .inl ⟨rfl, rfl⟩
    · next hg =>
      obtain ⟨u, hu, ht⟩ := bind_eq_some_iff.1 ht
      refine .inr ⟨fun i w' hi hw' hf => ?_, u, hu, ?_⟩
      · by_contra hne
        refine hg ⟨⟨by omega, ?_, ?_⟩, ?_⟩
        · rw [hf]
          exact hi
        · rw [hf, Int.toNat_natCast, hw']
          nofun
        · rw [hf, Int.toNat_natCast, hw']
          exact fun e => hne (Cell.watcher.inj (some.inj e))
      · split at ht
        · cases ht
          exact .inl rfl
        · obtain ⟨v, hv, e⟩ := map_eq_some_iff.1 ht
          cases e
          exact .inr hv

theorem Stopped.vacant (hs : Stopped w s t) (hv : Vacant s w) : Vacant t w := fun i w' hi hw' hf => by
  by_contra hne
  rw [hs.nwatchers] at hi
  rw [hs.fd] at hf
  exact hne (hv i w' hi ((hs.entry i w' hne).1 hw') hf)

theorem Inv.pollStart (h : Inv s) (hl : s.live w = true) {pevents : Mask} {e : Bool} (ht : pollStart s w pevents = some (t, e)) :
    Inv t ∧ Undisturbed w s t := by
  rcases pollStart_cases ht with ⟨rfl, -⟩ | ⟨hv, u, hu, ht⟩
  · exact ⟨h, Undisturbed.refl w t⟩
  · have hs := pollStop_stopped h hu
    have hi := h.pollStop hv.alone hu
    have hund := (hs.undisturbed_iff h).2 hv.alone
    rcases ht with rfl | ht
    · exact ⟨hi, hund⟩
    · have hlu : u.live w = true := by rw [hs.live, hl]
      refine ⟨hi.start hlu (hs.vacant hv) ht, hund.trans (ioStart_undisturbed hi.shaped ht) ?_⟩
      rw [hs.nwatchers]

theorem Inv.drop (h : Inv s) (hp : (s.io w).pevents = 0) : Inv { s with live := update s.live w false } := by
  refine ⟨h.agrees, ⟨h.hidden.empty, h.hidden.full⟩, fun w' hw' => ?_⟩
  have hne : w' ≠ w := fun e => hw' (e ▸ hp)
  exact (update_of_ne hne ..).trans (h.live w' hw')

theorem Inv.close (h : Inv s) (ha : Alone s w) (ht : s.ioClose w = some t) : Inv t := by
  unfold Loop.ioClose at ht
  split at ht
  · cases ht
  · next u hu =>
    have hi := (h.stop hu).drop (w := w) (h.stop_all hu).1
    dsimp only at ht
    split at ht
    · exact hi.invalidate (fun w' hw' => h.stop_told ha hu hw') ht
    · cases ht
      exact hi

theorem Inv.pollClose (h : Inv s) (ha : Alone s w) (ht : Poll.pollClose s w = some t) : Inv t := by
  obtain ⟨u, hu, rfl⟩ := map_eq_some_iff.1 ht
  exact (h.pollStop ha hu).drop (pollStop_stopped h hu).idle.1

theorem Inv.init (h : Inv s) (hl : s.live w = false) (fd : ℤ) : Inv (s.ioInit w fd) := by
  have hp : (s.io w).pevents = 0 := by
    by_contra hne
    rw [h.live w hne] at hl
    cases hl
  have hls : started s w = false := decide_eq_false fun hne => hne hp
  have := h.agrees.replace fd hls
  refine ⟨agrees_started this, h.hidden.kept (.same rfl rfl) rfl, fun w' hw' => ?_⟩
  simp only [Loop.ioInit, Loop.setIo_io] at hw' ⊢
  rw [update_apply]
  split
  · rfl
  · next hne =>
    rw [if_neg hne] at hw'
    exact h.live w' hw'

omit [DecidableEq W] in
theorem ioCheckFd_eq {fd : ℤ} (ht : ioCheckFd s fd = some t) : t = { s with kernel := update s.kernel fd none } := by
  unfold ioCheckFd Loop.epollCtl at ht
  by_cases hk : (s.kernel fd).isSome = true
  · simp only [if_pos hk] at ht
    cases ht
    rfl
  · simp only [if_neg hk, update_self, isSome_some, if_true, update_idem] at ht
    cases ht
    rfl

theorem Inv.pollInit (h : Inv s) (hl : s.live w = false) {fd : ℤ} {e : Bool} (ht : pollInit s w fd = some (t, e)) : Inv t := by
  unfold Poll.pollInit at ht
  split at ht
  · cases ht
    exact h
  · next hg =>
    obtain ⟨u, hu, e⟩ := map_eq_some_iff.1 ht
    cases e
    have hd : ∀ w', (s.io w').events ≠ 0 → (s.io w').fd ≠ fd := fun w' hw' hf => by
      obtain ⟨i, h1, h2, h3, -⟩ := h.told hw'
      rw [← hf, h2] at hg
      refine hg ⟨by omega, h1, ?_⟩
      rw [Int.toNat_natCast, h3]
      nofun
    rw [ioCheckFd_eq hu]
    exact (h.forget hd (rfl : size s.pc = size s.pc)).init hl fd

theorem Inv.closeFd (h : Inv s) {fd : ℤ} (hd : ∀ w, (s.io w).fd = fd → (s.io w).pevents = 0) :
    Inv { s with kernel := update s.kernel fd none } := by
  refine h.forget (fun w hw hf => ?_) (rfl : size s.pc = size s.pc)
  exact (h.agrees.clean w hw).1 (hd w hf)

/-! ## `uv__io_poll` -/

theorem registerAll_started : ∀ (q : List W) (s t : Loop W) (live : W → Bool), Agrees (s.under live s.kernel) →
    s.watcherQueue = q → Loop.registerAll q s = some t →
    Agrees (t.under live t.kernel) ∧ t.live = s.live ∧ ∀ w, (t.io w).pevents = (s.io w).pevents := by
  intro q
  induction q with
  | nil =>
    intro s t live h _ ht
    cases ht
    exact ⟨h, rfl, fun _ => rfl⟩
  | cons w rest ih =>
    intro s t live h hq ht
    rw [Loop.registerAll] at ht
    split at ht
    · cases ht
    · next u hu =>
      have hq' : (s.under live s.kernel).watcherQueue = w :: rest := hq
      obtain ⟨v, hv, ha, hrest, -, -, -, -, hio⟩ := register_agrees h hq'
      have e : v = u.under live u.kernel := by
        rw [register_eq hv, register_eq hu]
        rfl
      rw [e] at ha hrest hio
      obtain ⟨h1, h2, h3⟩ := ih u t live ha hrest ht
      refine ⟨h1, ?_, fun w' => (h3 w').trans (hio w').2⟩
      rw [h2, register_eq hu]
      rfl

theorem Inv.poll (h : Inv s) (ht : s.pollHead = some t) : Agrees (t.under (started t) t.kernel) ∧
    ∀ w, (t.io w).pevents ≠ 0 → t.live w = true := by
  unfold Loop.pollHead at ht
  split at ht
  · split at ht
    · cases ht
      exact ⟨h.agrees, h.live⟩
    · cases ht
  · split at ht
    · cases ht
    · next u hu =>
      cases ht
      obtain ⟨h1, h2, h3⟩ := registerAll_started _ _ _ _ h.agrees rfl hu
      refine ⟨agrees_started (setPc_agrees h1 _), fun w hw => ?_⟩
      rw [h3] at hw
      exact (congrFun h2 w).trans (h.live w hw)

theorem Inv.dispatch (h : Inv s) {sig : Option W} {b : Batch} {pe : EpollEvent} {c : Option (W × Mask)}
    (ht : s.dispatch sig b pe = some (t, c)) : Agrees (t.under (started t) t.kernel) ∧
      ∀ w, (t.io w).pevents ≠ 0 → t.live w = true := by
  unfold Loop.dispatch at ht
  simp only at ht
  split at ht
  · cases ht
    exact ⟨setPc_agrees h.agrees _, h.live⟩
  split at ht
  · cases ht
  next hr =>
  push Not at hr
  split at ht
  · next hn =>
    cases ht
    have hd : ∀ w, (s.io w).events ≠ 0 → (s.io w).fd ≠ pe.fd := fun w hw e => by
      obtain ⟨i, -, h2, h3, -⟩ := h.told hw
      rw [show pe.fd.toNat = i by omega, h3] at hn
      cases hn
    rw [ctlDel_eq]
    exact ⟨setPc_agrees (h.forget hd (rfl : size s.pc = size s.pc)).agrees _, h.live⟩
  · split at ht
    · cases ht
      exact ⟨setPc_agrees h.agrees _, h.live⟩
    · split at ht <;> cases ht <;> exact ⟨setPc_agrees h.agrees _, h.live⟩
  · cases ht

theorem Inv.io {sig : Option W} {isPoll : W → Bool} {l : IoWatcher.Label W} (h : Inv s) (ha : Allowed isPoll l)
    (hsafe : Safe s (.io l)) (hs : IoWatcher.Step sig s l t) : Inv t := by
  have hh := hidden_step h.shaped h.hidden hs
  cases hs with
  | init => exact ha.elim
  | start _ hl _ ht => exact h.start hl hsafe ht
  | stop _ _ _ ht => exact h.stop ht
  | close _ _ _ ht => exact h.close hsafe ht
  | poll _ ht => exact ⟨(h.poll ht).1, hh, (h.poll ht).2⟩
  | wait _ _ _ _ ht =>
    unfold Loop.waited at ht
    split at ht
    · cases ht
    · cases ht
      exact ⟨setPc_agrees (setSlots_agrees h.agrees _ _) _, hh, h.live⟩
  | next _ _ ht | deliver _ _ ht => exact ⟨(h.dispatch ht).1, hh, (h.dispatch ht).2⟩
  | deliverSignal _ _ _ _ | ret _ => exact ⟨setPc_agrees h.agrees _, hh, h.live⟩
  | finish _ _ _ _ => exact ⟨setPc_agrees (setSlots_agrees h.agrees _ _) _, hh, h.live⟩

theorem Inv.deliver {sig : Option W} {i : ℕ} {v : W} {m : Mask} (h : Inv s) (hs : IoWatcher.Step sig s (.deliver i v m) t) :
    Inv t := by
  have hh := hidden_step h.shaped h.hidden hs
  cases hs with
  | deliver _ _ ht => exact ⟨(h.dispatch ht).1, hh, (h.dispatch ht).2⟩

theorem Inv.pollIo (h : Inv s) {m : Mask} (ht : Poll.pollIo s w m = some t) : Inv t := by
  unfold Poll.pollIo at ht
  split at ht
  · exact h.stop ht
  · cases ht
    exact h

end Steps

/-! ## Runs -/

variable {sig : Option W} {isPoll : W → Bool} {s : Loop W}

theorem inv_run (sig : Option W) (isPoll : W → Bool) : ((system sig isPoll).restrict Safe).Inductive Inv where
  init := by
    intro s h
    have ha : Agrees (s.under s.live s.kernel) := (agrees_run none).init s h
    obtain ⟨h1, -, -, -, h5, -, -, h8⟩ := h
    refine ⟨agrees_started ha, ⟨fun _ => by rw [h8]; rfl, fun e => absurd h1 e⟩, fun w hw => ?_⟩
    rw [h5] at hw
    exact absurd rfl hw
  step := by
    intro s l t h hs
    obtain ⟨hsafe, hs⟩ := hs
    cases hs with
    | io ha hs => exact h.io ha hsafe hs
    | init _ _ hl _ => exact h.init hl _
    | pollInit _ _ hl _ ht => exact h.pollInit hl ht
    | pollStart _ _ hl ht => exact (h.pollStart hl ht).1
    | pollStop _ _ _ ht => exact h.pollStop hsafe ht
    | pollClose _ _ _ ht => exact h.pollClose hsafe ht
    | pollIo _ hs hu => exact (h.deliver hs).pollIo hu
    | closeFd _ hd => exact h.closeFd hd

/-- **Poll handles among other watchers.** In a run that meets `Safe` the kernel holds what
every watcher has told it; `uv_poll_start` leaves the registration, the pending events and
the entry of every other watcher in the table alone; `uv_poll_stop` and `uv_close` do if
and only if no other watcher has the handle's number registered or events of it pending. -/
theorem poll_handles (hr : ((system sig isPoll).restrict Safe).Reachable s) :
    (∀ w, (s.io w).events ≠ 0 → s.kernel (s.io w).fd = some (s.io w).events) ∧
    (∀ w pevents t, Step sig isPoll s (.pollStart w pevents) t → Undisturbed w s t) ∧
    (∀ w t, Step sig isPoll s (.pollStop w) t ∨ Step sig isPoll s (.pollClose w) t → (Undisturbed w s t ↔ Alone s w)) := by
  have h := (inv_run sig isPoll).reachable hr
  refine ⟨fun w hw => ?_, fun w pevents t hs => ?_, fun w t hs => ?_⟩
  · obtain ⟨i, -, h2, -, h4⟩ := h.told hw
    rw [h2, h4]
  · cases hs with
    | pollStart _ _ hl ht => exact (h.pollStart hl ht).2
  · rcases hs with hs | hs
    · cases hs with
      | pollStop _ _ _ ht => exact (pollStop_stopped h ht).undisturbed_iff h
    · cases hs with
      | pollClose _ _ _ ht =>
        obtain ⟨u, hu, rfl⟩ := map_eq_some_iff.1 ht
        exact (pollStop_stopped h hu).undisturbed_iff h

/-! ## A number that comes back -/

/-- The async watcher is 0, the poll handle 1, another watcher 2. -/
def isPollOne (w : Fin 3) : Bool := w == 1

omit [DecidableEq W] in
theorem vacant_of_entry {i : ℕ} {w : W} (hf : (s.io w).fd = i) (hw : ∀ w', s.watchers[i]? = some (.watcher w') → w' = w) :
    Vacant s w := fun j w' _ hj e => hw w' (by rwa [show i = j by omega])

/-- A handle on descriptor 5 is started and stopped, the descriptor is closed, and its
number becomes that of watcher 2, which is registered. -/
theorem reused : ∃ s : Loop (Fin 3), ((system none isPollOne).restrict Safe).Reachable s ∧ s.pc = .idle ∧ s.live 1 = true ∧
    (s.io 2).fd = 5 ∧ (s.io 2).events = POLLIN ∧
    (pollStop s 1).any (fun t => (t.io 2).fd = 5 ∧ (t.io 2).events = POLLIN ∧ t.watcherQueue = [] ∧ t.kernel 5 = none) = true := by
  have h0 : ((system none isPollOne).restrict Safe).Reachable
      ⟨[], 0, 0, [], fun _ => ⟨-1, 0, 0⟩, fun _ => false, fun _ => none, .idle⟩ :=
    .init ⟨rfl, rfl, rfl, rfl, fun _ => rfl, fun _ => rfl, fun _ => rfl, rfl⟩
  have h1 := h0.next (.init 0 3) ⟨trivial, .init trivial rfl rfl (by decide)⟩
  have h2 := h1.next (.io (.start 0 POLLIN)) ⟨vacant_of_entry (i := 3) rfl (by decide),
    .io rfl (.start trivial rfl (by decide) rfl)⟩
  have h3 := h2.next (.pollInit 1 5) ⟨trivial, .pollInit trivial rfl rfl (by decide) rfl⟩
  have h4 := h3.next (.pollStart 1 UV_READABLE) ⟨trivial, .pollStart trivial rfl rfl rfl⟩
  have h5 := h4.next (.io .poll) ⟨trivial, .io trivial (.poll rfl rfl)⟩
  have h6 := h5.next (.io .ret) ⟨trivial, .io trivial (.ret rfl)⟩
  have h7 := h6.next (.pollStop 1) ⟨(vacant_of_entry (i := 5) rfl (by decide)).alone, .pollStop trivial rfl rfl rfl⟩
  have h8 := h7.next (.closeFd 5) ⟨trivial, .closeFd trivial (by decide)⟩
  have h9 := h8.next (.init 2 5) ⟨trivial, .init trivial rfl rfl (by decide)⟩
  have h10 := h9.next (.io (.start 2 POLLIN)) ⟨vacant_of_entry (i := 5) rfl (by decide),
    .io rfl (.start trivial rfl (by decide) rfl)⟩
  have h11 := h10.next (.io .poll) ⟨trivial, .io trivial (.poll rfl rfl)⟩
  have h12 := h11.next (.io .ret) ⟨trivial, .io trivial (.ret rfl)⟩
  exact ⟨_, h12, rfl, rfl, rfl, rfl, by decide +kernel⟩

/-- The stopped handle is stopped again: watcher 2 still counts as registered, and the
kernel has forgotten it. -/
theorem poll_stop_disturbs : ∃ t : Loop (Fin 3), (system none isPollOne).Reachable t ∧ (t.io 2).events = POLLIN ∧
    2 ∉ t.watcherQueue ∧ (t.io 2).fd = 5 ∧ t.kernel 5 = none := by
  obtain ⟨s, hr, hpc, hl, -, -, ht⟩ := reused
  obtain ⟨t, ht, h⟩ := (any_eq_true _ _).1 ht
  obtain ⟨hf, he, hq, hk⟩ := of_decide_eq_true h
  have hc : s.Calls := by
    unfold Loop.Calls
    rw [hpc]
    trivial
  refine ⟨t, hr.of_restrict.step (.pollStop hc rfl hl ht), he, ?_, hf, hk⟩
  rw [hq]
  exact List.not_mem_nil

/-- Before that, the kernel had it. -/
theorem poll_handles_reused : ∃ s : Loop (Fin 3), (s.io 2).events = POLLIN ∧ s.kernel 5 = some POLLIN := by
  obtain ⟨s, hr, -, -, hf, he, -⟩ := reused
  have h := (poll_handles hr).1 2 (by rw [he]; decide)
  rw [hf, he] at h
  exact ⟨s, he, h⟩

end Libuv.L2.Poll
