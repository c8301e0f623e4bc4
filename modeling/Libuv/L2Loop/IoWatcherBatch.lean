import Libuv.L2Loop.IoWatcherTable

/-!
# Events of a batch reach the watcher they were reported for

While `uv__io_poll` works through a batch, callbacks close watchers, open new ones on the
fds of the closed ones, and grow the table. `uv__platform_invalidate_fd` finds the batch
through the two extra slots of the table, so those have to be right at every close.

* `batch_safe`: in every reachable state the slots hold the running batch's array and
  its length, or `NULL` outside of a batch; the assertions of the loop over the batch hold.
* `no_stale_event`: a callback gets an event of the current batch that is its own, and a
  mask it asked for.
-/
namespace Libuv.L2.IoWatcher

open List Option Function

variable {W : Type*} [DecidableEq W] {sig : Option W} {s t : Loop W} {w : W}

/-! ## Calls into the loop -/

/-- The extra slots of `t` are those of `s`; a first table has them empty. -/
structure SlotsKept (s t : Loop W) : Prop where
  le : s.nwatchers.toNat ≤ t.nwatchers.toNat
  slots : s.watchers ≠ [] → ∀ j, t.watchers[t.nwatchers.toNat + j]? = s.watchers[s.nwatchers.toNat + j]?
  fresh : s.watchers = [] → t.watchers = [] ∨
    t.watchers[t.nwatchers.toNat]? = some .null ∧ t.watchers[t.nwatchers.toNat + 1]? = some .null

/-- What a call about `w` leaves alone. -/
structure CallFrame (w : W) (s t : Loop W) : Prop where
  live : t.live = s.live
  kernel : t.kernel = s.kernel
  pc : t.pc = s.pc
  fd : ∀ w', (t.io w').fd = (s.io w').fd
  other : ∀ w', w' ≠ w → t.io w' = s.io w'
  kept : SlotsKept s t

omit [DecidableEq W] in
theorem SlotsKept.congr {u : Loop W} (h : SlotsKept s t) (hw : u.watchers = t.watchers)
    (hn : u.nwatchers = t.nwatchers) : SlotsKept s u :=
  ⟨by rw [hn]; exact h.le, by rw [hw, hn]; exact h.slots, by rw [hw, hn]; exact h.fresh⟩

omit [DecidableEq W] in
theorem SlotsKept.same (hw : t.watchers = s.watchers) (hn : t.nwatchers = s.nwatchers) :
    SlotsKept s t :=
  .congr ⟨Nat.le_refl _, fun _ _ => rfl, .inl⟩ hw hn

theorem setIo_fd {o : Io} (ho : o.fd = (s.io w).fd) (w' : W) :
    ((s.setIo w o).io w').fd = (s.io w').fd := by
  rw [Loop.setIo_io]
  split
  · next e => rw [ho, e]
  · rfl

theorem setIo_other {o : Io} (w' : W) (h : w' ≠ w) : (s.setIo w o).io w' = s.io w' := by
  rw [Loop.setIo_io, if_neg h]

variable {ev : Mask} {evs : List EpollEvent} {f fd : ℤ} {b : Batch} {l : Label W} {s : Loop W}
  {ls post : List (Label W)}

theorem ioStop_callFrame (ht : s.ioStop w ev = some t) : CallFrame w s t := by
  have hf := ioStop_frame ht
  refine ⟨hf.live, hf.kernel, hf.pc, hf.fd, fun w' hw' => ?_, ?_, fun _ j => ?_, fun hn => ?_⟩
  · cases ioStop_stops ht with
    | unset | outside => rfl
    | fewer => rw [Loop.enqueue_io]; exact setIo_other w' hw'
    | absent | emptied => exact setIo_other w' hw'
  · rw [hf.nwatchers]
  · rw [hf.nwatchers, hf.slots _ (by omega)]
  · exact .inl (hf.nil.mpr hn)

theorem ioStart_callFrame (h : Shaped s) (ht : s.ioStart w ev = some t) :
    CallFrame w s t ∧ (t.io w).pevents = (s.io w).pevents ||| ev := by
  obtain ⟨f, u, -, -, hf, hlt, hlen, hu, hstarts⟩ := ioStart_starts ht
  obtain ⟨hgr, hle⟩ := maybeResize_spec h (by omega) hu
  have hu' := maybeResize_eq hu
  have hio : u.io = s.io := by rw [hu']
  have hkept : SlotsKept s u := ⟨hgr.le, hgr.slots, hgr.fresh⟩
  -- the entry written is not one of the slots
  have hset : ∀ c : Cell W, SlotsKept s { u with watchers := u.watchers.set f c } := fun c => by
    refine ⟨hkept.le, fun hne j => ?_, fun hn => (hkept.fresh hn).imp (fun e => by simp [e]) fun e => ?_⟩
    · simp only
      rw [getElem?_set_ne (by omega)]
      exact hkept.slots hne j
    · simp only
      rw [getElem?_set_ne (by omega), getElem?_set_ne (by omega)]
      exact e
  have key : ∀ v : Loop W, v.live = u.live → v.kernel = u.kernel → v.pc = u.pc →
      v.io = (u.setIo w { s.io w with pevents := (s.io w).pevents ||| ev }).io → SlotsKept s v →
      CallFrame w s v ∧ (v.io w).pevents = (s.io w).pevents ||| ev := by
    intro v e1 e2 e3 e4 e5
    refine ⟨⟨by rw [e1, hu'], by rw [e2, hu'], by rw [e3, hu'], fun w' => ?_, fun w' hw' => ?_, e5⟩, ?_⟩
    · rw [e4, setIo_fd (by rw [hio]), hio]
    · rw [e4, setIo_other w' hw', hio]
    · rw [e4]; simp
  cases hstarts with
  | told => exact key _ rfl rfl rfl rfl (hkept.congr rfl rfl)
  | entered => exact key _ (by simp) (by simp) (by simp) (by simp) ((hset (.watcher w)).congr (by simp) (by simp))
  | kept => exact key _ (by simp) (by simp) (by simp) (by simp) (hkept.congr (by simp) (by simp))

theorem ioStop_queue (ht : s.ioStop w ev = some t) {w' : W} (hw : w' ≠ w) :
    w' ∈ t.watcherQueue ↔ w' ∈ s.watcherQueue := by
  have herase : w' ∈ s.watcherQueue.erase w ↔ w' ∈ s.watcherQueue := mem_erase_of_ne hw
  cases ioStop_stops ht with
  | unset | outside => rfl
  | fewer =>
    rw [Loop.mem_enqueue, or_iff_left hw]
    rfl
  | absent | emptied => exact herase

/-- What `uv__io_start` does to the watchers, whatever the table looks like. -/
structure StartFrame (w : W) (ev : Mask) (s t : Loop W) : Prop where
  io : ∀ w', t.io w' = if w' = w then { s.io w with pevents := (s.io w).pevents ||| ev } else s.io w'
  live : t.live = s.live
  kernel : t.kernel = s.kernel
  queue : ∀ w', w' ≠ w → (w' ∈ t.watcherQueue ↔ w' ∈ s.watcherQueue)

theorem ioStart_startFrame (ht : s.ioStart w ev = some t) : StartFrame w ev s t := by
  obtain ⟨f, u, -, -, -, -, -, hu, hstarts⟩ := ioStart_starts ht
  have hu' := maybeResize_eq hu
  have hio : u.io = s.io := by rw [hu']
  have hset : ∀ o w', (u.setIo w o).io w' = if w' = w then o else s.io w' := fun o w' => by
    rw [Loop.setIo_io, hio]
  have hl : u.live = s.live := by rw [hu']
  have hk : u.kernel = s.kernel := by rw [hu']
  have hq : u.watcherQueue = s.watcherQueue := by rw [hu']
  have henq : ∀ o w', w' ≠ w → (w' ∈ ((u.setIo w o).enqueue w).watcherQueue ↔ w' ∈ s.watcherQueue) := fun o w' hw => by
    rw [Loop.mem_enqueue, or_iff_left hw, Loop.setIo_watcherQueue, hq]
  cases hstarts with
  | told =>
    refine ⟨hset _, hl, hk, fun w' _ => ?_⟩
    rw [Loop.setIo_watcherQueue, hq]
  | entered | kept =>
    exact ⟨fun w' => by rw [Loop.enqueue_io]; exact hset _ w', (Loop.enqueue_live ..).trans hl,
      (Loop.enqueue_kernel ..).trans hk, henq _⟩

/-! ## The hidden slots -/

/-- The number of events of the batch, if one is running. -/
def size : Pc → Option ℕ
  | .batch b => some b.events.length
  | _ => none

def slots : Option ℕ → Cell W × Cell W
  | some n => (.events, .count n)
  | none => (.null, .null)

/-- The two slots behind the table: the running batch, or nothing. -/
structure Hidden (s : Loop W) : Prop where
  empty : s.watchers = [] → size s.pc = none
  full : s.watchers ≠ [] → s.watchers[s.nwatchers.toNat]? = some (slots (size s.pc)).1 ∧
    s.watchers[s.nwatchers.toNat + 1]? = some (slots (size s.pc)).2

omit [DecidableEq W] in
theorem Hidden.kept (h : Hidden s) (hk : SlotsKept s t) (hpc : size t.pc = size s.pc) : Hidden t := by
  by_cases hs : s.watchers = []
  · have hnone := hpc.trans (h.empty hs)
    refine ⟨fun _ => hnone, fun hne => ?_⟩
    rw [hnone]
    exact (hk.fresh hs).resolve_left hne
  · obtain ⟨h0, h1⟩ := h.full hs
    have k0 := hk.slots hs 0
    have k1 := hk.slots hs 1
    simp only [Nat.add_zero] at k0
    refine ⟨fun hn => ?_, fun _ => ?_⟩
    · rw [hn, h0] at k0
      simp at k0
    · rw [k0, k1, hpc]
      exact ⟨h0, h1⟩

/-! ## Closing a watcher -/

theorem invalidate_get {j : ℕ} {e : EpollEvent} :
    (Loop.invalidate evs.length f evs)[j]? = some e → e.fd ≠ -1 → evs[j]? = some e ∧ e.fd ≠ f := by
  intro h hne
  unfold Loop.invalidate at h
  rw [take_length, drop_length, append_nil, getElem?_map] at h
  cases hj : evs[j]? with
  | none => rw [hj] at h; cases h
  | some e' =>
    rw [hj] at h
    simp only [map_some, some.injEq] at h
    split at h
    · exact absurd (by rw [← h]) hne
    · next hf => exact ⟨by rw [h], by rw [← h]; exact hf⟩

theorem invalidate_keeps {j : ℕ} {e : EpollEvent}
    (h : evs[j]? = some e) (hf : e.fd ≠ f) : (Loop.invalidate evs.length f evs)[j]? = some e := by
  unfold Loop.invalidate
  rw [take_length, drop_length, append_nil, getElem?_map, h]
  simp [hf]

theorem invalidate_length (evs : List EpollEvent) (f : ℤ) :
    (Loop.invalidate evs.length f evs).length = evs.length := by
  simp [Loop.invalidate]

omit [DecidableEq W] in
theorem ctlDel_eq (s : Loop W) (f : ℤ) : s.ctlDel f = { s with kernel := update s.kernel f none } := by
  unfold Loop.ctlDel Loop.epollCtl
  cases hk : s.kernel f with
  | some m => simp
  | none =>
    have : update s.kernel f none = s.kernel := by rw [← hk, update_eq_self]
    simp [this]

/-- The batch after a close: events for the fd are invalidated, the others are not. -/
structure Cleared (f : ℤ) (b b' : Batch) : Prop where
  rest : b' = { b with events := b'.events }
  length : b'.events.length = b.events.length
  get : ∀ (j : ℕ) (e : EpollEvent), b'.events[j]? = some e → e.fd ≠ -1 → b.events[j]? = some e ∧ e.fd ≠ f
  keep : ∀ (j : ℕ) (e : EpollEvent), b.events[j]? = some e → e.fd ≠ f → b'.events[j]? = some e

/-- What `uv__io_close` does, at any time. -/
structure CloseFrame (w : W) (s t : Loop W) : Prop where
  live : t.live = Function.update s.live w false
  fd : ∀ w', (t.io w').fd = (s.io w').fd
  other : ∀ w', w' ≠ w → t.io w' = s.io w'
  kept : SlotsKept s t
  kernel : ∀ fd, (t.kernel fd).isSome = true → (s.kernel fd).isSome = true ∧ fd ≠ (s.io w).fd
  idle : size s.pc = none → t.pc = s.pc
  batch : ∀ b, s.pc = .batch b → ∃ b', t.pc = .batch b' ∧ Cleared (s.io w).fd b b'

omit [DecidableEq W] in
theorem platformInvalidateFd_eq (ht : s.platformInvalidateFd fd = some t) :
    ∃ pc, t = { s with kernel := update s.kernel fd none, pc := pc } := by
  unfold Loop.platformInvalidateFd at ht
  split at ht
  · cases ht
  · split at ht
    · cases ht
      exact ⟨_, ctlDel_eq s fd⟩
    · split at ht
      · cases ht
        exact ⟨_, ctlDel_eq _ fd⟩
      · cases ht
    · cases ht

omit [DecidableEq W] in
theorem platformInvalidateFd_spec (hh : Hidden s) (ht : s.platformInvalidateFd fd = some t) :
    t = { s with kernel := update s.kernel fd none, pc := t.pc } ∧ (size s.pc = none → t.pc = s.pc) ∧
      ∀ b, s.pc = .batch b → ∃ b', t.pc = .batch b' ∧ Cleared fd b b' := by
  unfold Loop.platformInvalidateFd at ht
  split at ht
  · cases ht
  next hg =>
  push Not at hg
  obtain ⟨k0, k1⟩ := hh.full hg.1
  simp only [k0, k1] at ht
  cases hb : size s.pc with
  | none =>
    -- no batch: only the kernel is told
    simp only [hb, slots] at ht
    cases ht
    rw [ctlDel_eq]
    refine ⟨rfl, fun _ => rfl, fun b e => ?_⟩
    rw [e] at hb
    cases hb
  | some n =>
    obtain ⟨b, hpc, hn⟩ : ∃ b, s.pc = .batch b ∧ b.events.length = n := by
      unfold size at hb
      split at hb
      · next b e => exact ⟨b, e, some.inj hb⟩
      · cases hb
    simp only [slots, hpc] at ht
    cases ht
    rw [ctlDel_eq]
    refine ⟨rfl, by simp, fun b' e => ?_⟩
    rw [hpc] at e
    cases e
    exact ⟨_, rfl, rfl, invalidate_length .., fun j e => invalidate_get, fun j e => invalidate_keeps⟩

omit [DecidableEq W] in
theorem platformInvalidateFd_hidden (hh : Hidden s) (ht : s.platformInvalidateFd fd = some t) : Hidden t := by
  obtain ⟨e, h1, h2⟩ := platformInvalidateFd_spec hh ht
  refine hh.kept ?_ ?_
  · rw [e]
    exact .same rfl rfl
  · cases hb : s.pc with
    | batch b =>
      obtain ⟨b', hb', hc⟩ := h2 b hb
      rw [hb']
      exact congrArg some hc.length
    | idle | polled =>
      rw [h1 (by rw [hb]; rfl), hb]

theorem ioClose_frame (h : Agrees s) (hh : Hidden s) (ht : s.ioClose w = some t) : CloseFrame w s t := by
  unfold Loop.ioClose at ht
  cases hu : s.ioStop w pollMask with
  | none => simp [hu] at ht
  | some u =>
    have hf := ioStop_callFrame hu
    have hhu : Hidden u := hh.kept hf.kept (by rw [hf.pc])
    simp only [hu] at ht
    split at ht
    · next hne =>
      have hker : ∀ fd, (update u.kernel (u.io w).fd none fd).isSome = true →
          (s.kernel fd).isSome = true ∧ fd ≠ (s.io w).fd := by
        intro fd hfd
        rw [hf.kernel, hf.fd] at hfd
        by_cases e : fd = (s.io w).fd
        · rw [e, update_self] at hfd; cases hfd
        · rw [update_of_ne e] at hfd
          exact ⟨hfd, e⟩
      have hhl : Hidden { u with live := update u.live w false } := ⟨hhu.empty, hhu.full⟩
      obtain ⟨e, h1, h2⟩ := platformInvalidateFd_spec hhl ht
      rw [hf.pc] at h1 h2
      simp only [hf.fd] at h2
      refine ⟨?_, fun w' => ?_, fun w' hw' => ?_, hf.kept.congr ?_ ?_, fun fd hfd => hker fd ?_, h1, h2⟩
      · rw [e, hf.live]
      · rw [e]
        exact hf.fd w'
      · rw [e]
        exact hf.other w' hw'
      · rw [e]
      · rw [e]
      · rw [e] at hfd
        exact hfd
    · next hne =>
      have hm : (s.io w).fd = -1 := by rw [← hf.fd]; exact not_not.mp hne
      cases ht
      refine ⟨by simp [hf.live], hf.fd, hf.other, hf.kept.congr rfl rfl, fun fd hfd => ?_, fun _ => hf.pc, fun b e => ?_⟩
      · simp only [hf.kernel] at hfd
        obtain ⟨i, -, hi⟩ := h.known fd hfd
        exact ⟨hfd, by omega⟩
      · refine ⟨b, by simp [hf.pc, e], rfl, rfl, fun j e h1 h2 => ⟨h1, by rw [hm]; exact h2⟩, fun j e h1 _ => h1⟩

/-! ## Slots and owners in every state -/

def Owned (s : Loop W) : Prop :=
  ∀ fd, (s.kernel fd).isSome = true → ∃ w, s.live w = true ∧ (s.io w).fd = fd

omit [DecidableEq W] in
theorem epollCtl_ok {op : Loop.CtlOp} {m : Mask} (hop : op ≠ .del) (ht : s.epollCtl op f m = .ok t) :
    t = { s with kernel := update s.kernel f (some m) } := by
  unfold Loop.epollCtl at ht
  cases op with
  | del => exact absurd rfl hop
  | add =>
    dsimp only at ht
    split at ht
    · cases ht
    · cases ht; rfl
  | mod =>
    dsimp only at ht
    split at ht
    · cases ht; rfl
    · cases ht

theorem register_eq (ht : s.register w = some t) :
    t = ({ s with kernel := update s.kernel (s.io w).fd (some (s.io w).pevents) } : Loop W).setIo w
      { s.io w with events := (s.io w).pevents } := by
  unfold Loop.register at ht
  simp only at ht
  have hop : (if (s.io w).events = 0 then Loop.CtlOp.add else .mod) ≠ .del := by split <;> nofun
  generalize (if (s.io w).events = 0 then Loop.CtlOp.add else .mod) = op at ht hop
  split at ht
  · cases ht
  split at ht
  · next u hu =>
    cases ht
    rw [epollCtl_ok hop hu]
  · -- `EEXIST`
    split at ht
    · cases ht
    split at ht
    · next u hu =>
      cases ht
      have hmod : Loop.CtlOp.mod ≠ .del := by decide
      rw [epollCtl_ok hmod hu]
    · cases ht

theorem register_kernel (ht : s.register w = some t) (hfd : (t.kernel fd).isSome = true) :
    (s.kernel fd).isSome = true ∨ fd = (s.io w).fd := by
  rw [register_eq ht] at hfd
  by_cases e : fd = (s.io w).fd
  · exact .inr e
  · change (update s.kernel _ _ fd).isSome = true at hfd
    rw [update_of_ne e] at hfd
    exact .inl hfd

theorem registerAll_frame : ∀ (q : List W) (s t : Loop W), Loop.registerAll q s = some t →
    t.watchers = s.watchers ∧ t.nwatchers = s.nwatchers ∧ t.pc = s.pc := by
  intro q
  induction q with
  | nil =>
    intro s t ht
    cases ht
    exact ⟨rfl, rfl, rfl⟩
  | cons w rest ih =>
    intro s t ht
    rw [Loop.registerAll] at ht
    split at ht
    · cases ht
    · next u hu =>
      obtain ⟨h1, h2, h3⟩ := ih u t ht
      rw [register_eq hu] at h1 h2 h3
      exact ⟨h1, h2, h3⟩

theorem pollHead_frame (ht : s.pollHead = some t) :
    t.watchers = s.watchers ∧ t.nwatchers = s.nwatchers ∧ (t.pc = s.pc ∨ t.pc = .polled) := by
  unfold Loop.pollHead at ht
  split at ht
  · split at ht
    · cases ht; exact ⟨rfl, rfl, .inl rfl⟩
    · cases ht
  · split at ht
    · cases ht
    · next u hu =>
      cases ht
      obtain ⟨h1, h2, -⟩ := registerAll_frame _ _ _ hu
      exact ⟨h1, h2, .inr rfl⟩

theorem registerAll_owned : ∀ (q : List W) (s t : Loop W), Agrees s → s.watcherQueue = q → Owned s →
    Loop.registerAll q s = some t → Owned t := by
  intro q
  induction q with
  | nil =>
    intro s t _ _ ho ht
    cases ht
    exact ho
  | cons w rest ih =>
    intro s t h hq ho ht
    obtain ⟨u, h1, h2, h3, -, -, -, h7, h8⟩ := register_agrees h hq
    simp only [Loop.registerAll, h1] at ht
    refine ih u t h2 h3 (fun fd hfd => ?_) ht
    rw [h7]
    rcases register_kernel h1 hfd with hk | rfl
    · obtain ⟨w', k1, k2⟩ := ho fd hk
      exact ⟨w', k1, by rw [(h8 w').1, k2]⟩
    · exact ⟨w, h.live w (h.queued w (by rw [hq]; exact mem_cons_self)), (h8 w).1⟩

theorem pollHead_owned (h : Agrees s) (ho : Owned s) (ht : s.pollHead = some t) : Owned t := by
  unfold Loop.pollHead at ht
  split at ht
  · split at ht
    · cases ht; exact ho
    · cases ht
  · split at ht
    · cases ht
    · next u hu =>
      cases ht
      exact registerAll_owned _ s u h rfl ho hu

theorem dispatch_cases {pe : EpollEvent} {c : Option (W × Mask)}
    (ht : s.dispatch sig b pe = some (t, c)) :
    (c = none ∧ ∃ k, t = { s with kernel := k, pc := .batch { b with i := b.i + 1, calling := false } } ∧
      ∀ fd, (k fd).isSome = true → (s.kernel fd).isSome = true) ∨
    ∃ w, 0 ≤ pe.fd ∧ pe.fd.toNat < s.nwatchers.toNat ∧ s.watchers[pe.fd.toNat]? = some (.watcher w) ∧
      Loop.deliverable pe.events (s.io w).pevents ≠ 0 ∧ (sig = some w ∧ c = none ∧
        t = { s with pc := .batch { b with i := b.i + 1, calling := false, haveSignals := true } } ∨
      c = some (w, Loop.deliverable pe.events (s.io w).pevents) ∧
        t = { s with pc := .batch { b with i := b.i + 1, calling := true } }) := by
  unfold Loop.dispatch at ht
  simp only at ht
  split at ht
  · cases ht; exact .inl ⟨rfl, _, rfl, fun _ h => h⟩
  split at ht
  · cases ht
  next hr =>
  push Not at hr
  split at ht
  · cases ht
    rw [ctlDel_eq]
    refine .inl ⟨rfl, _, rfl, fun fd hfd => ?_⟩
    rw [update_apply] at hfd
    split at hfd
    · cases hfd
    · exact hfd
  · next w hw =>
    split at ht
    · cases ht; exact .inl ⟨rfl, _, rfl, fun _ h => h⟩
    next hne =>
    refine .inr ⟨w, hr.1, hr.2, hw, hne, ?_⟩
    split at ht
    · next hsig => cases ht; exact .inl ⟨hsig, rfl, rfl⟩
    · cases ht; exact .inr ⟨rfl, rfl⟩
  · cases ht

omit [DecidableEq W] in
theorem setSlots_get {l : List (Cell W)} {n : ℕ} (h : l.length = n + 2) (a b : Cell W) :
    ((l.set n a).set (n + 1) b)[n]? = some a ∧ ((l.set n a).set (n + 1) b)[n + 1]? = some b := by
  refine ⟨?_, ?_⟩
  · rw [getElem?_set_ne (by omega), getElem?_set_self (by omega)]
  · rw [getElem?_set_self (by rw [List.length_set]; omega)]

/-- What holds whatever the history: the slots, the owners, and what the signal watcher
asks for. -/
structure Ready (sig : Option W) (s : Loop W) : Prop where
  agrees : Agrees s
  hidden : Hidden s
  owned : Owned s
  sigMask : ∀ w, sig = some w → (s.io w).pevents = 0 ∨ (s.io w).pevents = POLLIN

omit [DecidableEq W] in
theorem CallFrame.owned (hf : CallFrame w s t) (h : Owned s) : Owned t := by
  intro fd hfd
  rw [hf.kernel] at hfd
  obtain ⟨w', h1, h2⟩ := h fd hfd
  exact ⟨w', by rw [hf.live]; exact h1, by rw [hf.fd]; exact h2⟩

theorem hidden_step (hsh : Shaped s) (hh : Hidden s) (hs : Step sig s l t) : Hidden t := by
  cases hs with
  | init _ _ _ _ => exact hh.kept (.same rfl rfl) rfl
  | start _ _ _ ht =>
    obtain ⟨hf, -⟩ := ioStart_callFrame hsh ht
    exact hh.kept hf.kept (by rw [hf.pc])
  | stop _ _ _ ht =>
    have hf := ioStop_callFrame ht
    exact hh.kept hf.kept (by rw [hf.pc])
  | @close _ w _ _ _ ht =>
    unfold Loop.ioClose at ht
    split at ht
    · cases ht
    · next u hu =>
      have hf := ioStop_callFrame hu
      have hhu := hh.kept hf.kept (by rw [hf.pc])
      dsimp only at ht
      split at ht
      · exact platformInvalidateFd_hidden (s := { u with live := update u.live w false }) ⟨hhu.empty, hhu.full⟩ ht
      · cases ht
        exact ⟨hhu.empty, hhu.full⟩
  | poll hpc ht =>
    obtain ⟨h3, h4, h5⟩ := pollHead_frame ht
    refine hh.kept (.same h3 h4) ?_
    rcases h5 with e | e
    · rw [e]
    · rw [e, hpc]; rfl
  | wait hpc _ _ _ ht =>
    unfold Loop.waited at ht
    split at ht
    · cases ht
    next hne =>
    cases ht
    refine ⟨fun e => absurd (by simpa using e) hne, fun _ => ?_⟩
    have hlen := hsh.length.resolve_left fun e => hne e.1
    exact setSlots_get hlen _ _
  | next hpc _ ht =>
    rcases dispatch_cases ht with ⟨-, k, rfl, hk⟩ | ⟨w, -, -, -, -, ⟨-, -, rfl⟩ | ⟨hc, -⟩⟩
    · exact hh.kept (.same rfl rfl) (by rw [hpc]; rfl)
    · exact hh.kept (.same rfl rfl) (by rw [hpc]; rfl)
    · cases hc
  | deliver hpc _ ht =>
    rcases dispatch_cases ht with ⟨hc, -⟩ | ⟨w, -, -, -, -, ⟨-, hc, -⟩ | ⟨-, rfl⟩⟩
    · cases hc
    · cases hc
    · exact hh.kept (.same rfl rfl) (by rw [hpc]; rfl)
  | deliverSignal hpc _ _ _ => exact hh.kept (.same rfl rfl) (by rw [hpc]; rfl)
  | @finish b pc hpc _ _ hpc' =>
    have hsz : size pc = none := by rcases hpc' with rfl | ⟨rfl, -⟩ <;> rfl
    refine ⟨fun _ => hsz, fun hne => ?_⟩
    simp only [Loop.finishBatch] at hne ⊢
    have hlen := hsh.length.resolve_left fun e => hne (by simp [e.1])
    rw [hsz]
    exact setSlots_get hlen _ _
  | ret hpc => exact hh.kept (.same rfl rfl) (by rw [hpc]; rfl)

theorem ready_step (h : Ready sig s) (hs : Step sig s l t) : Ready sig t := by
  have ha := agrees_step h.agrees hs
  have hh := hidden_step h.agrees.shaped h.hidden hs
  cases hs with
  | @init w fd _ hl _ _ =>
    refine ⟨ha, hh, fun fd' hfd' => ?_, fun w' hw' => ?_⟩
    · obtain ⟨w', h1, h2⟩ := h.owned fd' hfd'
      have hne : w' ≠ w := fun e => by rw [e, hl] at h1; cases h1
      refine ⟨w', ?_, ?_⟩
      · simp only [Loop.ioInit, update_of_ne hne]; exact h1
      · simp only [Loop.ioInit, setIo_other w' hne]; exact h2
    · simp only [Loop.ioInit, Loop.setIo_io]
      split
      · exact .inl rfl
      · exact h.sigMask w' hw'
  | @start _ w ev _ _ hs ht =>
    obtain ⟨hf, hp⟩ := ioStart_callFrame h.agrees.shaped ht
    refine ⟨ha, hh, hf.owned h.owned, fun w' hw' => ?_⟩
    by_cases e : w' = w
    · subst e
      rw [hp, hs hw']
      rcases h.sigMask w' hw' with e | e <;> rw [e] <;> exact .inr (by decide)
    · rw [hf.other w' e]; exact h.sigMask w' hw'
  | @stop _ w ev _ _ hs ht =>
    have hf := ioStop_callFrame ht
    refine ⟨ha, hh, hf.owned h.owned, fun w' hw' => ?_⟩
    rw [hf.other w' fun e => hs (e ▸ hw')]
    exact h.sigMask w' hw'
  | @close _ w _ _ hs ht =>
    have hf := ioClose_frame h.agrees h.hidden ht
    refine ⟨ha, hh, fun fd hfd => ?_, fun w' hw' => ?_⟩
    · obtain ⟨k1, k2⟩ := hf.kernel fd hfd
      obtain ⟨w', h1, h2⟩ := h.owned fd k1
      have hne : w' ≠ w := fun e => k2 (by rw [← h2, e])
      exact ⟨w', by rw [hf.live, update_of_ne hne]; exact h1, by rw [hf.fd]; exact h2⟩
    · rw [hf.other w' fun e => hs (e ▸ hw')]
      exact h.sigMask w' hw'
  | poll hpc ht =>
    obtain ⟨u, h1, -, -, -, -, -, -, h8⟩ := pollHead_agrees h.agrees
    rw [h1] at ht; cases ht
    refine ⟨ha, hh, pollHead_owned h.agrees h.owned h1, fun w hw => ?_⟩
    rw [(h8 w).2]; exact h.sigMask w hw
  | wait _ _ _ _ ht =>
    unfold Loop.waited at ht
    split at ht
    · cases ht
    · cases ht
      exact ⟨ha, hh, h.owned, h.sigMask⟩
  | next _ _ ht =>
    rcases dispatch_cases ht with ⟨-, k, rfl, hk⟩ | ⟨w, -, -, -, -, ⟨-, -, rfl⟩ | ⟨hc, -⟩⟩
    · exact ⟨ha, hh, fun fd hfd => h.owned fd (hk fd hfd), h.sigMask⟩
    · exact ⟨ha, hh, h.owned, h.sigMask⟩
    · cases hc
  | deliver _ _ ht =>
    rcases dispatch_cases ht with ⟨hc, -⟩ | ⟨w, -, -, -, -, ⟨-, hc, -⟩ | ⟨-, rfl⟩⟩
    · cases hc
    · cases hc
    · exact ⟨ha, hh, h.owned, h.sigMask⟩
  | deliverSignal _ _ _ _ | finish _ _ _ _ | ret _ => exact ⟨ha, hh, h.owned, h.sigMask⟩

theorem ready_run (sig : Option W) : (system sig).Inductive (Ready sig) where
  init s h := by
    have ha := (agrees_run sig).init s h
    obtain ⟨h1, -, -, -, h5, -, h7, h8⟩ := h
    exact ⟨ha, ⟨fun _ => by rw [h8]; rfl, fun e => absurd h1 e⟩, fun fd hfd => by simp [h7] at hfd,
      fun w _ => .inl (by rw [h5])⟩
  step _ _ _ h hs := ready_step h hs

/-! ## The batch and the history -/

/-- No watcher of the fd was closed or initialised. -/
def Untouched (post : List (Label W)) (fd : ℤ) : Prop :=
  ∀ w, .close w fd ∉ post ∧ .init w fd ∉ post

/-- `post` is what happened since `epoll_wait` last returned, with `evs`. -/
structure Since (ls : List (Label W)) (evs : List EpollEvent) (post : List (Label W)) : Prop where
  split : ∃ pre, ls = pre ++ .wait evs :: post
  last : ∀ evs', .wait evs' ∉ post

omit [DecidableEq W] in
theorem Since.snoc
    (h : Since ls evs post) (hl : ∀ evs', l ≠ .wait evs') : Since (ls ++ [l]) evs (post ++ [l]) := by
  obtain ⟨pre, rfl⟩ := h.split
  refine ⟨⟨pre, by simp⟩, fun evs' hm => ?_⟩
  rcases mem_append.mp hm with hm | hm
  · exact h.last evs' hm
  · exact hl evs' (mem_singleton.mp hm).symm

omit [DecidableEq W] in
theorem Untouched.snoc (h : Untouched post fd)
    (hc : ∀ w, l ≠ .close w fd) (hi : ∀ w, l ≠ .init w fd) : Untouched (post ++ [l]) fd := by
  intro w
  simp only [mem_append, mem_singleton, not_or]
  exact ⟨⟨(h w).1, (hc w).symm⟩, ⟨(h w).2, (hi w).symm⟩⟩

/-- What is left of the batch: each event is as reported, and its fd has had the same
live watcher since. -/
structure Pending (sig : Option W) (s : Loop W) (b : Batch) (evs : List EpollEvent)
    (post : List (Label W)) : Prop where
  entry : ∀ (j : ℕ) (e : EpollEvent), b.events[j]? = some e → e.fd ≠ -1 →
    evs[j]? = some e ∧ Untouched post e.fd ∧ 0 ≤ e.fd ∧ e.fd.toNat < s.nwatchers.toNat ∧
      ∃ w, s.live w = true ∧ (s.io w).fd = e.fd
  signal : b.haveSignals = true → ∃ w, ∃ (j : ℕ) (e : EpollEvent), sig = some w ∧ s.live w = true ∧
    (s.io w).pevents = POLLIN ∧ b.events[j]? = some e ∧ e.fd = (s.io w).fd ∧ e.fd ≠ -1

def Current (sig : Option W) (ls : List (Label W)) (s : Loop W) : Prop :=
  ∀ b, s.pc = .batch b → ∃ evs post, Since ls evs post ∧ Pending sig s b evs post

omit [DecidableEq W] in
theorem Pending.loop {b' : Batch}
    (h : Pending sig s b evs post) (hev : b'.events = b.events) (hl : ∀ w f, l ≠ .close w f ∧ l ≠ .init w f)
    (hio : t.io = s.io) (hlive : t.live = s.live) (hn : t.nwatchers = s.nwatchers)
    (hsig : b'.haveSignals = true → b.haveSignals = true ∨
      ∃ w, ∃ (j : ℕ) (e : EpollEvent), sig = some w ∧ s.live w = true ∧
        (s.io w).pevents = POLLIN ∧ b.events[j]? = some e ∧ e.fd = (s.io w).fd ∧ e.fd ≠ -1) :
    Pending sig t b' evs (post ++ [l]) := by
  refine ⟨fun j e he hne => ?_, fun hs => ?_⟩
  · rw [hev] at he
    obtain ⟨h1, h2, h3, h4, h5⟩ := h.entry j e he hne
    rw [hio, hlive, hn]
    exact ⟨h1, h2.snoc (fun w => (hl w _).1) (fun w => (hl w _).2), h3, h4, h5⟩
  · rw [hio, hlive, hev]
    exact (hsig hs).elim h.signal id

theorem Pending.call
    (h : Pending sig s b evs post) (hf : CallFrame w s t) (hl : ∀ w f, l ≠ .close w f ∧ l ≠ .init w f)
    (hsig : sig = some w → (s.io w).pevents = POLLIN → (t.io w).pevents = POLLIN) :
    Pending sig t b evs (post ++ [l]) := by
  refine ⟨fun j e he hne => ?_, fun hs => ?_⟩
  · obtain ⟨h1, h2, h3, h4, w', h5, h6⟩ := h.entry j e he hne
    exact ⟨h1, h2.snoc (fun w => (hl w _).1) (fun w => (hl w _).2), h3, Nat.lt_of_lt_of_le h4 hf.kept.le,
      w', by rw [hf.live]; exact h5, by rw [hf.fd]; exact h6⟩
  · obtain ⟨w', j, e, h1, h2, h3, h4, h5, h6⟩ := h.signal hs
    refine ⟨w', j, e, h1, by rw [hf.live]; exact h2, ?_, h4, by rw [hf.fd]; exact h5, h6⟩
    by_cases e : w' = w
    · subst e; exact hsig h1 h3
    · rw [hf.other w' e]; exact h3

theorem current_step (hR : Ready sig s) (h : Current sig ls s)
    (hs : Step sig s l t) : Current sig (ls ++ [l]) t := by
  intro b' hb'
  cases hs with
  | @init w fd _ hl hfd hd =>
    obtain ⟨evs, post, h1, h2⟩ := h b' hb'
    refine ⟨evs, _, h1.snoc (by simp), fun j e he hne => ?_, fun hs => ?_⟩
    · obtain ⟨k1, k2, k3, k4, w', k5, k6⟩ := h2.entry j e he hne
      have hw : w' ≠ w := fun e => by rw [e, hl] at k5; cases k5
      -- the fd has a live watcher, so it is not one a watcher can be initialised for
      have hfd' : fd ≠ e.fd := fun heq => hd (by rw [heq]; exact hne) w' k5 (by rw [heq]; exact k6)
      refine ⟨k1, k2.snoc (by simp) (fun w'' e' => hfd' ?_), k3, k4, w', ?_, ?_⟩
      · cases e'; rfl
      · simp only [Loop.ioInit, update_of_ne hw]; exact k5
      · simp only [Loop.ioInit, setIo_other w' hw]; exact k6
    · obtain ⟨w', j, e, k1, k2, k3⟩ := h2.signal hs
      have hw : w' ≠ w := fun e => by rw [e, hl] at k2; cases k2
      refine ⟨w', j, e, k1, ?_, ?_⟩
      · simp only [Loop.ioInit, update_of_ne hw]; exact k2
      · simp only [Loop.ioInit, setIo_other w' hw]; exact k3
  | start _ _ hs ht =>
    obtain ⟨hf, hp⟩ := ioStart_callFrame hR.agrees.shaped ht
    obtain ⟨evs, post, h1, h2⟩ := h b' (hf.pc ▸ hb')
    refine ⟨evs, _, h1.snoc (by simp), h2.call hf (by simp) fun hw he => ?_⟩
    rw [hp, he, hs hw]; decide
  | stop _ _ hs ht =>
    have hf := ioStop_callFrame ht
    obtain ⟨evs, post, h1, h2⟩ := h b' (hf.pc ▸ hb')
    exact ⟨evs, _, h1.snoc (by simp), h2.call hf (by simp) fun hw => absurd hw hs⟩
  | @close _ w _ hl hs ht =>
    have hf := ioClose_frame hR.agrees hR.hidden ht
    obtain ⟨b, hb⟩ : ∃ b, s.pc = .batch b := by
      cases hpc : s.pc with
      | batch b => exact ⟨b, rfl⟩
      | idle | polled => rw [hf.idle (by rw [hpc]; rfl), hpc] at hb'; cases hb'
    obtain ⟨b'', hb'', hc⟩ := hf.batch b hb
    rw [hb''] at hb'
    cases hb'
    obtain ⟨evs, post, h1, h2⟩ := h b hb
    refine ⟨evs, _, h1.snoc (by simp), fun j e he hne => ?_, fun hsig => ?_⟩
    · -- events for this fd are gone
      obtain ⟨g1, g2⟩ := hc.get j e he hne
      obtain ⟨k1, k2, k3, k4, w', k5, k6⟩ := h2.entry j e g1 hne
      have hw : w' ≠ w := fun e => g2 (by rw [← k6, e])
      refine ⟨k1, k2.snoc (fun w'' e' => g2 (Label.close.inj e').2.symm) (by simp), k3,
        Nat.lt_of_lt_of_le k4 hf.kept.le, w', ?_, ?_⟩
      · rw [hf.live, update_of_ne hw]; exact k5
      · rw [hf.fd]; exact k6
    · rw [hc.rest] at hsig
      obtain ⟨w', j, e, k1, k2, k3, k4, k5, k6⟩ := h2.signal hsig
      have hw : w' ≠ w := fun e => hs (e ▸ k1)
      have hfd : e.fd ≠ (s.io w).fd := fun e' => hw
        (hR.agrees.distinct w' w k2 hl (by rw [← k5]; exact k6) (by rw [← k5, e']))
      refine ⟨w', j, e, k1, ?_, ?_, hc.keep j e k4 hfd, ?_, k6⟩
      · rw [hf.live, update_of_ne hw]; exact k2
      · rw [hf.other w' hw]; exact k3
      · rw [hf.fd]; exact k5
  | poll hpc ht =>
    obtain ⟨u, h1, -, -, -, h5, -⟩ := pollHead_agrees hR.agrees
    rw [h1] at ht; cases ht
    rcases h5 with e | e
    · rw [e, hpc] at hb'; cases hb'
    · rw [e] at hb'; cases hb'
  | @wait _ evs hpc hn hk hlen ht =>
    unfold Loop.waited at ht
    split at ht
    · cases ht
    cases ht
    cases hb'
    refine ⟨evs, [], ⟨⟨ls, rfl⟩, by simp⟩, fun j e he hne => ?_, fun hs => by cases hs⟩
    have hmem := hk e (mem_of_getElem? he)
    obtain ⟨i, k1, k2⟩ := hR.agrees.known e.fd hmem
    refine ⟨he, fun w => ⟨not_mem_nil, not_mem_nil⟩, by omega, ?_, hR.owned e.fd hmem⟩
    simp only [k2, Int.toNat_natCast]; exact k1
  | @next _ b pe hpc hi ht =>
    obtain ⟨evs, post, h1, h2⟩ := h b hpc
    refine ⟨evs, _, h1.snoc (by simp), ?_⟩
    rcases dispatch_cases ht with ⟨-, k, rfl, -⟩ | ⟨w, g1, g2, g3, g4, ⟨gs, -, rfl⟩ | ⟨hc, -⟩⟩
    · cases hb'
      exact h2.loop rfl (by simp) rfl rfl rfl .inl
    · cases hb'
      refine h2.loop rfl (by simp) rfl rfl rfl fun _ => .inr ?_
      -- the signal watcher, in the table because it waits for `POLLIN`
      obtain ⟨o1, o2⟩ := hR.agrees.owner _ w g2 g3
      exact ⟨w, b.i, pe, gs, hR.agrees.live w o1, (hR.sigMask w gs).resolve_left o1, hi, by omega, by omega⟩
    · cases hc
  | @deliver _ b pe w m hpc hi ht =>
    obtain ⟨evs, post, h1, h2⟩ := h b hpc
    refine ⟨evs, _, h1.snoc (by simp), ?_⟩
    rcases dispatch_cases ht with ⟨hc, -⟩ | ⟨w, -, -, -, -, ⟨-, hc, -⟩ | ⟨-, rfl⟩⟩
    · cases hc
    · cases hc
    · cases hb'
      exact h2.loop rfl (by simp) rfl rfl rfl .inl
  | @deliverSignal b hpc hi hs hn =>
    obtain ⟨evs, post, h1, h2⟩ := h b hpc
    cases hb'
    exact ⟨evs, _, h1.snoc (by simp), h2.loop rfl (by simp) rfl rfl rfl .inl⟩
  | finish _ _ _ hpc' =>
    rcases hpc' with rfl | ⟨rfl, -⟩ <;> cases hb'
  | ret _ => cases hb'

/-- **The batch** of a run is what `epoll_wait` last reported, less the events for fds
closed since. -/
theorem current_run (hr : (system sig).History ls s) :
    Ready sig s ∧ Current sig ls s := by
  refine LTS.TraceInductive.run (P := fun ls s => Ready sig s ∧ Current sig ls s) ⟨?_, ?_⟩ hr
  · intro s h
    refine ⟨(ready_run sig).init s h, fun b hb => ?_⟩
    rw [h.2.2.2.2.2.2.2] at hb; cases hb
  · intro ls s l t h hs
    exact ⟨ready_step h.1 hs, current_step h.1 h.2 hs⟩

/-! ## Results -/

/-- **The batch is safe**, whatever the callbacks do to the watchers and to the table. -/
theorem batch_safe (hr : (system sig).Reachable s) : Hidden s ∧ ∀ b pe, s.pc = .batch b → b.events[b.i]? = some pe →
    ∃ r, s.dispatch sig b pe = some r := by
  obtain ⟨ls, hl⟩ := hr
  obtain ⟨hR, hC⟩ := current_run hl
  refine ⟨hR.hidden, fun b pe hb hi => ?_⟩
  obtain ⟨evs, post, -, h⟩ := hC b hb
  unfold Loop.dispatch
  simp only
  split
  · exact ⟨_, rfl⟩
  next hne =>
  obtain ⟨-, -, h3, h4, -⟩ := h.entry _ _ hi hne
  rw [if_neg (by omega)]
  rcases hR.agrees.shaped.cells _ h4 with e | ⟨w, e⟩
  · rw [e]; exact ⟨_, rfl⟩
  · simp only [e]
    split
    · exact ⟨_, rfl⟩
    · split <;> exact ⟨_, rfl⟩

/-- The callback of the first of two events closes the watcher of the second one and starts one on descriptor 7, for which the
table grows: the slots have moved, the second event is invalid, and its round goes through. -/
theorem batch_safe_one : ∃ (s : Loop (Fin 3)) (b : Batch), s.pc = .batch b ∧ b.i = 1 ∧ b.calling = true ∧
    b.events = [⟨0, POLLIN⟩, ⟨-1, POLLIN⟩] ∧ s.nwatchers = 14 ∧ Hidden s ∧ ∃ r, s.dispatch none b ⟨-1, POLLIN⟩ = some r := by
  have h0 : (system none).Reachable (⟨[], 0, 0, [], fun _ => ⟨-1, 0, 0⟩, fun _ => false, fun _ => none, .idle⟩ : Loop (Fin 3)) :=
    .init ⟨rfl, rfl, rfl, rfl, fun _ => rfl, fun _ => rfl, fun _ => rfl, rfl⟩
  have h1 := h0.next (.init 0 0) (.init trivial rfl (by decide) (by decide))
  have h2 := h1.next (.start 0 POLLIN) (.start trivial rfl nofun rfl)
  have h3 := h2.next (.init 1 1) (.init trivial rfl (by decide) (by decide))
  have h4 := h3.next (.start 1 POLLIN) (.start trivial rfl nofun rfl)
  have h5 := h4.next .poll (.poll rfl rfl)
  have h6 := h5.next (.wait [⟨0, POLLIN⟩, ⟨1, POLLIN⟩]) (.wait rfl nofun (by decide) (by decide) rfl)
  have h7 := h6.step (.deliver rfl rfl rfl)
  have h8 := h7.next (.close 1 1) (.close rfl rfl nofun rfl)
  have h9 := h8.next (.init 2 7) (.init rfl rfl (by decide) (by decide))
  have h10 := h9.next (.start 2 POLLIN) (.start rfl rfl nofun rfl)
  exact ⟨_, _, rfl, rfl, rfl, rfl, rfl, (batch_safe h10).1, (batch_safe h10).2 _ _ rfl rfl⟩

theorem deliverable_sub (reported pevents : Mask) :
    (Loop.deliverable reported pevents).sub (pevents ||| POLLERR ||| POLLHUP) := by
  have hand : ∀ a b : Mask, (a &&& b).sub b := fun a b => by
    unfold Mask.sub
    rw [BitVec.and_assoc]; simp
  have hp : (pevents &&& pollMask).sub (pevents ||| POLLERR ||| POLLHUP) := by
    apply BitVec.eq_of_getLsbD_eq
    intro i hi
    grind
  unfold Loop.deliverable
  simp only
  split
  · exact Mask.sub_or (hand _ _) hp
  · exact hand _ _

inductive Runs (sig : Option W) : Label W → W → Mask → Prop
  | io (i : ℕ) (w : W) (m : Mask) : Runs sig (.deliver i w m) w m
  | signal {w : W} (m : Mask) (hw : sig = some w) : Runs sig (.deliverSignal m) w m

/-- **No stale event.** A callback runs for an event `epoll_wait` reported last time, of
its own fd, which no watcher was closed on or initialised for since; its mask is not
empty and asked for. -/
theorem no_stale_event {ls : List (Label W)} {s t : Loop W} {l : Label W} {w : W} {m : Mask}
    (hr : (system sig).History ls s) (hs : Step sig s l t) (hw : Runs sig l w m) :
    m ≠ 0 ∧ m.sub ((s.io w).pevents ||| POLLERR ||| POLLHUP) ∧ s.live w = true ∧
      ∃ pre evs post, ∃ (j : ℕ) (e : EpollEvent), ls = pre ++ .wait evs :: post ∧
        (∀ evs', .wait evs' ∉ post) ∧ evs[j]? = some e ∧ (l = .deliver j w m ∨ l = .deliverSignal m) ∧
        e.fd = (s.io w).fd ∧ Untouched post e.fd := by
  obtain ⟨hR, hC⟩ := current_run hr
  cases hw with
  | io i w m =>
    cases hs with
    | @deliver _ b pe _ _ hpc hi ht =>
      obtain ⟨evs, post, h1, h2⟩ := hC b hpc
      rcases dispatch_cases ht with ⟨hc, -⟩ | ⟨w', g1, g2, g3, g4, ⟨-, hc, -⟩ | ⟨hc, -⟩⟩
      · cases hc
      · cases hc
      · cases hc
        obtain ⟨o1, o2⟩ := hR.agrees.owner _ w g2 g3
        obtain ⟨k1, k2, -⟩ := h2.entry _ _ hi (by omega)
        obtain ⟨pre, rfl⟩ := h1.split
        exact ⟨g4, deliverable_sub _ _, hR.agrees.live w o1, pre, evs, post, b.i, pe, rfl, h1.last, k1,
          .inl rfl, by omega, k2⟩
  | signal m hw =>
    cases hs with
    | @deliverSignal b hpc hi hsig hn =>
      obtain ⟨evs, post, h1, h2⟩ := hC b hpc
      obtain ⟨w', j, e, k1, k2, k3, k4, k5, k6⟩ := h2.signal hsig
      cases hw.symm.trans k1
      obtain ⟨q1, q2, -⟩ := h2.entry j e k4 k6
      obtain ⟨pre, rfl⟩ := h1.split
      exact ⟨by decide, by rw [k3]; decide, k2, pre, evs, post, j, e, rfl, h1.last, q1, .inr rfl, k5, q2⟩

/-- A watcher on fd 0 gets its event. -/
theorem no_stale_event_one : ∃ (ls : List (Label Unit)) (s : Loop Unit),
    (system none).History ls s ∧ (s.io ()).fd = 0 ∧ ∃ e : EpollEvent, e.fd = (s.io ()).fd ∧
      ∃ pre evs post, ls = pre ++ .wait evs :: post ∧ e ∈ evs := by
  have h0 : (system none).Reachable (⟨[], 0, 0, [], fun _ => ⟨-1, 0, 0⟩, fun _ => false, fun _ => none, .idle⟩ : Loop Unit) :=
    .init ⟨rfl, rfl, rfl, rfl, fun _ => rfl, fun _ => rfl, fun _ => rfl, rfl⟩
  have h1 := h0.next (.init () 0) (.init trivial rfl (by decide) (by decide))
  have h2 := h1.next (.start () POLLIN) (.start trivial rfl nofun rfl)
  have h3 := h2.next .poll (.poll rfl rfl)
  obtain ⟨ls, h4⟩ := h3.next (.wait [⟨0, POLLIN⟩]) (.wait rfl nofun (by decide) (by decide) rfl)
  obtain ⟨-, -, -, pre, evs', post, j, e, hls, -, hj, -, hfd, -⟩ := no_stale_event h4 (.deliver rfl rfl rfl) (.io ..)
  exact ⟨ls, _, h4, rfl, e, hfd, pre, evs', post, hls, mem_of_getElem? hj⟩

end Libuv.L2.IoWatcher
