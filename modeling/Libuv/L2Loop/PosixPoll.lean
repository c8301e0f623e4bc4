import Libuv.L2Loop.IoWatcherBatch

/-!
# The `poll()` backend (`unix/posix-poll.c`)

The watchers, their table and their queue are those of `core.c` (`core`); its interest list and its place in a batch are not
used here. `loop->poll_fds` is the list of its entries in use: nothing reads an entry behind them, and memory for one more
can be had. `iterating` is `loop->poll_fds_iterating`.

A run is `uv__io_poll` up to `poll()` (`poll`), what `poll()` writes into the entries (`wait`: any `revents`), a step for each
entry, with the callback if there is one, the signal watcher's callback, and `finish`, from which a pass without events goes
back to `poll()`. The timeouts, the metrics and the errors of `poll()` decide only whether a pass ends (`ret`) or polls again.
The signal watcher is nowhere closed with `uv__io_close`; here it may be, outside of `uv__io_poll`.
-/
namespace Libuv.L2.PosixPoll

open List Function
open IoWatcher (Mask Io Cell POLLIN POLLERR POLLHUP pollMask Agrees)

/-- `struct pollfd` -/
structure PollFd where
  fd : ℤ
  events : Mask
  revents : Mask
  deriving DecidableEq

/-- The frame of `uv__io_poll` while it works through the entries; `signalled` once the signal watcher's callback has been
called, `calling` while a callback runs. -/
structure Batch where
  i : ℕ
  nevents : ℕ
  haveSignals : Bool
  signalled : Bool
  calling : Bool
  deriving DecidableEq

inductive Pc
  | idle
  | polled
  | batch (b : Batch)
  deriving DecidableEq

/-! ## The entries -/

/-- mirrors unix/posix-poll.c:86-104 -/
def pollfdsAdd (fd : ℤ) (events : Mask) : List PollFd → List PollFd
  | [] => [⟨fd, events, 0⟩]
  | p :: ps => if p.fd = fd then { p with events := events } :: ps else p :: pollfdsAdd fd events ps

/-- The last entry takes the place of entry `i`. -/
def swapRemove (l : List PollFd) (i : ℕ) : List PollFd := (l.set i (l.getLastD ⟨-1, 0, 0⟩)).dropLast

theorem length_swapRemove (l : List PollFd) (i : ℕ) : (swapRemove l i).length = l.length - 1 := by
  rw [swapRemove, length_dropLast, List.length_set]

/-- The loop of `uv__pollfds_del` from index `i` on.
mirrors unix/posix-poll.c:107-131 -/
def pollfdsDelFrom (fd : ℤ) (i : ℕ) (l : List PollFd) : List PollFd :=
  if h : i < l.length then
    if (l.get ⟨i, h⟩).fd = fd then
      if fd ≠ -1 then swapRemove l i else pollfdsDelFrom fd i (swapRemove l i)
    else pollfdsDelFrom fd (i + 1) l
  else l
termination_by l.length - i
decreasing_by
  · rw [length_swapRemove]
    omega
  · omega

def pollfdsDel (fd : ℤ) (l : List PollFd) : List PollFd := pollfdsDelFrom fd 0 l

/-- mirrors unix/posix-poll.c:341-348 -/
def invalidate (fd : ℤ) (l : List PollFd) : List PollFd := l.map fun p => if p.fd = fd then ⟨-1, 0, 0⟩ else p

/-- `pe->revents & (w->pevents | POLLERR | POLLHUP)` -/
def wanted (revents pevents : Mask) : Mask := revents &&& (pevents ||| POLLERR ||| POLLHUP)

/-! ## The loop -/

structure Loop (W : Type*) where
  core : IoWatcher.Loop W
  pollFds : List PollFd
  iterating : Bool
  pc : Pc

inductive Taken (W : Type*)
  | skip
  | signal
  | call (w : W) (events : Mask)
  deriving DecidableEq

variable {W : Type*} [DecidableEq W]

namespace Loop
variable (s : Loop W)

def ioInit (w : W) (fd : ℤ) : Loop W := { s with core := s.core.ioInit w fd }

def ioStart (w : W) (events : Mask) : Option (Loop W) :=
  match s.core.ioStart w events with
  | none => none
  | some c => some { s with core := c }

def ioStop (w : W) (events : Mask) : Option (Loop W) :=
  match s.core.ioStop w events with
  | none => none
  | some c => some { s with core := c }

/-- mirrors unix/posix-poll.c:336-353 -/
def platformInvalidateFd (fd : ℤ) : Option (Loop W) :=
  if fd < 0 then none
  else if s.iterating then some { s with pollFds := invalidate fd s.pollFds }
  else some { s with pollFds := pollfdsDel fd s.pollFds }

/-- mirrors unix/core.c:946-953 -/
def ioClose (w : W) : Option (Loop W) :=
  match s.core.ioStop w pollMask with
  | none => none
  | some c =>
    let s := { s with core := { c with live := Function.update c.live w false } }
    if (c.io w).fd ≠ -1 then s.platformInvalidateFd (c.io w).fd else some s

/-- One round of the loop over the queue, `w` taken off.
mirrors unix/posix-poll.c:156-169 -/
def register (w : W) : Option (Loop W) :=
  let o := s.core.io w
  if o.pevents = 0 ∨ o.fd < 0 ∨ s.core.nwatchers.toNat ≤ o.fd.toNat ∨ s.iterating = true then none
  else some { s with
    core := s.core.setIo w { o with events := o.pevents }
    pollFds := pollfdsAdd o.fd o.pevents s.pollFds }

def registerAll : List W → Loop W → Option (Loop W)
  | [], s => some s
  | w :: rest, s =>
    match ({ s with core := { s.core with watcherQueue := rest } } : Loop W).register w with
    | none => none
    | some s => registerAll rest s

/-- `uv__io_poll` up to `poll()`.
mirrors unix/posix-poll.c:150-169 -/
def pollHead : Option (Loop W) :=
  if s.core.nfds = 0 then if s.core.watcherQueue = [] then some s else none
  else
    match registerAll s.core.watcherQueue s with
    | none => none
    | some s => some { s with pc := .polled }

/-- `poll()` has written `revents`.
mirrors unix/posix-poll.c:251-255 -/
def waited (entries : List PollFd) : Loop W :=
  { s with
    pollFds := entries
    iterating := true
    pc := .batch { i := 0, nevents := 0, haveSignals := false, signalled := false, calling := false } }

/-- One round of the loop over the entries.
mirrors unix/posix-poll.c:258-293 -/
def dispatch (sig : Option W) (b : Batch) (pe : PollFd) : Option (Loop W × Taken W) :=
  let next : Loop W := { s with pc := .batch { b with i := b.i + 1, calling := false } }
  if pe.fd = -1 then some (next, .skip)
  else if pe.fd < 0 ∨ s.core.nwatchers.toNat ≤ pe.fd.toNat then none
  else
    match s.core.watchers[pe.fd.toNat]? with
    | some .null =>
      match next.platformInvalidateFd pe.fd with
      | none => none
      | some next => some (next, .skip)
    | some (.watcher w) =>
      let m := wanted pe.revents (s.core.io w).pevents
      let pollFds := s.pollFds.set b.i { pe with revents := m }
      if m = 0 then some ({ next with pollFds := pollFds }, .skip)
      else if sig = some w then
        some ({ s with
          pollFds := pollFds
          pc := .batch { b with i := b.i + 1, nevents := b.nevents + 1, haveSignals := true, calling := false } }, .signal)
      else
        some ({ s with
          pollFds := pollFds
          pc := .batch { b with i := b.i + 1, nevents := b.nevents + 1, calling := true } }, .call w m)
    | _ => none

/-- mirrors unix/posix-poll.c:305-308 -/
def finishBatch (pc : Pc) : Loop W :=
  { s with
    pollFds := pollfdsDel (-1) s.pollFds
    iterating := false
    pc := pc }

end Loop

/-! ## Runs -/

inductive Label (W : Type*)
  | init (w : W) (fd : ℤ)
  | start (w : W) (events : Mask)
  | stop (w : W) (events : Mask)
  | close (w : W) (fd : ℤ)
  | poll
  | wait (entries : List PollFd)
  | take (i : ℕ) (taken : Taken W)
  | deliverSignal (events : Mask)
  | finish
  | ret

/-- The owner's code runs: outside of `uv__io_poll`, or in a callback. -/
def Loop.Calls (s : Loop W) : Prop :=
  match s.pc with
  | .idle => True
  | .polled => False
  | .batch b => b.calling = true

def PollFd.key (p : PollFd) : ℤ × Mask := (p.fd, p.events)

/-- `sig` is `loop->signal_io_watcher`. -/
inductive Step (sig : Option W) : Loop W → Label W → Loop W → Prop
  | init {s : Loop W} {w : W} {fd : ℤ} (h : s.Calls) (hl : s.core.live w = false) (hfd : -1 ≤ fd)
      (hd : fd ≠ -1 → ∀ w', s.core.live w' = true → (s.core.io w').fd ≠ fd) : Step sig s (.init w fd) (s.ioInit w fd)
  | start {s t : Loop W} {w : W} {events : Mask} (h : s.Calls) (hl : s.core.live w = true)
      (ht : s.ioStart w events = some t) : Step sig s (.start w events) t
  | stop {s t : Loop W} {w : W} {events : Mask} (h : s.Calls) (hl : s.core.live w = true)
      (ht : s.ioStop w events = some t) : Step sig s (.stop w events) t
  | close {s t : Loop W} {w : W} (h : s.Calls) (hl : s.core.live w = true) (hs : sig = some w → s.pc = .idle)
      (ht : s.ioClose w = some t) : Step sig s (.close w (s.core.io w).fd) t
  | poll {s t : Loop W} (h : s.pc = .idle) (ht : s.pollHead = some t) : Step sig s .poll t
  | wait {s : Loop W} {entries : List PollFd} (h : s.pc = .polled)
      (hk : entries.map PollFd.key = s.pollFds.map PollFd.key) : Step sig s (.wait entries) (s.waited entries)
  | take {s t : Loop W} {b : Batch} {pe : PollFd} {taken : Taken W} (h : s.pc = .batch b)
      (hi : s.pollFds[b.i]? = some pe) (ht : s.dispatch sig b pe = some (t, taken)) : Step sig s (.take b.i taken) t
  | deliverSignal {s : Loop W} {b : Batch} (h : s.pc = .batch b) (hi : b.i = s.pollFds.length)
      (hs : b.haveSignals = true) (hn : b.signalled = false) :
      Step sig s (.deliverSignal POLLIN) { s with pc := .batch { b with signalled := true, calling := true } }
  | finish {s : Loop W} {b : Batch} {pc : Pc} (h : s.pc = .batch b) (hi : b.i = s.pollFds.length)
      (hs : b.haveSignals = b.signalled)
      (hpc : pc = .idle ∨ pc = .polled ∧ b.haveSignals = false ∧ b.nevents = 0) : Step sig s .finish (s.finishBatch pc)
  | ret {s : Loop W} (h : s.pc = .polled) : Step sig s .ret { s with pc := .idle }

def system (sig : Option W) : LTS (Loop W) (Label W) where
  init s := s.core.fresh ∧ s.pollFds = [] ∧ s.iterating = false ∧ s.pc = .idle
  step := Step sig

/-! ## What the entries stand for -/

def Represents (kernel : ℤ → Option Mask) (l : List PollFd) : Prop :=
  ∀ fd ev, kernel fd = some ev ↔ fd ≠ -1 ∧ (fd, ev) ∈ l.map PollFd.key

def Distinct (l : List PollFd) : Prop := ∀ fd, fd ≠ -1 → (l.map PollFd.fd).count fd ≤ 1

section
variable {kernel : ℤ → Option Mask} {l l' : List PollFd} {fd : ℤ}

theorem map_fd_of_key (h : l'.map PollFd.key = l.map PollFd.key) : l'.map PollFd.fd = l.map PollFd.fd := by
  have hfst : ∀ l : List PollFd, l.map PollFd.fd = (l.map PollFd.key).map Prod.fst := by
    intro l
    rw [map_map]
    rfl
  rw [hfst, hfst, h]

theorem Represents.congr (h : Represents kernel l) (hk : l'.map PollFd.key = l.map PollFd.key) : Represents kernel l' := by
  intro f ev
  rw [hk]
  exact h f ev

theorem Distinct.congr (h : Distinct l) (hk : l'.map PollFd.key = l.map PollFd.key) : Distinct l' := by
  intro f hf
  rw [map_fd_of_key hk]
  exact h f hf

theorem Represents.remove (h : Represents kernel l)
    (hl : ∀ f ev, f ≠ -1 → ((f, ev) ∈ l'.map PollFd.key ↔ f ≠ fd ∧ (f, ev) ∈ l.map PollFd.key)) :
    Represents (update kernel fd none) l' := by
  intro f ev
  rw [update_apply]
  by_cases hf : f = fd
  · rw [if_pos hf]
    constructor
    · intro hn
      cases hn
    · intro hm
      exact absurd hf ((hl f ev hm.1).mp hm.2).1
  · rw [if_neg hf, h f ev]
    constructor
    · intro hm
      exact ⟨hm.1, (hl f ev hm.1).mpr ⟨hf, hm.2⟩⟩
    · intro hm
      exact ⟨hm.1, ((hl f ev hm.1).mp hm.2).2⟩

/-! ### `uv__pollfds_add` -/

theorem map_fd_add (fd : ℤ) (events : Mask) (l : List PollFd) : (pollfdsAdd fd events l).map PollFd.fd =
    if fd ∈ l.map PollFd.fd then l.map PollFd.fd else l.map PollFd.fd ++ [fd] := by
  induction l with
  | nil => rfl
  | cons p ps ih =>
    rw [pollfdsAdd]
    by_cases hp : p.fd = fd
    · rw [if_pos hp, map_cons, map_cons, if_pos (by rw [hp]; exact mem_cons_self)]
    · rw [if_neg hp, map_cons, map_cons, ih]
      by_cases hm : fd ∈ ps.map PollFd.fd
      · rw [if_pos hm, if_pos (mem_cons_of_mem _ hm)]
      · have hm' : fd ∉ p.fd :: ps.map PollFd.fd := by
          intro h
          rcases mem_cons.mp h with h | h
          · exact hp h.symm
          · exact hm h
        rw [if_neg hm, if_neg hm', cons_append]

theorem Distinct.add (h : Distinct l) (fd : ℤ) (events : Mask) : Distinct (pollfdsAdd fd events l) := by
  intro f hf
  rw [map_fd_add]
  split_ifs with hm
  · exact h f hf
  · rw [count_append, count_singleton]
    split_ifs with hfd
    · have hz : (l.map PollFd.fd).count f = 0 := by
        rw [← beq_iff_eq.mp hfd]
        exact List.count_eq_zero.mpr hm
      omega
    · exact h f hf

variable {p : PollFd} {i : ℕ} {fd : ℤ}

theorem Distinct.tail (h : Distinct (p :: l)) : Distinct l := by
  intro f hf
  have hc := h f hf
  rw [map_cons, count_cons] at hc
  omega

theorem Distinct.head_not_mem (h : Distinct (p :: l)) (hp : p.fd ≠ -1) {ev : Mask} :
    (p.fd, ev) ∉ l.map PollFd.key := by
  intro hm
  have hc := h p.fd hp
  rw [map_cons, count_cons_self] at hc
  have hfd : p.fd ∈ l.map PollFd.fd := by
    obtain ⟨q, hq, hkey⟩ := mem_map.mp hm
    exact mem_map.mpr ⟨q, hq, (Prod.mk.inj hkey).1⟩
  have := count_pos_iff.mpr hfd
  omega

theorem mem_add (h : Distinct l) (hfd : fd ≠ -1) {events : Mask} {f : ℤ} {ev : Mask} :
    (f, ev) ∈ (pollfdsAdd fd events l).map PollFd.key ↔
      f = fd ∧ ev = events ∨ f ≠ fd ∧ (f, ev) ∈ l.map PollFd.key := by
  induction l with
  | nil =>
    rw [pollfdsAdd, map_singleton, mem_singleton, Prod.mk.injEq]
    constructor
    · exact .inl
    · intro hm
      exact hm.resolve_right fun hm => by cases hm.2
  | cons p ps ih =>
    rw [pollfdsAdd]
    by_cases hp : p.fd = fd
    · have hno : (p.fd, ev) ∉ ps.map PollFd.key := h.head_not_mem (by rw [hp]; exact hfd)
      rw [hp] at hno
      rw [if_pos hp, map_cons, map_cons, mem_cons, mem_cons, PollFd.key, PollFd.key, hp, Prod.mk.injEq, Prod.mk.injEq]
      constructor
      · intro hm
        by_cases hf : f = fd
        · rw [hf] at hm
          exact .inl ⟨hf, (hm.resolve_right hno).2⟩
        · exact .inr ⟨hf, .inr (hm.resolve_left fun hm => hf hm.1)⟩
      · intro hm
        rcases hm with hm | ⟨hf, hm⟩
        · exact .inl hm
        · exact .inr (hm.resolve_left fun hm => hf hm.1)
    · rw [if_neg hp, map_cons, map_cons, mem_cons, mem_cons, ih h.tail]
      constructor
      · intro hm
        rcases hm with hm | hm | hm
        · refine .inr ⟨fun hf => hp ?_, .inl hm⟩
          rw [← hf]
          exact (Prod.mk.inj hm).1.symm
        · exact .inl hm
        · exact .inr ⟨hm.1, .inr hm.2⟩
      · intro hm
        rcases hm with hm | ⟨hf, hm | hm⟩
        · exact .inr (.inl hm)
        · exact .inl hm
        · exact .inr (.inr ⟨hf, hm⟩)

theorem Represents.add (h : Represents kernel l) (hd : Distinct l) (hfd : fd ≠ -1) (events : Mask) :
    Represents (update kernel fd (some events)) (pollfdsAdd fd events l) := by
  intro f ev
  rw [update_apply, mem_add hd hfd]
  by_cases hf : f = fd
  · rw [if_pos hf]
    constructor
    · intro he
      cases he
      exact ⟨by rw [hf]; exact hfd, .inl ⟨hf, rfl⟩⟩
    · intro hm
      rcases hm.2 with hm | hm
      · rw [hm.2]
      · exact absurd hf hm.1
  · rw [if_neg hf, h f ev]
    constructor
    · intro hm
      exact ⟨hm.1, .inr ⟨hf, hm.2⟩⟩
    · intro hm
      exact ⟨hm.1, (hm.2.resolve_left fun hm => hf hm.1).2⟩

/-! ### `uv__pollfds_del` -/

theorem swapRemove_perm (hp : l[i]? = some p) : l.Perm (p :: swapRemove l i) := by
  rcases eq_nil_or_concat l with rfl | ⟨d, x, rfl⟩
  · cases hp
  · rw [concat_eq_append] at hp ⊢
    rw [swapRemove, getLastD_concat]
    by_cases hi : i < d.length
    · rw [getElem?_append_left hi, getElem?_eq_getElem hi] at hp
      have herase : d.Perm (p :: d.eraseIdx i) := by
        rw [← Option.some.inj hp]
        exact (getElem_cons_eraseIdx_perm hi).symm
      rw [set_append_left _ _ hi, dropLast_concat]
      calc List.Perm (d ++ [x]) (x :: d) := perm_append_singleton x d
        List.Perm _ (x :: p :: d.eraseIdx i) := herase.cons x
        List.Perm _ (p :: x :: d.eraseIdx i) := List.Perm.swap p x _
        List.Perm _ (p :: d.set i x) := ((set_perm_cons_eraseIdx hi x).symm).cons p
    · have hlen : i < (d ++ [x]).length := (List.getElem?_eq_some_iff.mp hp).1
      rw [length_append, length_singleton] at hlen
      obtain rfl : i = d.length := by omega
      rw [getElem?_append_right le_rfl, Nat.sub_self] at hp
      cases hp
      rw [set_append_right _ _ le_rfl, Nat.sub_self, set_cons_zero, dropLast_concat]
      exact perm_append_singleton _ d

theorem swapRemove_prefix {j : ℕ} (hj : j < i) (hi : i < l.length) : (swapRemove l i)[j]? = l[j]? := by
  rw [swapRemove, getElem?_dropLast, List.length_set, if_pos (by omega), getElem?_set_ne (by omega)]

theorem filter_of_count (h : (l.map PollFd.fd).count fd = 0) : l.filter (fun p => p.fd ≠ fd) = l := by
  refine filter_eq_self.mpr fun p hp => decide_eq_true fun he => ?_
  refine List.count_eq_zero.mp h ?_
  rw [← he]
  exact mem_map_of_mem hp

theorem filter_swapRemove (hp : l[i]? = some p) (hfd : p.fd = fd) :
    (l.filter fun p => p.fd ≠ fd).Perm ((swapRemove l i).filter fun p => p.fd ≠ fd) := by
  have hfilter := (swapRemove_perm hp).filter fun p => p.fd ≠ fd
  have hskip : (p :: swapRemove l i).filter (fun p => p.fd ≠ fd) = (swapRemove l i).filter fun p => p.fd ≠ fd :=
    filter_cons_of_neg fun he => of_decide_eq_true he hfd
  rwa [hskip] at hfilter

theorem delFrom_perm (fd : ℤ) (i : ℕ) (l : List PollFd) (hone : fd ≠ -1 → (l.map PollFd.fd).count fd ≤ 1)
    (hpre : ∀ (j : ℕ) (p : PollFd), j < i → l[j]? = some p → p.fd ≠ fd) :
    (pollfdsDelFrom fd i l).Perm (l.filter fun p => p.fd ≠ fd) := by
  induction i, l using pollfdsDelFrom.induct fd with
  | case1 i l h hfd hne =>
    have hperm := swapRemove_perm (getElem?_eq_getElem h)
    have hhead : l[i].fd = fd := hfd
    have hcount := (hperm.map PollFd.fd).count_eq fd
    rw [map_cons, hhead, count_cons_self] at hcount
    have hrest : ((swapRemove l i).map PollFd.fd).count fd = 0 := by
      omega
    have hfilter := filter_swapRemove (getElem?_eq_getElem h) hhead
    rw [filter_of_count hrest] at hfilter
    rw [pollfdsDelFrom, dif_pos h, if_pos hfd, if_pos hne]
    exact hfilter.symm
  | case2 i l h hfd hne ih =>
    have hfilter := filter_swapRemove (getElem?_eq_getElem h) hfd
    rw [pollfdsDelFrom, dif_pos h, if_pos hfd, if_neg hne]
    refine (ih (fun he => absurd he hne) fun j p hj hp => hpre j p hj ?_).trans hfilter.symm
    rw [← swapRemove_prefix hj h]
    exact hp
  | case3 i l h hfd ih =>
    rw [pollfdsDelFrom, dif_pos h, if_neg hfd]
    refine ih hone fun j p hj hp => ?_
    by_cases hji : j = i
    · rw [hji, getElem?_eq_getElem h] at hp
      cases hp
      exact hfd
    · exact hpre j p (by omega) hp
  | case4 i l h =>
    rw [pollfdsDelFrom, dif_neg h, filter_eq_self.mpr]
    intro p hp
    obtain ⟨j, hj⟩ := mem_iff_getElem?.mp hp
    have := (List.getElem?_eq_some_iff.mp hj).1
    exact decide_eq_true (hpre j p (by omega) hj)

theorem del_perm (hone : fd ≠ -1 → (l.map PollFd.fd).count fd ≤ 1) :
    (pollfdsDel fd l).Perm (l.filter fun p => p.fd ≠ fd) :=
  delFrom_perm fd 0 l hone fun _ _ hj => absurd hj (Nat.not_lt_zero _)

/-! ### What is left after a removal -/

theorem Distinct.del (h : Distinct l) (fd : ℤ) : Distinct (pollfdsDel fd l) := by
  intro f hf
  rw [((del_perm (h fd)).map PollFd.fd).count_eq]
  exact (((filter_sublist (p := fun p => decide (p.fd ≠ fd))).map PollFd.fd).count_le f).trans (h f hf)

theorem mem_del (h : Distinct l) : p ∈ pollfdsDel fd l ↔ p ∈ l ∧ p.fd ≠ fd := by
  rw [(del_perm (h fd)).mem_iff, mem_filter, decide_eq_true_iff]

theorem Represents.del (h : Represents kernel l) (hd : Distinct l) (fd : ℤ) :
    Represents (update kernel fd none) (pollfdsDel fd l) := by
  refine h.remove fun f ev _ => ?_
  rw [mem_map, mem_map]
  constructor
  · intro hm
    obtain ⟨p, hp, hkey⟩ := hm
    obtain ⟨hl, hne⟩ := (mem_del hd).mp hp
    exact ⟨by rw [← (Prod.mk.inj hkey).1]; exact hne, p, hl, hkey⟩
  · intro hm
    obtain ⟨hne, p, hp, hkey⟩ := hm
    exact ⟨p, (mem_del hd).mpr ⟨hp, by rw [(Prod.mk.inj hkey).1]; exact hne⟩, hkey⟩

theorem Represents.purge (h : Represents kernel l) (hd : Distinct l) : Represents kernel (pollfdsDel (-1) l) := by
  have hnone : kernel (-1) = none := by
    cases hk : kernel (-1) with
    | none => rfl
    | some ev => exact absurd rfl ((h (-1) ev).mp hk).1
  have hr := h.del hd (-1)
  rw [← hnone, update_eq_self] at hr
  exact hr

theorem getElem?_invalidate (fd : ℤ) (l : List PollFd) (j : ℕ) :
    (invalidate fd l)[j]? = l[j]?.map fun p => if p.fd = fd then ⟨-1, 0, 0⟩ else p := by
  rw [invalidate, getElem?_map]

theorem Distinct.invalidate (h : Distinct l) (fd : ℤ) : Distinct (invalidate fd l) := by
  intro f hf
  refine Nat.le_trans ?_ (h f hf)
  clear h
  induction l with
  | nil => exact Nat.le_refl _
  | cons p ps ih =>
    rw [PosixPoll.invalidate, map_cons, map_cons, map_cons, count_cons, count_cons]
    by_cases hp : p.fd = fd
    · rw [if_pos hp, if_neg (fun he => hf (beq_iff_eq.mp he).symm)]
      exact Nat.le_add_right_of_le ih
    · rw [if_neg hp]
      exact Nat.add_le_add_right ih _

theorem mem_invalidate (hp : p.fd ≠ -1) : p ∈ invalidate fd l ↔ p ∈ l ∧ p.fd ≠ fd := by
  rw [invalidate, mem_map]
  constructor
  · intro hm
    obtain ⟨q, hq, rfl⟩ := hm
    split_ifs at hp with hfd
    · exact absurd rfl hp
    · rw [if_neg hfd]
      exact ⟨hq, hfd⟩
  · intro hm
    exact ⟨p, hm.1, if_neg hm.2⟩

theorem Represents.invalidate (h : Represents kernel l) (fd : ℤ) :
    Represents (update kernel fd none) (invalidate fd l) := by
  refine h.remove fun f ev hf => ?_
  rw [mem_map, mem_map]
  constructor
  · intro hm
    obtain ⟨p, hp, hkey⟩ := hm
    have hfd := (Prod.mk.inj hkey).1
    obtain ⟨hl, hne⟩ := (mem_invalidate (by rw [hfd]; exact hf)).mp hp
    exact ⟨by rw [← hfd]; exact hne, p, hl, hkey⟩
  · intro hm
    obtain ⟨hne, p, hp, hkey⟩ := hm
    have hfd := (Prod.mk.inj hkey).1
    exact ⟨p, (mem_invalidate (by rw [hfd]; exact hf)).mpr ⟨hp, by rw [hfd]; exact hne⟩, hkey⟩

end

/-! ## The invariant -/

/-- In a batch: without an event nothing has been called. -/
structure Calm (c : IoWatcher.Loop W) (b : Batch) : Prop where
  calling : b.calling = true → b.nevents ≠ 0
  signals : b.haveSignals = true → b.nevents ≠ 0
  queue : b.nevents = 0 → c.watcherQueue = []

structure Inv (s : Loop W) : Prop where
  agrees : ∃ kernel, Agrees (s.core.under s.core.live kernel) ∧ Represents kernel s.pollFds
  distinct : Distinct s.pollFds
  iterating : s.iterating = true ↔ ∃ b, s.pc = .batch b
  valid : s.iterating = false → ∀ p ∈ s.pollFds, p.fd ≠ -1
  quiet : s.pc = .polled → s.core.watcherQueue = []
  calm : ∀ b, s.pc = .batch b → Calm s.core b

section
variable {s t : Loop W} {w : W}

theorem Inv.called (h : Inv s) (hc : s.Calls) {c : IoWatcher.Loop W}
    (ha : ∃ kernel, Agrees (c.under c.live kernel) ∧ Represents kernel s.pollFds) : Inv { s with core := c } where
  agrees := ha
  distinct := h.distinct
  iterating := h.iterating
  valid := h.valid
  quiet := by
    intro hp
    rw [Loop.Calls] at hc
    rw [hp] at hc
    exact hc.elim
  calm := by
    intro b hb
    rw [Loop.Calls] at hc
    rw [hb] at hc
    have hn := (h.calm b hb).calling hc
    exact ⟨fun _ => hn, fun _ => hn, fun h0 => absurd h0 hn⟩

variable {fd : ℤ} {events : Mask} {sig : Option W} {b : Batch}

theorem Inv.init (h : Inv s) (hc : s.Calls) (hl : s.core.live w = false)
    (hd : fd ≠ -1 → ∀ w', s.core.live w' = true → (s.core.io w').fd ≠ fd) : Inv (s.ioInit w fd) := by
  obtain ⟨kernel, ha, hr⟩ := h.agrees
  exact h.called hc ⟨kernel, IoWatcher.ioInit_agrees ha hl hd, hr⟩

theorem ioStart_cases (ht : s.ioStart w events = some t) :
    ∃ c, s.core.ioStart w events = some c ∧ t = { s with core := c } := by
  rw [Loop.ioStart] at ht
  cases hc : s.core.ioStart w events with
  | none =>
    rw [hc] at ht
    cases ht
  | some c =>
    rw [hc] at ht
    cases ht
    exact ⟨c, rfl, rfl⟩

theorem ioStop_cases (ht : s.ioStop w events = some t) :
    ∃ c, s.core.ioStop w events = some c ∧ t = { s with core := c } := by
  rw [Loop.ioStop] at ht
  cases hc : s.core.ioStop w events with
  | none =>
    rw [hc] at ht
    cases ht
  | some c =>
    rw [hc] at ht
    cases ht
    exact ⟨c, rfl, rfl⟩

/-- The entries without those for `fd`. -/
def Loop.without (s : Loop W) (fd : ℤ) : List PollFd :=
  if s.iterating then PosixPoll.invalidate fd s.pollFds else pollfdsDel fd s.pollFds

omit [DecidableEq W] in
theorem platformInvalidateFd_cases (ht : s.platformInvalidateFd fd = some t) :
    t = { s with pollFds := s.without fd } := by
  rw [Loop.platformInvalidateFd] at ht
  rw [Loop.without]
  split_ifs at ht ⊢ with h1 h2
  · cases ht
    rfl
  · cases ht
    rfl

theorem ioClose_cases (ht : s.ioClose w = some t) : ∃ c, s.core.ioStop w pollMask = some c ∧ t = { s with
      core := { c with live := update c.live w false }
      pollFds := if (c.io w).fd = -1 then s.pollFds else s.without (c.io w).fd } := by
  rw [Loop.ioClose] at ht
  cases hc : s.core.ioStop w pollMask with
  | none =>
    rw [hc] at ht
    cases ht
  | some c =>
    rw [hc] at ht
    dsimp only at ht
    refine ⟨c, rfl, ?_⟩
    by_cases hfd : (c.io w).fd = -1
    · rw [if_neg (not_not.mpr hfd)] at ht
      cases ht
      rw [if_pos hfd]
    · rw [if_pos hfd] at ht
      rw [if_neg hfd, platformInvalidateFd_cases ht]
      rfl

theorem Inv.start (h : Inv s) (hc : s.Calls) (hl : s.core.live w = true)
    (ht : s.ioStart w events = some t) : Inv t := by
  obtain ⟨kernel, ha, hr⟩ := h.agrees
  obtain ⟨c, hcore, rfl⟩ := ioStart_cases ht
  have hstart : (s.core.under s.core.live kernel).ioStart w events = some (c.under s.core.live kernel) := by
    rw [IoWatcher.ioStart_under, hcore]
    rfl
  have hlive : c.live = s.core.live := (IoWatcher.ioStart_startFrame hcore).live
  refine h.called hc ⟨kernel, ?_, hr⟩
  rw [hlive]
  exact IoWatcher.ioStart_agrees ha hl hstart

theorem stopped_agrees (hl : s.core.live w = true) {c : IoWatcher.Loop W}
    (hcore : s.core.ioStop w events = some c) {kernel : ℤ → Option Mask} (ha : Agrees (s.core.under s.core.live kernel)) :
    Agrees (c.under c.live kernel) := by
  have hstop : (s.core.under s.core.live kernel).ioStop w events = some (c.under s.core.live kernel) := by
    rw [IoWatcher.ioStop_under, hcore]
    rfl
  rw [(IoWatcher.ioStop_frame hcore).live]
  exact IoWatcher.ioStop_agrees ha hl hstop

theorem Inv.stop (h : Inv s) (hc : s.Calls) (hl : s.core.live w = true)
    (ht : s.ioStop w events = some t) : Inv t := by
  obtain ⟨kernel, ha, hr⟩ := h.agrees
  obtain ⟨c, hcore, rfl⟩ := ioStop_cases ht
  exact h.called hc ⟨kernel, stopped_agrees hl hcore ha, hr⟩

theorem Inv.without_spec (h : Inv s) (fd : ℤ) : Distinct (s.without fd) ∧
    (s.iterating = false → ∀ p ∈ s.without fd, p.fd ≠ -1) ∧
    ∀ kernel, Represents kernel s.pollFds → Represents (update kernel fd none) (s.without fd) := by
  rw [Loop.without]
  cases hi : s.iterating with
  | true =>
    exact ⟨h.distinct.invalidate fd, fun he => absurd he (by decide), fun _ hr => hr.invalidate fd⟩
  | false =>
    refine ⟨h.distinct.del fd, fun _ p hp => ?_, fun _ hr => hr.del h.distinct fd⟩
    exact h.valid hi p ((mem_del h.distinct).mp hp).1

theorem Inv.without (h : Inv s) (hd : ∀ w, (s.core.io w).events ≠ 0 → (s.core.io w).fd ≠ fd) :
    Inv { s with pollFds := s.without fd } := by
  obtain ⟨kernel, ha, hr⟩ := h.agrees
  obtain ⟨hdist, hvalid, hrep⟩ := h.without_spec fd
  refine ⟨⟨_, ?_, hrep kernel hr⟩, hdist, h.iterating, hvalid, h.quiet, h.calm⟩
  refine ha.under ha.live ha.distinct (fun w' hw' => ?_) fun f hf => ?_
  · have hne : ((s.core.under s.core.live kernel).io w').fd ≠ fd := hd w' hw'
    rw [update_of_ne hne]
    exact (ha.clean w' hw').2
  · rw [update_apply] at hf
    split_ifs at hf
    · cases hf
    · exact hf

theorem Inv.close (h : Inv s) (hc : s.Calls) (hl : s.core.live w = true) (ht : s.ioClose w = some t) : Inv t := by
  obtain ⟨kernel, ha, hr⟩ := h.agrees
  obtain ⟨c, hcore, rfl⟩ := ioClose_cases ht
  have hac := stopped_agrees hl hcore ha
  have hlive := (IoWatcher.ioStop_frame hcore).live
  obtain ⟨hp, he⟩ := IoWatcher.ioStop_wanted ha (ha.mask w) (t := c.under s.core.live kernel) (by
    rw [IoWatcher.ioStop_under, hcore]
    rfl)
  have hdrop := hac.drop hp
  have hclosed : Inv { s with core := { c with live := update c.live w false } } :=
    h.called hc ⟨kernel, hdrop, hr⟩
  by_cases hfd : (c.io w).fd = -1
  · rw [if_pos hfd]
    exact hclosed
  · rw [if_neg hfd]
    refine hclosed.without fun w' hw' hsame => ?_
    have hown := hac.clean w' hw'
    have hw : w = w' := hac.distinct w w' (by rw [show (c.under c.live kernel).live = c.live from rfl, hlive]; exact hl)
      (hac.live w' hown.1) hfd hsame.symm
    rw [← hw] at hw'
    exact hw' he

/-! ### `uv__io_poll` -/

theorem Inv.register {rest : List W} (h : Inv s) (hpc : s.pc = .idle) (hq : s.core.watcherQueue = w :: rest) :
    ∃ t, ({ s with core := { s.core with watcherQueue := rest } } : Loop W).register w = some t ∧ Inv t ∧ t.pc = .idle ∧
      t.core.watcherQueue = rest := by
  obtain ⟨kernel, ha, hr⟩ := h.agrees
  obtain ⟨u, hu, hau, hqu, -⟩ := IoWatcher.register_agrees ha hq
  have hmem : w ∈ s.core.watcherQueue := by
    rw [hq]
    exact mem_cons_self
  have hp : (s.core.io w).pevents ≠ 0 := ha.queued w hmem
  obtain ⟨i, hi, hfd, -⟩ := ha.mapped w hp
  have hfd' : (s.core.io w).fd = (i : ℤ) := hfd
  have hi' : i < s.core.nwatchers.toNat := hi
  have hiter : s.iterating ≠ true := by
    intro hb
    obtain ⟨b, hb⟩ := h.iterating.mp hb
    rw [hpc] at hb
    cases hb
  have hne : (s.core.io w).fd ≠ -1 := by omega
  refine ⟨_, if_neg (not_or.mpr ⟨hp, not_or.mpr ⟨?_, not_or.mpr ⟨?_, hiter⟩⟩⟩), ⟨⟨_, ?_, hr.add h.distinct hne _⟩, ?_,
    h.iterating, ?_, ?_, ?_⟩, hpc, rfl⟩
  · dsimp only
    omega
  · dsimp only
    omega
  · rw [IoWatcher.register_eq hu] at hau
    exact hau
  · exact h.distinct.add _ _
  · intro hit p hp
    by_cases hpf : p.fd = (s.core.io w).fd
    · rw [hpf]
      exact hne
    · have hkey : (p.fd, p.events) ∈ (pollfdsAdd (s.core.io w).fd (s.core.io w).pevents s.pollFds).map PollFd.key :=
        mem_map_of_mem hp
      rw [mem_add h.distinct hne] at hkey
      obtain ⟨q, hq, hqk⟩ := mem_map.mp (hkey.resolve_left fun hk => hpf hk.1).2
      rw [← (Prod.mk.inj hqk).1]
      exact h.valid hit q hq
  · intro hp
    rw [show s.pc = .polled from hp] at hpc
    cases hpc
  · intro b hb
    rw [show s.pc = .batch b from hb] at hpc
    cases hpc

theorem Inv.registerAll (q : List W) : ∀ s : Loop W, Inv s → s.pc = .idle → s.core.watcherQueue = q →
    ∃ t, Loop.registerAll q s = some t ∧ Inv t ∧ t.pc = .idle ∧ t.core.watcherQueue = [] := by
  induction q with
  | nil =>
    intro s h hpc hq
    exact ⟨s, rfl, h, hpc, hq⟩
  | cons w rest ih =>
    intro s h hpc hq
    obtain ⟨u, hu, hiu, hpu, hqu⟩ := h.register hpc hq
    obtain ⟨t, ht, hrest⟩ := ih u hiu hpu hqu
    refine ⟨t, ?_, hrest⟩
    rw [Loop.registerAll, hu]
    exact ht

theorem Inv.pollHead (h : Inv s) (hpc : s.pc = .idle) :
    ∃ t, s.pollHead = some t ∧ Inv t ∧ (t = s ∨ t.pc = .polled) := by
  rw [Loop.pollHead]
  by_cases h0 : s.core.nfds = 0
  · obtain ⟨kernel, ha, -⟩ := h.agrees
    obtain ⟨u, hu, -⟩ := IoWatcher.pollHead_agrees ha
    have hq : s.core.watcherQueue = [] := by
      rw [IoWatcher.Loop.pollHead, if_pos (show (s.core.under s.core.live kernel).nfds = 0 from h0)] at hu
      split_ifs at hu with hq
      exact hq
    rw [if_pos h0, if_pos hq]
    exact ⟨s, rfl, h, .inl rfl⟩
  · obtain ⟨t, ht, hi, hpt, hq⟩ := Inv.registerAll _ s h hpc rfl
    rw [if_neg h0, ht]
    refine ⟨_, rfl, ⟨hi.agrees, hi.distinct, ?_, hi.valid, fun _ => hq, ?_⟩, .inr rfl⟩
    · rw [hi.iterating, hpt]
      constructor
      · intro hb
        obtain ⟨b, hb⟩ := hb
        cases hb
      · intro hb
        obtain ⟨b, hb⟩ := hb
        cases hb
    · intro b hb
      cases hb

theorem Inv.wait (h : Inv s) (hpc : s.pc = .polled) {entries : List PollFd}
    (hk : entries.map PollFd.key = s.pollFds.map PollFd.key) : Inv (s.waited entries) := by
  obtain ⟨kernel, ha, hr⟩ := h.agrees
  refine ⟨⟨kernel, ha, hr.congr hk⟩, h.distinct.congr hk, ⟨fun _ => ⟨_, rfl⟩, fun _ => rfl⟩, ?_, ?_, ?_⟩
  · intro hit
    cases hit
  · intro hp
    cases hp
  · intro b hb
    cases hb
    exact ⟨fun hc => absurd hc (by decide), fun hc => absurd hc (by decide), fun _ => h.quiet hpc⟩

/-- What one round of the loop over the entries can do. -/
inductive Takes (sig : Option W) (s : Loop W) (b : Batch) (pe : PollFd) : Taken W → Loop W → Prop
  | invalid (h : pe.fd = -1) : Takes sig s b pe .skip { s with pc := .batch { b with i := b.i + 1, calling := false } }
  | stopped (h0 : 0 ≤ pe.fd) (hc : s.core.watchers[pe.fd.toNat]? = some .null) :
      Takes sig s b pe .skip { s with
        pollFds := s.without pe.fd
        pc := .batch { b with i := b.i + 1, calling := false } }
  | unwanted (w : W) (h0 : 0 ≤ pe.fd) (hlt : pe.fd.toNat < s.core.nwatchers.toNat)
      (hc : s.core.watchers[pe.fd.toNat]? = some (.watcher w)) (hm : wanted pe.revents (s.core.io w).pevents = 0) :
      Takes sig s b pe .skip { s with
        pollFds := s.pollFds.set b.i { pe with revents := wanted pe.revents (s.core.io w).pevents }
        pc := .batch { b with i := b.i + 1, calling := false } }
  | signal (w : W) (h0 : 0 ≤ pe.fd) (hlt : pe.fd.toNat < s.core.nwatchers.toNat)
      (hc : s.core.watchers[pe.fd.toNat]? = some (.watcher w)) (hm : wanted pe.revents (s.core.io w).pevents ≠ 0)
      (hs : sig = some w) :
      Takes sig s b pe .signal { s with
        pollFds := s.pollFds.set b.i { pe with revents := wanted pe.revents (s.core.io w).pevents }
        pc := .batch { b with i := b.i + 1, nevents := b.nevents + 1, haveSignals := true, calling := false } }
  | call (w : W) (h0 : 0 ≤ pe.fd) (hlt : pe.fd.toNat < s.core.nwatchers.toNat)
      (hc : s.core.watchers[pe.fd.toNat]? = some (.watcher w)) (hm : wanted pe.revents (s.core.io w).pevents ≠ 0)
      (hs : sig ≠ some w) :
      Takes sig s b pe (.call w (wanted pe.revents (s.core.io w).pevents)) { s with
        pollFds := s.pollFds.set b.i { pe with revents := wanted pe.revents (s.core.io w).pevents }
        pc := .batch { b with i := b.i + 1, nevents := b.nevents + 1, calling := true } }

theorem dispatch_takes {pe : PollFd} {taken : Taken W}
    (ht : s.dispatch sig b pe = some (t, taken)) : Takes sig s b pe taken t := by
  rw [Loop.dispatch] at ht
  by_cases hinv : pe.fd = -1
  · rw [if_pos hinv] at ht
    cases ht
    exact .invalid hinv
  rw [if_neg hinv] at ht
  by_cases hout : pe.fd < 0 ∨ s.core.nwatchers.toNat ≤ pe.fd.toNat
  · rw [if_pos hout] at ht
    cases ht
  rw [if_neg hout] at ht
  have h0 : 0 ≤ pe.fd := by omega
  have hlt : pe.fd.toNat < s.core.nwatchers.toNat := by omega
  cases hc : s.core.watchers[pe.fd.toNat]? with
  | none =>
    rw [hc] at ht
    cases ht
  | some c =>
    rw [hc] at ht
    cases c with
    | null =>
      dsimp only at ht
      split at ht
      · cases ht
      · next u hu =>
        cases ht
        rw [platformInvalidateFd_cases hu]
        exact .stopped h0 hc
    | watcher w =>
      dsimp only at ht
      split_ifs at ht with hm hs
      · cases ht
        exact .unwanted w h0 hlt hc hm
      · cases ht
        exact .signal w h0 hlt hc hm hs
      · cases ht
        exact .call w h0 hlt hc hm hs
    | events | count n => cases ht

theorem map_key_set {l : List PollFd} {i : ℕ} {p : PollFd} (hp : l[i]? = some p) (m : Mask) :
    (l.set i { p with revents := m }).map PollFd.key = l.map PollFd.key := by
  obtain ⟨hi, rfl⟩ := List.getElem?_eq_some_iff.mp hp
  rw [map_set]
  refine ext_getElem? fun j => ?_
  rw [getElem?_set]
  split_ifs with hj hl
  · subst hj
    rw [getElem?_map, hp]
    rfl
  · rw [length_map] at hl
    exact absurd (hj ▸ hi) hl
  · rfl

theorem Inv.goOn (h : Inv s) {b' : Batch} (hpc : s.pc = .batch b) {l : List PollFd}
    (hk : l.map PollFd.key = s.pollFds.map PollFd.key) (hb : Calm s.core b') :
    Inv { s with pollFds := l, pc := .batch b' } := by
  obtain ⟨kernel, ha, hr⟩ := h.agrees
  have hit : s.iterating = true := h.iterating.mpr ⟨b, hpc⟩
  refine ⟨⟨kernel, ha, hr.congr hk⟩, h.distinct.congr hk, ⟨fun _ => ⟨b', rfl⟩, fun _ => hit⟩, fun hf => ?_, ?_, ?_⟩
  · rw [show s.iterating = false from hf] at hit
    cases hit
  · intro hp
    cases hp
  · intro b₀ hb₀
    cases hb₀
    exact hb

theorem Inv.take (h : Inv s) {pe : PollFd} {taken : Taken W} (hpc : s.pc = .batch b)
    (hi : s.pollFds[b.i]? = some pe) (ht : s.dispatch sig b pe = some (t, taken)) : Inv t := by
  have hcalm := h.calm b hpc
  have hskip : Calm s.core { b with i := b.i + 1, calling := false } :=
    ⟨fun hc => absurd hc Bool.false_ne_true, hcalm.signals, hcalm.queue⟩
  have hevent : ∀ b' : Batch, b'.nevents = b.nevents + 1 → Calm s.core b' := by
    intro b' hb'
    exact ⟨fun _ => by omega, fun _ => by omega, fun h0 => by omega⟩
  cases dispatch_takes ht with
  | invalid hinv => exact h.goOn hpc rfl hskip
  | stopped h0 hc =>
    have hwithout : Inv { s with pollFds := s.without pe.fd } := by
      obtain ⟨kernel, ha, -⟩ := h.agrees
      refine h.without fun w hw hfd => ?_
      -- a watcher that has told the kernel something is in the table
      obtain ⟨i, -, hif, hiw⟩ := ha.mapped w (ha.clean w hw).1
      have hif' : (s.core.io w).fd = (i : ℤ) := hif
      have hiw' : s.core.watchers[i]? = some (.watcher w) := hiw
      rw [show pe.fd.toNat = i by omega, hiw'] at hc
      cases hc
    exact hwithout.goOn (b := b) hpc rfl hskip
  | unwanted w h0 hlt hc hm => exact h.goOn hpc (map_key_set hi _) hskip
  | signal w h0 hlt hc hm hs | call w h0 hlt hc hm hs => exact h.goOn hpc (map_key_set hi _) (hevent _ rfl)

theorem Inv.finish (h : Inv s) {pc : Pc} (hpc : s.pc = .batch b)
    (hend : pc = .idle ∨ pc = .polled ∧ b.haveSignals = false ∧ b.nevents = 0) : Inv (s.finishBatch pc) := by
  obtain ⟨kernel, ha, hr⟩ := h.agrees
  have hout : ∀ b', pc ≠ .batch b' := by
    intro b' hb
    rcases hend with hi | ⟨hp, -⟩
    · rw [hi] at hb
      cases hb
    · rw [hp] at hb
      cases hb
  refine ⟨⟨kernel, ha, hr.purge h.distinct⟩, h.distinct.del (-1), ⟨fun hf => ?_, fun hb => ?_⟩, ?_, ?_, ?_⟩
  · cases hf
  · obtain ⟨b', hb⟩ := hb
    exact absurd hb (hout b')
  · intro _ p hp
    exact ((mem_del h.distinct).mp hp).2
  · intro hp
    rcases hend with hi | ⟨-, -, hn⟩
    · rw [show pc = .polled from hp] at hi
      cases hi
    · exact (h.calm b hpc).queue hn
  · intro b' hb
    exact absurd hb (hout b')

theorem Inv.step {l : Label W} (h : Inv s) (hs : Step sig s l t) : Inv t := by
  cases hs with
  | init hc hl hfd hd => exact h.init hc hl hd
  | start hc hl ht => exact h.start hc hl ht
  | stop hc hl ht => exact h.stop hc hl ht
  | close hc hl hs ht => exact h.close hc hl ht
  | poll hpc ht =>
    obtain ⟨u, hu, hi, -⟩ := h.pollHead hpc
    rw [hu] at ht
    cases ht
    exact hi
  | wait hpc hk => exact h.wait hpc hk
  | take hpc hi ht => exact h.take hpc hi ht
  | @deliverSignal b hpc hi hs hn =>
    have hn := (h.calm b hpc).signals hs
    exact h.goOn hpc rfl ⟨fun _ => hn, fun _ => hn, fun h0 => absurd h0 hn⟩
  | finish hpc hi hs hend => exact h.finish hpc hend
  | ret hpc =>
    refine ⟨h.agrees, h.distinct, ?_, h.valid, ?_, ?_⟩
    · rw [h.iterating, hpc]
      constructor
      · intro hb
        obtain ⟨b, hb⟩ := hb
        cases hb
      · intro hb
        obtain ⟨b, hb⟩ := hb
        cases hb
    · intro hp
      cases hp
    · intro b hb
      cases hb

theorem inv_run (sig : Option W) : (system sig).Inductive Inv where
  init := by
    intro s h
    obtain ⟨hcore, hfds, hit, hpc⟩ := h
    have hk : ∀ fd, s.core.kernel fd = none := hcore.2.2.2.2.2.2.1
    refine ⟨⟨s.core.kernel, (IoWatcher.agrees_run sig).init s.core hcore, fun fd ev => ?_⟩, fun fd _ => ?_, ?_, ?_, ?_, ?_⟩
    · rw [hk, hfds]
      constructor
      · intro hn
        cases hn
      · intro hm
        cases hm.2
    · rw [hfds]
      exact Nat.zero_le 1
    · rw [hit, hpc]
      constructor
      · intro hf
        cases hf
      · intro hb
        obtain ⟨b, hb⟩ := hb
        cases hb
    · intro _ p hp
      rw [hfds] at hp
      cases hp
    · intro hp
      rw [hpc] at hp
      cases hp
    · intro b hb
      rw [hpc] at hb
      cases hb
  step _ _ _ h hs := h.step hs

structure AtPoll (s : Loop W) : Prop where
  once : (s.pollFds.map PollFd.fd).Nodup
  valid : ∀ p ∈ s.pollFds, p.fd ≠ -1
  watched : ∀ w, (s.core.io w).pevents ≠ 0 → ∃ p ∈ s.pollFds, p.fd = (s.core.io w).fd ∧ p.events = (s.core.io w).pevents
  others : ∀ p ∈ s.pollFds, s.core.watchers[p.fd.toNat]? = some .null ∨
    ∃ w, s.core.watchers[p.fd.toNat]? = some (.watcher w) ∧ p.fd = (s.core.io w).fd ∧ p.events = (s.core.io w).pevents

theorem Inv.at_poll (h : Inv s) (hpc : s.pc = .polled) : AtPoll s := by
  obtain ⟨kernel, ha, hr⟩ := h.agrees
  have hit : s.iterating = false := by
    cases hi : s.iterating with
    | false => rfl
    | true =>
      obtain ⟨b, hb⟩ := h.iterating.mp hi
      rw [hpc] at hb
      cases hb
  have hvalid := h.valid hit
  -- nobody is queued, so everybody has told the kernel
  have htold : ∀ w, (s.core.io w).pevents ≠ 0 → kernel (s.core.io w).fd = some (s.core.io w).pevents := by
    intro w hw
    have he : (s.core.io w).events = (s.core.io w).pevents := by
      by_contra hne
      have hq : w ∈ s.core.watcherQueue := ha.dirty w hw hne
      rw [h.quiet hpc] at hq
      cases hq
    have hw' : ((s.core.under s.core.live kernel).io w).events ≠ 0 := by
      rw [← he] at hw
      exact hw
    have hk : kernel (s.core.io w).fd = some (s.core.io w).events := (ha.clean w hw').2
    rw [hk, he]
  refine ⟨nodup_iff_count_le_one.mpr fun fd => ?_, hvalid, fun w hw => ?_, fun p hp => ?_⟩
  · by_cases hfd : fd = -1
    · rw [hfd, List.count_eq_zero.mpr]
      · exact Nat.zero_le 1
      · intro hm
        obtain ⟨p, hp, hpf⟩ := mem_map.mp hm
        exact hvalid p hp hpf
    · exact h.distinct fd hfd
  · obtain ⟨p, hp, hkey⟩ := mem_map.mp ((hr _ _).mp (htold w hw)).2
    exact ⟨p, hp, (Prod.mk.inj hkey).1, (Prod.mk.inj hkey).2⟩
  · have hk : kernel p.fd = some p.events := (hr _ _).mpr ⟨hvalid p hp, mem_map_of_mem hp⟩
    have hsome : (kernel p.fd).isSome = true := by
      rw [hk]
      rfl
    obtain ⟨i, hi, hfd⟩ := ha.known p.fd hsome
    have hcell := ha.shaped.cells i hi
    rw [hfd]
    rcases hcell with hnull | ⟨w, hw⟩
    · exact .inl hnull
    · obtain ⟨hp0, hwfd⟩ := ha.owner i w hi hw
      have hwfd' : (s.core.io w).fd = (i : ℤ) := hwfd
      have hsame := htold w hp0
      rw [hwfd', ← hfd, hk] at hsame
      exact .inr ⟨w, hw, hwfd'.symm, Option.some.inj hsame⟩

end

end Libuv.L2.PosixPoll
