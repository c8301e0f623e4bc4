import Libuv.Core.LTS
import Mathlib.Tactic

/-!
# The epoll emulation on z/OS (`unix/os390-syscalls.c`)

An epoll instance is an array for `poll()`, with the entry of descriptor `fd` at index `fd` and -1 for the descriptors that are
not registered. The last entry is the instance's message queue; it moves when the array grows. `epoll_file_close` goes over
all instances, as `close` does in the kernel that is emulated.

What `poll()` finds is the environment's: for every entry the events that are ready, of which an entry gets those it asks
for and the errors. What it returns counts an entry once for each of `POLLIN` and `POLLOUT`, or at least once (`Counts`).
An entry that `realloc` has added has no contents; only its `fd` is read. Descriptors are below `INT_MAX`, and memory
can be had. `uv__os390_epoll` is freed by `epoll_queue_close` here.

* `Inv`: entries at their indices, the message queue at the end. `table`: the map that an instance stands for.
* `Spec`: what the operations of an epoll set do to it, and return.
* `Proper`: the operations that keep off the last index and wait for enough events. `epoll_refines`: runs of these.
* `Slots.del_last`, `Slots.fileClose_last`, `Step.starves`: the operations that are not. `queue_lost`: a run.
-/
namespace Libuv.L2.ZosEpoll

open List Option

/-- `POLLIN`, `POLLOUT`, and whether there is any other bit. -/
structure Mask where
  pollin : Bool
  pollout : Bool
  other : Bool
  deriving DecidableEq

def Mask.zero : Mask := ⟨false, false, false⟩

/-- What `poll()` reports to who asks for `events`. -/
def Mask.ready (events answer : Mask) : Mask :=
  ⟨events.pollin && answer.pollin, events.pollout && answer.pollout, answer.other⟩

/-- What the scan adds to `reventcount`. mirrors unix/os390-syscalls.c:332-335 -/
def Mask.count (m : Mask) : ℕ := if m.pollin && m.pollout then 2 else if m.pollin || m.pollout then 1 else 0

structure PollFd where
  fd : ℤ
  events : Mask
  revents : Mask
  deriving DecidableEq

def PollFd.unused : PollFd := ⟨-1, .zero, .zero⟩

structure Event where
  fd : ℤ
  events : Mask
  isMsg : Bool
  deriving DecidableEq

/-- `uv__os390_epoll` -/
structure Epoll where
  items : List PollFd
  msgQueue : ℕ
  deriving DecidableEq

inductive Errno
  | EEXIST
  | ENOENT
  | EINVAL
  deriving DecidableEq

/-- The three operations of `epoll_ctl`. -/
inductive Ctl
  | add (fd : ℕ) (events : Mask)
  | mod (fd : ℕ) (events : Mask)
  | del (fd : ℕ)
  deriving DecidableEq

/-- mirrors unix/os390-syscalls.c:94-103 -/
def nextPowerOfTwo (val : ℕ) : ℕ :=
  let val := (val + (2 ^ 32 - 1)) % 2 ^ 32
  let val := val ||| (val >>> 1)
  let val := val ||| (val >>> 2)
  let val := val ||| (val >>> 4)
  let val := val ||| (val >>> 8)
  let val := val ||| (val >>> 16)
  (val + 1) % 2 ^ 32

namespace Epoll
variable (e : Epoll)

def size : ℕ := e.items.length

/-- mirrors unix/os390-syscalls.c:106-136 -/
def maybeResize (len : ℕ) : Epoll :=
  if len ≤ e.size then e
  else
    let event := e.items.getLastD .unused
    let items := e.items.set (e.size - 1) { event with fd := -1 }
    let newsize := nextPowerOfTwo len
    let items := items ++ List.replicate (newsize - e.size) .unused
    { e with items := items.set (newsize - 1) event }

/-- mirrors unix/os390-syscalls.c:213-246 -/
def ctl : Ctl → Except Errno Unit × Epoll
  | .del fd =>
    match e.items[fd]? with
    | none => (.error .ENOENT, e)
    | some p =>
      if p.fd = -1 then (.error .ENOENT, e) else (.ok (), { e with items := e.items.set fd { p with fd := -1 } })
  | .add fd events =>
    let e := e.maybeResize (fd + 2)
    match e.items[fd]? with
    | none => (.ok (), e)
    | some p =>
      if p.fd ≠ -1 then (.error .EEXIST, e) else (.ok (), { e with items := e.items.set fd ⟨fd, events, .zero⟩ })
  | .mod fd events =>
    if e.size - 1 ≤ fd then (.error .ENOENT, e)
    else
      match e.items[fd]? with
      | none => (.error .ENOENT, e)
      | some p =>
        if p.fd = -1 then (.error .ENOENT, e)
        else (.ok (), { e with items := e.items.set fd { p with events := events, revents := .zero } })

/-- The part of `epoll_file_close` about one instance. mirrors unix/os390-syscalls.c:361-362 -/
def fileClose (fd : ℕ) : Epoll :=
  match e.items[fd]? with
  | none => e
  | some p => if p.fd = -1 then e else { e with items := e.items.set fd { p with fd := -1 } }

end Epoll

/-- mirrors unix/os390-syscalls.c:192-210 -/
def epollCreate1 (queue : ℕ) : Epoll :=
  let e := Epoll.maybeResize ⟨[], queue⟩ 1
  { e with items := e.items.set (e.size - 1) ⟨queue, ⟨true, false, false⟩, .zero⟩ }

/-- `poll()` on one entry. -/
def PollFd.poll (p : PollFd) (answer : Mask) : PollFd :=
  { p with revents := if p.fd = -1 then .zero else p.events.ready answer }

/-- `poll()` on the entries from index `i` on. -/
def pollFrom (answer : ℕ → Mask) : ℕ → List PollFd → List PollFd
  | _, [] => []
  | i, p :: ps => p.poll (answer i) :: pollFrom answer (i + 1) ps

/-- The scan at index `i`: the events, the entries, and where it stops.
mirrors unix/os390-syscalls.c:318-340 -/
def scan (maxevents pollret : ℕ) : ℕ → ℕ → List PollFd → List Event × List PollFd × ℕ
  | i, _, [] => ([], [], i)
  | i, reventcount, p :: ps =>
    if i < maxevents ∧ reventcount < pollret then
      if p.fd = -1 ∨ p.revents = .zero then
        let r := scan maxevents pollret (i + 1) reventcount ps
        (r.1, p :: r.2.1, r.2.2)
      else
        let r := scan maxevents pollret (i + 1) (reventcount + p.revents.count) ps
        (⟨p.fd, p.revents, false⟩ :: r.1, { p with revents := .zero } :: r.2.1, r.2.2)
    else ([], p :: ps, i)

/-- `events[nevents - 1].is_msg = 1` -/
def markLast : List Event → List Event
  | [] => []
  | [ev] => [{ ev with isMsg := true }]
  | ev :: ev' :: evs => ev :: markLast (ev' :: evs)

/-- `EP_MAX_EVENTS`; a `struct epoll_event` is three `int`s. -/
def epMaxEvents : ℕ := (2 ^ 31 - 1) / 12

/-- mirrors unix/os390-syscalls.c:282-347 -/
def Epoll.wait (e : Epoll) (maxevents : ℕ) (answer : ℕ → Mask) (pollret : ℕ) : Except Errno (List Event) × Epoll :=
  if maxevents = 0 ∨ epMaxEvents < maxevents then (.error .EINVAL, e)
  else
    let pfds := pollFrom answer 0 e.items
    if pollret = 0 then (.ok [], { e with items := pfds })
    else
      let msg := pfds.getLastD .unused
      let r := scan maxevents pollret 0 0 pfds
      (.ok (if msg.revents ≠ .zero ∧ msg.fd ≠ -1 ∧ r.2.2 = e.size then markLast r.1 else r.1), { e with items := r.2.1 })

/-! ## The table of an instance -/

abbrev Table := ℕ → Option Mask

def Table.put (t : Table) (fd : ℕ) (o : Option Mask) : Table := fun x => if x = fd then o else t x

def lookup (ps : List PollFd) : Table := fun fd => ps[fd]?.bind fun p => if p.fd = -1 then none else some p.events

def Epoll.table (e : Epoll) : Table := lookup e.items.dropLast

/-- `ps` and then the message queue; an entry is for its index or not used. -/
structure Slots (e : Epoll) (ps : List PollFd) (m : PollFd) : Prop where
  items : e.items = ps ++ [m]
  queue : m.fd = e.msgQueue
  pollin : m.events = ⟨true, false, false⟩
  own : ∀ (i : ℕ) (p : PollFd), ps[i]? = some p → p.fd = -1 ∨ p.fd = (i : ℤ)

def Inv (e : Epoll) : Prop := ∃ ps m, Slots e ps m

/-- What the scan reports of an entry that it reaches. -/
def PollFd.reported (p : PollFd) : Option Event :=
  if p.fd = -1 ∨ p.revents = .zero then none else some ⟨p.fd, p.revents, false⟩

/-- What an entry counts for in the number that `poll()` returns. -/
def PollFd.weight (p : PollFd) : ℕ := if p.fd = -1 ∨ p.revents = .zero then 0 else max 1 p.revents.count

def weights : List PollFd → ℕ
  | [] => 0
  | p :: ps => p.weight + weights ps

/-- `poll()` returns this for the entries of `e`. -/
def Counts (e : Epoll) (answer : ℕ → Mask) (pollret : ℕ) : Prop := weights (pollFrom answer 0 e.items) ≤ pollret

section
variable {e : Epoll} {ps : List PollFd} {m : PollFd}

theorem Slots.table (h : Slots e ps m) : e.table = lookup ps := by
  rw [Epoll.table, h.items, dropLast_concat]

theorem Slots.size (h : Slots e ps m) : e.size = ps.length + 1 := by
  rw [Epoll.size, h.items, length_append, length_singleton]

theorem lookup_eq {fd : ℕ} {p : PollFd} (hp : ps[fd]? = some p) :
    lookup ps fd = if p.fd = -1 then none else some p.events := by
  rw [lookup, hp, bind_some]

theorem lookup_of_le {fd : ℕ} (h : ps.length ≤ fd) : lookup ps fd = none := by
  rw [lookup, getElem?_eq_none h, bind_none]

theorem lookup_set {fd : ℕ} (hlt : fd < ps.length) (p : PollFd) :
    lookup (ps.set fd p) = Table.put (lookup ps) fd (if p.fd = -1 then none else some p.events) := by
  funext x
  rw [Table.put, lookup, getElem?_set]
  by_cases hx : fd = x
  · subst hx
    rw [if_pos rfl, if_pos hlt, if_pos rfl, bind_some]
  · rw [if_neg hx, if_neg (Ne.symm hx), lookup]

theorem Slots.set (h : Slots e ps m) {fd : ℕ} {p : PollFd} (hlt : fd < ps.length) (hp : p.fd = -1 ∨ p.fd = (fd : ℤ)) :
    Slots { e with items := e.items.set fd p } (ps.set fd p) m where
  items := by
    rw [h.items, set_append_left _ _ hlt]
  queue := h.queue
  pollin := h.pollin
  own := by
    intro i q hq
    rw [getElem?_set] at hq
    split_ifs at hq with hi
    · cases hq
      rw [← hi]
      exact hp
    · exact h.own i q hq

/-! ## Room for one more -/

theorem le_smear {x : ℕ} (k : ℕ) (h : x < 2 ^ 31) : x ≤ x ||| (x >>> k) ∧ x ||| (x >>> k) < 2 ^ 31 :=
  ⟨Nat.left_le_or, Nat.or_lt_two_pow h (Nat.lt_of_le_of_lt (Nat.shiftRight_le x k) h)⟩

theorem le_nextPowerOfTwo {val : ℕ} (h0 : 0 < val) (h : val ≤ 2 ^ 31) : val ≤ nextPowerOfTwo val := by
  have hsub : (val + (2 ^ 32 - 1)) % 2 ^ 32 = val - 1 := by omega
  obtain ⟨h1, hb⟩ := le_smear 1 (x := val - 1) (by omega)
  obtain ⟨h2, hb⟩ := le_smear 2 hb
  obtain ⟨h3, hb⟩ := le_smear 4 hb
  obtain ⟨h4, hb⟩ := le_smear 8 hb
  obtain ⟨h5, hb⟩ := le_smear 16 hb
  rw [nextPowerOfTwo, hsub]
  omega

theorem lookup_append (qs : List PollFd) (hqs : ∀ q ∈ qs, q.fd = -1) : lookup (ps ++ qs) = lookup ps := by
  funext x
  by_cases hx : x < ps.length
  · rw [lookup, getElem?_append_left hx, lookup]
  · have hx : ps.length ≤ x := by omega
    rw [lookup_of_le hx, lookup, getElem?_append_right hx]
    cases hq : qs[x - ps.length]? with
    | none => rfl
    | some q => rw [bind_some, if_pos (hqs q (mem_of_getElem? hq))]

theorem Slots.maybeResize (h : Slots e ps m) {len : ℕ} (hlen : len ≤ 2 ^ 31) :
    ∃ ps', Slots (e.maybeResize len) ps' m ∧ len ≤ ps'.length + 1 ∧ lookup ps' = lookup ps ∧
      (e.maybeResize len).msgQueue = e.msgQueue := by
  have hsize := h.size
  rw [Epoll.maybeResize]
  split_ifs with hle
  · exact ⟨ps, h, by omega, rfl, rfl⟩
  · have hn := le_nextPowerOfTwo (show 0 < len by omega) hlen
    obtain ⟨k, hk⟩ : ∃ k, nextPowerOfTwo len - e.size = k + 1 := ⟨nextPowerOfTwo len - e.size - 1, by omega⟩
    have hold : e.items.set (e.size - 1) { m with fd := -1 } = ps ++ [{ m with fd := -1 }] := by
      rw [h.items, hsize, Nat.add_sub_cancel, set_append_right _ _ le_rfl, Nat.sub_self, set_cons_zero]
    have hlast : e.items.getLastD .unused = m := by rw [h.items, getLastD_concat]
    have hgaps : ∀ q ∈ ({ m with fd := -1 } : PollFd) :: List.replicate k .unused, q.fd = -1 := by
      intro q hq
      rcases mem_cons.mp hq with rfl | hq
      · rfl
      · rw [eq_of_mem_replicate hq]
        rfl
    refine ⟨ps ++ ({ m with fd := -1 } :: List.replicate k .unused), ⟨?_, h.queue, h.pollin, fun i p hp => ?_⟩, ?_,
      lookup_append _ hgaps, rfl⟩
    · dsimp only
      rw [hlast, hold, hk, replicate_succ', ← append_assoc, set_append_right _ _ ?_]
      · rw [length_append, length_append, length_singleton, length_replicate,
          show nextPowerOfTwo len - 1 - (ps.length + 1 + k) = 0 by omega, set_cons_zero, append_assoc ps]
        rfl
      · rw [length_append, length_append, length_singleton, length_replicate]
        omega
    · by_cases hi : i < ps.length
      · rw [getElem?_append_left hi] at hp
        exact h.own i p hp
      · rw [getElem?_append_right (by omega)] at hp
        exact .inl (hgaps p (mem_of_getElem? hp))
    · rw [length_append, length_cons, length_replicate]
      omega

end

/-! ## The operations of an epoll set -/

/-- `epoll_ctl` on a set of descriptors. -/
def Ctl.spec (t : Table) : Ctl → Except Errno Unit × Table
  | .add fd events => if t fd = none then (.ok (), t.put fd (some events)) else (.error .EEXIST, t)
  | .mod fd events => if t fd = none then (.error .ENOENT, t) else (.ok (), t.put fd (some events))
  | .del fd => if t fd = none then (.error .ENOENT, t) else (.ok (), t.put fd none)

/-- What keeps off the message queue; a descriptor is below `INT_MAX`. -/
def Ctl.Proper (size : ℕ) : Ctl → Prop
  | .add fd _ => fd + 2 ≤ 2 ^ 31
  | .mod _ _ => True
  | .del fd => fd + 1 ≠ size

section
variable {e : Epoll} {ps : List PollFd} {m : PollFd} {fd : ℕ}

theorem Table.put_none {t : Table} (h : t fd = none) : t.put fd none = t := by
  funext x
  rw [Table.put]
  split_ifs with hx
  · rw [hx, h]
  · rfl

theorem Slots.get (h : Slots e ps m) (hlt : fd < ps.length) :
    ∃ p, e.items[fd]? = some p ∧ (p.fd = -1 ∨ p.fd = (fd : ℤ)) ∧
      lookup ps fd = if p.fd = -1 then none else some p.events := by
  have hp : ps[fd]? = some ps[fd] := getElem?_eq_getElem hlt
  refine ⟨ps[fd], ?_, h.own fd _ hp, lookup_eq hp⟩
  rw [h.items, getElem?_append_left hlt, hp]

theorem Slots.get_none (h : Slots e ps m) (hlt : ps.length < fd) : e.items[fd]? = none := by
  refine getElem?_eq_none ?_
  have := h.size
  rw [Epoll.size] at this
  omega

theorem Slots.add (h : Slots e ps m) (hlt : fd < ps.length) (events : Mask) :
    Slots { e with items := e.items.set fd ⟨fd, events, .zero⟩ } (ps.set fd ⟨fd, events, .zero⟩) m ∧
      lookup (ps.set fd ⟨fd, events, .zero⟩) = Table.put (lookup ps) fd (some events) := by
  refine ⟨h.set hlt (.inr rfl), ?_⟩
  rw [lookup_set hlt, if_neg (show (fd : ℤ) ≠ -1 by omega)]

theorem Slots.clear (h : Slots e ps m) (hlt : fd < ps.length) (p : PollFd) :
    Slots { e with items := e.items.set fd { p with fd := -1 } } (ps.set fd { p with fd := -1 }) m ∧
      lookup (ps.set fd { p with fd := -1 }) = Table.put (lookup ps) fd none := by
  refine ⟨h.set hlt (.inl rfl), ?_⟩
  rw [lookup_set hlt, if_pos rfl]

theorem Slots.ctl (h : Slots e ps m) {c : Ctl} (hc : c.Proper e.size) :
    ∃ ps', Slots (e.ctl c).2 ps' m ∧ c.spec (lookup ps) = ((e.ctl c).1, lookup ps') := by
  have hsize := h.size
  cases c with
  | add fd events =>
    obtain ⟨ps', h', hlen, hl, -⟩ := h.maybeResize hc
    have hlt : fd < ps'.length := by omega
    obtain ⟨p, hp, -, hfd⟩ := h'.get hlt
    rw [← hl, Ctl.spec, Epoll.ctl, hfd]
    simp only [hp]
    by_cases hu : p.fd = -1
    · rw [if_pos hu, if_pos rfl, if_neg (not_not.mpr hu)]
      obtain ⟨hs, hl'⟩ := h'.add hlt events
      exact ⟨_, hs, by rw [hl']⟩
    · rw [if_neg hu, if_pos hu]
      exact ⟨ps', h', rfl⟩
  | mod fd events =>
    rw [Ctl.spec, Epoll.ctl]
    by_cases hlt : fd < ps.length
    · obtain ⟨p, hp, hown, hfd⟩ := h.get hlt
      rw [if_neg (show ¬e.size - 1 ≤ fd by omega), hp]
      dsimp only
      by_cases hu : p.fd = -1
      · rw [if_pos hu] at hfd
        rw [hfd, if_pos hu]
        exact ⟨ps, h, rfl⟩
      · rw [if_neg hu] at hfd
        rw [hfd, if_neg (some_ne_none _), if_neg hu]
        refine ⟨_, h.set hlt (p := { p with events := events, revents := .zero }) hown, ?_⟩
        rw [lookup_set hlt, if_neg hu]
    · rw [if_pos (show e.size - 1 ≤ fd by omega), lookup_of_le (by omega)]
      exact ⟨ps, h, rfl⟩
  | del fd =>
    rw [Ctl.spec, Epoll.ctl]
    by_cases hlt : fd < ps.length
    · obtain ⟨p, hp, -, hfd⟩ := h.get hlt
      rw [hp]
      dsimp only
      by_cases hu : p.fd = -1
      · rw [if_pos hu] at hfd
        rw [hfd, if_pos hu]
        exact ⟨ps, h, rfl⟩
      · rw [if_neg hu] at hfd
        rw [hfd, if_neg (some_ne_none _), if_neg hu]
        obtain ⟨hs, hl'⟩ := h.clear hlt p
        exact ⟨_, hs, by rw [hl']⟩
    · have hne : fd + 1 ≠ e.size := hc
      rw [h.get_none (by omega), lookup_of_le (by omega)]
      exact ⟨ps, h, rfl⟩

theorem Slots.fileClose (h : Slots e ps m) (hne : fd + 1 ≠ e.size) :
    ∃ ps', Slots (e.fileClose fd) ps' m ∧ lookup ps' = Table.put (lookup ps) fd none := by
  have hsize := h.size
  rw [Epoll.fileClose]
  by_cases hlt : fd < ps.length
  · obtain ⟨p, hp, -, hfd⟩ := h.get hlt
    rw [hp]
    dsimp only
    by_cases hu : p.fd = -1
    · rw [if_pos hu] at hfd ⊢
      exact ⟨ps, h, (Table.put_none hfd).symm⟩
    · rw [if_neg hu]
      exact ⟨_, h.clear hlt p⟩
  · rw [h.get_none (by omega)]
    exact ⟨ps, h, (Table.put_none (lookup_of_le (by omega))).symm⟩

theorem slots_create (queue : ℕ) : Slots (epollCreate1 queue) [] ⟨queue, ⟨true, false, false⟩, .zero⟩ where
  items := rfl
  queue := rfl
  pollin := rfl
  own := by
    intro i p hp
    cases hp

/-! ## What a wait reports -/

theorem getElem?_pollFrom (answer : ℕ → Mask) (i k : ℕ) :
    (pollFrom answer i ps)[k]? = ps[k]?.map fun p => p.poll (answer (i + k)) := by
  induction ps generalizing i k with
  | nil => rfl
  | cons p ps ih =>
    cases k with
    | zero => rfl
    | succ k =>
      rw [pollFrom, getElem?_cons_succ, ih, getElem?_cons_succ]
      congr 2
      funext q
      rw [Nat.add_right_comm, Nat.add_assoc]

theorem pollFrom_append (answer : ℕ → Mask) (i : ℕ) (qs : List PollFd) :
    pollFrom answer i (ps ++ qs) = pollFrom answer i ps ++ pollFrom answer (i + ps.length) qs := by
  induction ps generalizing i with
  | nil => rfl
  | cons p ps ih =>
    rw [cons_append, pollFrom, pollFrom, ih, length_cons, Nat.add_right_comm, Nat.add_assoc, cons_append]

theorem length_pollFrom (ps : List PollFd) (answer : ℕ → Mask) (i : ℕ) : (pollFrom answer i ps).length = ps.length := by
  induction ps generalizing i with
  | nil => rfl
  | cons p ps ih => rw [pollFrom, length_cons, ih, length_cons]

/-- Neither `poll()` nor the scan changes what an entry is for. -/
def SameKeys (ps ps' : List PollFd) : Prop :=
  ps'.map (fun p => (p.fd, p.events)) = ps.map fun p => (p.fd, p.events)

theorem sameKeys_pollFrom (answer : ℕ → Mask) (i : ℕ) : SameKeys ps (pollFrom answer i ps) := by
  rw [SameKeys]
  induction ps generalizing i with
  | nil => rfl
  | cons p ps ih =>
    rw [pollFrom, map_cons, ih]
    rfl

theorem sameKeys_scan (maxevents pollret i rc : ℕ) : SameKeys ps (scan maxevents pollret i rc ps).2.1 := by
  induction ps generalizing i rc with
  | nil => rfl
  | cons p ps ih =>
    rw [scan]
    split_ifs
    · exact congrArg (List.cons _) (ih (i + 1) rc)
    · exact congrArg (List.cons _) (ih (i + 1) (rc + p.revents.count))
    · rfl

theorem SameKeys.trans {qs rs : List PollFd} (h : SameKeys ps qs) (h' : SameKeys qs rs) : SameKeys ps rs := by
  rw [SameKeys, h', h]

theorem SameKeys.slots {e' : Epoll} (h : Slots e ps m) (hk : SameKeys e.items e'.items)
    (hq : e'.msgQueue = e.msgQueue) : ∃ ps' m', Slots e' ps' m' ∧ lookup ps' = lookup ps ∧ m'.fd = m.fd := by
  rw [SameKeys, h.items, map_append] at hk
  obtain ⟨ps', l, hitems, hps, hl⟩ := map_eq_append_iff.mp hk
  obtain ⟨m', rfl, hm⟩ := map_eq_singleton_iff.mp hl
  obtain ⟨hfd, hev⟩ := Prod.mk.inj hm
  have hkey : ∀ i : ℕ, (ps'[i]?.map fun p => (p.fd, p.events)) = ps[i]?.map fun p => (p.fd, p.events) := by
    intro i
    rw [← getElem?_map, hps, getElem?_map]
  refine ⟨ps', m', ⟨hitems, by rw [hfd, h.queue, hq], by rw [hev, h.pollin], fun i p hp => ?_⟩, ?_, hfd⟩
  · have hi := hkey i
    rw [hp] at hi
    obtain ⟨q, hq', hpq⟩ := map_eq_some_iff.mp hi.symm
    rw [← (Prod.mk.inj hpq).1]
    exact h.own i q hq'
  · funext fd
    have hi := hkey fd
    rw [lookup, lookup]
    cases hp : ps'[fd]? with
    | none =>
      rw [hp] at hi
      rw [map_eq_none_iff.mp hi.symm]
    | some p =>
      rw [hp] at hi
      obtain ⟨q, hq', hpq⟩ := map_eq_some_iff.mp hi.symm
      obtain ⟨h1, h2⟩ := Prod.mk.inj hpq
      rw [hq', bind_some, bind_some, h1, h2]

theorem weights_append (ps qs : List PollFd) : weights (ps ++ qs) = weights ps + weights qs := by
  induction ps with
  | nil => rw [nil_append, weights, Nat.zero_add]
  | cons p ps ih => rw [cons_append, weights, weights, ih, Nat.add_assoc]

theorem PollFd.count_le_weight {p : PollFd} (h : ¬(p.fd = -1 ∨ p.revents = .zero)) :
    0 < p.weight ∧ p.revents.count ≤ p.weight := by
  rw [PollFd.weight, if_neg h]
  omega

theorem reported_eq_nil (h : weights ps = 0) : ps.filterMap PollFd.reported = [] := by
  induction ps with
  | nil => rfl
  | cons p ps ih =>
    rw [weights] at h
    by_cases hu : p.fd = -1 ∨ p.revents = .zero
    · rw [filterMap_cons_none (by rw [PollFd.reported, if_pos hu]), ih (by omega)]
    · have := PollFd.count_le_weight hu
      omega

theorem weights_take_le (ps : List PollFd) (k : ℕ) : weights (ps.take k) ≤ weights ps := by
  have h := weights_append (ps.take k) (ps.drop k)
  rw [take_append_drop] at h
  omega

variable {maxevents pollret i rc : ℕ}

theorem scan_events (h : rc + weights ps ≤ pollret) :
    (scan maxevents pollret i rc ps).1 = (ps.take (maxevents - i)).filterMap PollFd.reported := by
  induction ps generalizing i rc with
  | nil => rw [take_nil]; rfl
  | cons p ps ih =>
    rw [weights] at h
    rw [scan]
    split_ifs with hgo hu
    · rw [show maxevents - i = maxevents - (i + 1) + 1 by omega, take_succ_cons,
        filterMap_cons_none (by rw [PollFd.reported, if_pos hu])]
      exact ih (by omega)
    · have := PollFd.count_le_weight hu
      rw [show maxevents - i = maxevents - (i + 1) + 1 by omega, take_succ_cons,
        filterMap_cons_some (by rw [PollFd.reported, if_neg hu])]
      dsimp only
      rw [ih (by omega)]
    · by_cases hi : i < maxevents
      · have hle := weights_take_le (p :: ps) (maxevents - i)
        rw [weights] at hle
        exact (reported_eq_nil (by omega)).symm
      · rw [Nat.sub_eq_zero_of_le (by omega)]
        rfl

theorem scan_stop (hi : i + ps.length < maxevents) (hm : 0 < m.weight)
    (h : rc + weights (ps ++ [m]) ≤ pollret) :
    (scan maxevents pollret i rc (ps ++ [m])).2.2 = i + ps.length + 1 := by
  induction ps generalizing i rc with
  | nil =>
    rw [nil_append, weights] at h
    rw [nil_append, scan, if_pos ⟨by omega, by omega⟩]
    split_ifs <;> rfl
  | cons p ps ih =>
    rw [cons_append, weights, weights_append, weights] at h
    rw [length_cons] at hi ⊢
    rw [cons_append, scan, if_pos ⟨by omega, by omega⟩]
    have hw := weights_append ps [m]
    rw [weights] at hw
    split_ifs with hu
    · rw [ih (by omega) (by omega)]
      omega
    · have := PollFd.count_le_weight hu
      rw [ih (by omega) (by omega)]
      omega

theorem scan_le (hi : i ≤ maxevents) : (scan maxevents pollret i rc ps).2.2 ≤ maxevents := by
  induction ps generalizing i rc with
  | nil => exact hi
  | cons p ps ih =>
    rw [scan]
    split_ifs with hgo hu
    · exact ih (by omega)
    · exact ih (by omega)
    · exact hi

theorem markLast_concat (evs : List Event) (ev : Event) :
    markLast (evs ++ [ev]) = evs ++ [{ ev with isMsg := true }] := by
  induction evs with
  | nil => rfl
  | cons a evs ih =>
    cases evs with
    | nil => rfl
    | cons b evs => exact congrArg (a :: ·) ih

theorem PollFd.reported_poll (p : PollFd) (answer : Mask) : (p.poll answer).reported =
    if p.fd = -1 ∨ p.events.ready answer = .zero then none else some ⟨p.fd, p.events.ready answer, false⟩ := by
  rw [PollFd.reported, PollFd.poll]
  by_cases hu : p.fd = -1
  · rw [if_pos (.inl hu), if_pos (.inl hu)]
  · simp [hu]

theorem Slots.mem_reported (h : Slots e ps m) {answer : ℕ → Mask} {k : ℕ} {ev : Event} :
    ev ∈ ((pollFrom answer 0 ps).take k).filterMap PollFd.reported ↔ ∃ (fd : ℕ) (events : Mask), fd < k ∧
      lookup ps fd = some events ∧ events.ready (answer fd) ≠ .zero ∧ ev = ⟨fd, events.ready (answer fd), false⟩ := by
  rw [mem_filterMap]
  constructor
  · intro hev
    obtain ⟨q, hq, hev⟩ := hev
    obtain ⟨i, hi⟩ := mem_iff_getElem?.mp hq
    rw [getElem?_take] at hi
    split_ifs at hi with hik
    rw [getElem?_pollFrom, Nat.zero_add] at hi
    obtain ⟨p, hp, rfl⟩ := map_eq_some_iff.mp hi
    rw [PollFd.reported_poll] at hev
    split_ifs at hev with hu
    obtain ⟨hfd, hev0⟩ := not_or.mp hu
    have hown := (h.own i p hp).resolve_left hfd
    refine ⟨i, p.events, hik, by rw [lookup_eq hp, if_neg hfd], hev0, ?_⟩
    rw [← hown]
    exact (some.inj hev).symm
  · intro hev
    obtain ⟨fd, events, hk, hl, hready, rfl⟩ := hev
    obtain ⟨p, hp, hl⟩ := bind_eq_some_iff.mp hl
    split_ifs at hl with hu
    cases hl
    refine ⟨p.poll (answer fd), mem_iff_getElem?.mpr ⟨fd, ?_⟩, ?_⟩
    · rw [getElem?_take, if_pos hk, getElem?_pollFrom, hp, Nat.zero_add, map_some]
    · rw [PollFd.reported_poll, if_neg (not_or.mpr ⟨hu, hready⟩), (h.own fd p hp).resolve_left hu]

theorem Slots.wait_keeps (h : Slots e ps m) (maxevents : ℕ) (answer : ℕ → Mask) (pollret : ℕ) :
    ∃ ps' m', Slots (e.wait maxevents answer pollret).2 ps' m' ∧ lookup ps' = lookup ps ∧ m'.fd = m.fd := by
  rw [Epoll.wait]
  split_ifs with hmax hret
  · exact ⟨ps, m, h, rfl, rfl⟩
  · exact (sameKeys_pollFrom answer 0).slots h rfl
  · exact ((sameKeys_pollFrom answer 0).trans (sameKeys_scan maxevents pollret 0 0)).slots h rfl

def msgEvents (m : PollFd) : List Event := m.reported.toList.map fun ev => { ev with isMsg := true }

theorem Slots.wait_events (h : Slots e ps m) {answer : ℕ → Mask} (hmax : ¬(maxevents = 0 ∨ epMaxEvents < maxevents))
    (hc : Counts e answer pollret) : (e.wait maxevents answer pollret).1 =
      .ok (((pollFrom answer 0 ps).take maxevents).filterMap PollFd.reported ++
        if ps.length < maxevents then msgEvents (m.poll (answer ps.length)) else []) := by
  have hpoll : pollFrom answer 0 e.items = pollFrom answer 0 ps ++ [m.poll (answer ps.length)] := by
    rw [h.items, pollFrom_append, Nat.zero_add]
    rfl
  have hlen := length_pollFrom ps answer 0
  rw [Counts, hpoll] at hc
  generalize pollFrom answer 0 ps = qs at hpoll hlen hc
  generalize m.poll (answer ps.length) = m' at hpoll hc
  have hw := weights_append qs [m']
  rw [weights] at hw
  have hlast : (qs ++ [m']).getLastD .unused = m' := getLastD_concat
  have hquiet : m'.fd = -1 ∨ m'.revents = .zero → m'.reported = none ∧ msgEvents m' = [] := by
    intro hu
    have hnone : m'.reported = none := by rw [PollFd.reported, if_pos hu]
    exact ⟨hnone, by rw [msgEvents, hnone]; rfl⟩
  rw [Epoll.wait, if_neg hmax, hpoll]
  by_cases hret : pollret = 0
  · have hm : m'.fd = -1 ∨ m'.revents = .zero := by
      by_contra hu
      have := PollFd.count_le_weight hu
      omega
    have hle := weights_take_le qs maxevents
    rw [if_pos hret, reported_eq_nil (by omega), (hquiet hm).2, ite_self, append_nil]
  · rw [if_neg hret]
    dsimp only
    rw [hlast, scan_events (by omega), Nat.sub_zero, h.size, ← hlen]
    by_cases hlt : qs.length < maxevents
    · rw [if_pos hlt, take_of_length_le (by rw [length_append, length_singleton]; omega),
        take_of_length_le (by omega), filterMap_append]
      by_cases hu : m'.fd = -1 ∨ m'.revents = .zero
      · rw [if_neg (fun hgo => hu.elim hgo.2.1 hgo.1), (hquiet hu).2, filterMap_cons_none (hquiet hu).1]
        rfl
      · obtain ⟨hfd, hrev⟩ := not_or.mp hu
        have hstop : (scan maxevents pollret 0 0 (qs ++ [m'])).2.2 = 0 + qs.length + 1 :=
          scan_stop (by omega) (PollFd.count_le_weight hu).1 (by omega)
        have hsome : m'.reported = some ⟨m'.fd, m'.revents, false⟩ := by rw [PollFd.reported, if_neg hu]
        rw [if_pos ⟨hrev, hfd, by rw [hstop, Nat.zero_add]⟩, filterMap_cons_some hsome, msgEvents, hsome]
        exact congrArg _ (markLast_concat _ _)
    · have hstop : (scan maxevents pollret 0 0 (qs ++ [m'])).2.2 ≤ maxevents := scan_le (Nat.zero_le maxevents)
      rw [if_neg hlt, if_neg (fun hgo => by have := hgo.2.2; omega), take_append_of_le_length (by omega), append_nil]

end

/-! ## Instances -/

/-- What `epoll_wait` of a set of descriptors reports: those that are ready, and possibly the message queue. -/
structure Reports (t : Table) (queue : ℕ) (answer : ℕ → Mask) (evs : List Event) : Prop where
  complete : ∀ (fd : ℕ) (events : Mask), t fd = some events → events.ready (answer fd) ≠ .zero →
    ⟨fd, events.ready (answer fd), false⟩ ∈ evs
  sound : ∀ ev ∈ evs, (ev.isMsg = true ∧ ev.fd = queue) ∨ ∃ (fd : ℕ) (events : Mask), t fd = some events ∧
    events.ready (answer fd) ≠ .zero ∧ ev = ⟨fd, events.ready (answer fd), false⟩

variable {m : PollFd} {e : Epoll} {ps : List PollFd} {id : ℕ} {s : State}

theorem msgEvents_of_mem {answer : Mask} {ev : Event} (h : ev ∈ msgEvents (m.poll answer)) :
    ev.isMsg = true ∧ ev.fd = m.fd := by
  rw [msgEvents, PollFd.reported_poll] at h
  obtain ⟨ev', hev', rfl⟩ := List.mem_map.mp h
  rw [mem_toList] at hev'
  split_ifs at hev' with hu
  cases hev'
  exact ⟨rfl, rfl⟩

theorem Slots.reports (h : Slots e ps m) {maxevents : ℕ}
    {answer : ℕ → Mask} {pollret : ℕ} (hmax : ¬(maxevents = 0 ∨ epMaxEvents < maxevents))
    (hc : Counts e answer pollret)
    (hall : ∀ (fd : ℕ) (events : Mask), lookup ps fd = some events → events.ready (answer fd) ≠ .zero → fd < maxevents) :
    ∃ evs, (e.wait maxevents answer pollret).1 = .ok evs ∧ Reports (lookup ps) e.msgQueue answer evs := by
  refine ⟨_, h.wait_events hmax hc, ⟨fun fd events hl hready => ?_, fun ev hev => ?_⟩⟩
  · exact mem_append_left _ (h.mem_reported.mpr ⟨fd, events, hall fd events hl hready, hl, hready, rfl⟩)
  · rcases mem_append.mp hev with hreg | hmsg
    · obtain ⟨fd, events, -, hl, hready, heq⟩ := h.mem_reported.mp hreg
      exact .inr ⟨fd, events, hl, hready, heq⟩
    · split_ifs at hmsg with hlt
      · rw [← h.queue]
        exact .inl (msgEvents_of_mem hmsg)
      · cases hmsg

abbrev State := ℕ → Option Epoll

/-- `s` with instance `id` replaced. -/
def install {α : Type} (s : ℕ → Option α) (id : ℕ) (o : Option α) : ℕ → Option α := fun x => if x = id then o else s x

inductive Op
  | create (id queue : ℕ)
  | ctl (id : ℕ) (c : Ctl)
  | fileClose (fd : ℕ)
  | wait (id maxevents : ℕ) (answer : ℕ → Mask) (pollret : ℕ)
  /-- `epoll_queue_close` -/
  | close (id : ℕ)

inductive Out
  | nothing
  | ctl (r : Except Errno Unit)
  | events (r : Except Errno (List Event))

/-- One call; instances are used between their creation and their end. -/
inductive Step : State → Op → Out → State → Prop
  | create {s : State} {id : ℕ} (queue : ℕ) : s id = none →
      Step s (.create id queue) .nothing (install s id (some (epollCreate1 queue)))
  | ctl {s : State} {id : ℕ} {e : Epoll} (c : Ctl) : s id = some e →
      Step s (.ctl id c) (.ctl (e.ctl c).1) (install s id (some (e.ctl c).2))
  | fileClose (s : State) (fd : ℕ) : Step s (.fileClose fd) .nothing fun id => (s id).map fun e => e.fileClose fd
  | wait {s : State} {id : ℕ} {e : Epoll} (maxevents : ℕ) (answer : ℕ → Mask) (pollret : ℕ) : s id = some e →
      Counts e answer pollret → Step s (.wait id maxevents answer pollret)
        (.events (e.wait maxevents answer pollret).1) (install s id (some (e.wait maxevents answer pollret).2))
  | close {s : State} {id : ℕ} {e : Epoll} : s id = some e → Step s (.close id) .nothing (install s id none)

def sys : LTS State (Op × Out) where
  init s := s = fun _ => none
  step s l s' := Step s l.1 l.2 s'

structure EpollSet where
  table : Table
  queue : ℕ

def Epoll.abs (e : Epoll) : EpollSet := ⟨e.table, e.msgQueue⟩

def abs (s : State) : ℕ → Option EpollSet := fun id => (s id).map Epoll.abs

def Spec (a : ℕ → Option EpollSet) (op : Op) (out : Out) (a' : ℕ → Option EpollSet) : Prop :=
  match op with
  | .create id queue => out = .nothing ∧ a' = install a id (some ⟨fun _ => none, queue⟩)
  | .ctl id c => ∃ i, a id = some i ∧ out = .ctl (c.spec i.table).1 ∧
      a' = install a id (some { i with table := (c.spec i.table).2 })
  | .fileClose fd => out = .nothing ∧ a' = fun id => (a id).map fun i => { i with table := i.table.put fd none }
  | .wait id maxevents answer _ => a' = a ∧ ∃ i, a id = some i ∧
      (maxevents ≠ 0 → ∃ evs, out = .events (.ok evs) ∧ Reports i.table i.queue answer evs)
  | .close id => out = .nothing ∧ a' = install a id none

/-- Nothing is removed at the last index, and what is ready at a wait is below `maxevents`, which is in bounds. -/
def Proper (s : State) : Op → Prop
  | .create _ _ => True
  | .ctl id c => ∀ e, s id = some e → c.Proper e.size
  | .fileClose fd => ∀ id e, s id = some e → fd + 1 ≠ e.size
  | .wait id maxevents answer _ => ∀ e, s id = some e → maxevents ≠ 0 → maxevents ≤ epMaxEvents ∧
      ∀ (fd : ℕ) (events : Mask), e.table fd = some events → events.ready (answer fd) ≠ .zero → fd < maxevents
  | .close _ => True

theorem abs_install (s : State) (id : ℕ) (o : Option Epoll) :
    abs (install s id o) = install (abs s) id (o.map Epoll.abs) := by
  funext x
  rw [abs, install, install]
  split_ifs <;> rfl

theorem install_self {α : Type} {s : ℕ → Option α} {o : Option α} (h : s id = o) : install s id o = s := by
  funext x
  rw [install]
  split_ifs with hx
  · rw [hx, h]
  · rfl

theorem Slots.abs {e' : Epoll} {ps' : List PollFd} {m' : PollFd} (h : Slots e ps m) (h' : Slots e' ps' m')
    (hm : m'.fd = m.fd) : e'.abs = { e.abs with table := lookup ps' } := by
  have hq := h'.queue
  rw [hm, h.queue] at hq
  rw [Epoll.abs, Epoll.abs, h'.table, Int.ofNat.inj hq]

def AllInv (s : State) : Prop := ∀ (id : ℕ) (e : Epoll), s id = some e → Inv e

theorem AllInv.install (h : AllInv s) {o : Option Epoll} (ho : ∀ e, o = some e → Inv e) :
    AllInv (install s id o) := by
  intro x e hx
  rw [ZosEpoll.install] at hx
  split_ifs at hx
  · exact ho e hx
  · exact h x e hx

theorem abs_some (h : Slots e ps m)
    (hs : s id = some e) : abs s id = some ⟨lookup ps, e.msgQueue⟩ := by
  rw [abs, hs, map_some, Epoll.abs, h.table]

theorem Step.refines {s' : State} {op : Op} {out : Out} (hi : AllInv s) (hp : Proper s op) (hs : Step s op out s') :
    AllInv s' ∧ Spec (abs s) op out (abs s') := by
  cases hs with
  | create queue hnone =>
    refine ⟨hi.install fun e he => ?_, rfl, ?_⟩
    · cases he
      exact ⟨_, _, slots_create queue⟩
    · rw [abs_install]
      rfl
  | @ctl id e c hs =>
    obtain ⟨ps, m, h⟩ := hi id e hs
    obtain ⟨ps', h', hspec⟩ := h.ctl (hp e hs)
    refine ⟨hi.install fun e' he' => ?_, ⟨lookup ps, e.msgQueue⟩, abs_some h hs, ?_, ?_⟩
    · cases he'
      exact ⟨_, _, h'⟩
    · rw [hspec]
    · rw [abs_install, map_some, h.abs h' rfl, hspec]
      rfl
  | fileClose fd =>
    refine ⟨fun id e' he' => ?_, rfl, ?_⟩
    · obtain ⟨e, hs, rfl⟩ := map_eq_some_iff.mp he'
      obtain ⟨ps, m, h⟩ := hi id e hs
      obtain ⟨ps', h', -⟩ := h.fileClose (hp id e hs)
      exact ⟨_, _, h'⟩
    · funext id
      rw [abs, abs]
      cases hs : s id with
      | none => rfl
      | some e =>
        obtain ⟨ps, m, h⟩ := hi id e hs
        obtain ⟨ps', h', hl⟩ := h.fileClose (hp id e hs)
        rw [map_some, map_some, map_some, map_some, h.abs h' rfl, hl, Epoll.abs, h.table]
  | @wait id e maxevents answer pollret hs hc =>
    obtain ⟨ps, m, h⟩ := hi id e hs
    obtain ⟨ps', m', h', hl, hm⟩ := h.wait_keeps maxevents answer pollret
    refine ⟨hi.install fun e' he' => ?_, ?_, ⟨lookup ps, e.msgQueue⟩, abs_some h hs, fun hmax => ?_⟩
    · cases he'
      exact ⟨_, _, h'⟩
    · rw [abs_install, map_some, h.abs h' hm, hl]
      exact install_self (by rw [abs_some h hs]; rfl)
    · obtain ⟨hle, hall⟩ := hp e hs hmax
      rw [h.table] at hall
      obtain ⟨evs, hout, hrep⟩ := h.reports (not_or.2 ⟨hmax, hle.not_gt⟩) hc hall
      exact ⟨evs, by rw [hout], hrep⟩
  | @close id e hs =>
    refine ⟨hi.install fun e' he' => ?_, rfl, abs_install s id none⟩
    cases he'

theorem reachable_step {s' : State} {op : Op} {out : Out}
    (hr : (sys.restrict fun s l => Proper s l.1).Reachable s) (hp : Proper s op) (hs : Step s op out s') :
    (sys.restrict fun s l => Proper s l.1).Reachable s' :=
  hr.step (l := (op, out)) ⟨hp, hs⟩

theorem epoll_inv (hr : (sys.restrict fun s l => Proper s l.1).Reachable s) : AllInv s := by
  have hinv : (sys.restrict fun s l => Proper s l.1).Inductive AllInv := by
    refine ⟨fun s h0 => ?_, fun s l s' hi hst => (Step.refines hi hst.1 hst.2).1⟩
    cases h0
    intro id e hs
    cases hs
  exact hinv.reachable hr

/-- In every run of `Proper` calls: the instances are well formed, with the message queue at the last index, and the calls
are those on epoll sets. -/
theorem epoll_refines {s : State} (hr : (sys.restrict fun s l => Proper s l.1).Reachable s) :
    AllInv s ∧ ∀ (op : Op) (out : Out) (s' : State), Proper s op → Step s op out s' → Spec (abs s) op out (abs s') := by
  have hi := epoll_inv hr
  exact ⟨hi, fun op out s' hp hs => (Step.refines hi hp hs).2⟩

/-- The instance after `EPOLL_CTL_ADD` of descriptor 2. -/
def added : Epoll := ((epollCreate1 9).ctl (.add 2 ⟨true, false, false⟩)).2

def addedState : State := install (install (fun _ => none) 0 (some (epollCreate1 9))) 0 (some added)

theorem addedState_reachable : (sys.restrict fun s l => Proper s l.1).Reachable addedState := by
  have hnew : Step (fun _ => none) (.create 0 9) .nothing (install (fun _ => none) 0 (some (epollCreate1 9))) :=
    Step.create 9 rfl
  have hadd : Step (install (fun _ => none) 0 (some (epollCreate1 9))) (.ctl 0 (.add 2 ⟨true, false, false⟩))
      (.ctl (.ok ())) addedState := Step.ctl (e := epollCreate1 9) (.add 2 ⟨true, false, false⟩) rfl
  have hfd : (Ctl.add 2 ⟨true, false, false⟩).Proper (epollCreate1 9).size := (by decide : 2 + 2 ≤ 2 ^ 31)
  have hp : Proper (install (fun _ => none) 0 (some (epollCreate1 9))) (.ctl 0 (.add 2 ⟨true, false, false⟩)) := by
    intro e he
    cases he
    exact hfd
  have h0 : (sys.restrict fun s l => Proper s l.1).Reachable fun _ => none := LTS.Reachable.init rfl
  have hc : Proper (fun _ => none) (.create 0 9) := True.intro
  exact reachable_step (reachable_step h0 hc hnew) hp hadd

theorem epoll_refines_added : AllInv addedState ∧ Spec (abs addedState) (.ctl 0 (.mod 2 ⟨false, true, false⟩))
    (.ctl (.ok ())) (abs (install addedState 0 (some (added.ctl (.mod 2 ⟨false, true, false⟩)).2))) := by
  obtain ⟨hi, hspec⟩ := epoll_refines addedState_reachable
  exact ⟨hi, hspec _ _ _ (fun _ _ => trivial) (Step.ctl (e := added) (.mod 2 ⟨false, true, false⟩) rfl)⟩

/-! ## What the other calls do -/

section
variable {e : Epoll} {ps : List PollFd} {m : PollFd}

theorem Slots.last (h : Slots e ps m) : e.items[ps.length]? = some m ∧ m.fd ≠ -1 := by
  have hq := h.queue
  refine ⟨?_, by omega⟩
  rw [h.items, getElem?_append_right le_rfl, Nat.sub_self]
  rfl

theorem Slots.not_inv (h : Slots e ps m) : ¬Inv { e with items := e.items.set ps.length { m with fd := -1 } } := by
  intro hi
  obtain ⟨ps', m', h'⟩ := hi
  have hitems := h'.items
  rw [h.items, set_append_right _ _ le_rfl, Nat.sub_self] at hitems
  have hm := (append_inj' hitems rfl).2
  have hq := h'.queue
  rw [← (List.cons.inj hm).1] at hq
  dsimp only at hq
  omega

theorem Slots.del_last (h : Slots e ps m) :
    (e.ctl (.del ps.length)).1 = .ok () ∧ ¬Inv (e.ctl (.del ps.length)).2 ∧
      ((Ctl.del ps.length).spec e.table).1 = .error .ENOENT := by
  obtain ⟨hm, hfd⟩ := h.last
  have hctl : e.ctl (.del ps.length) =
      (.ok (), { e with items := e.items.set ps.length { m with fd := -1 } }) := by
    rw [Epoll.ctl, hm]
    exact if_neg hfd
  rw [hctl, Ctl.spec, h.table, lookup_of_le le_rfl]
  exact ⟨rfl, h.not_inv, rfl⟩

theorem Slots.fileClose_last (h : Slots e ps m) : ¬Inv (e.fileClose ps.length) := by
  obtain ⟨hm, hfd⟩ := h.last
  rw [Epoll.fileClose, hm]
  dsimp only
  rw [if_neg hfd]
  exact h.not_inv

/-- No wait reports a descriptor from `maxevents` on. -/
theorem Slots.wait_below (h : Slots e ps m) {maxevents : ℕ} {answer : ℕ → Mask} {pollret : ℕ}
    (hc : Counts e answer pollret) {evs : List Event} (hw : (e.wait maxevents answer pollret).1 = .ok evs) {ev : Event}
    (hev : ev ∈ evs) : ev.isMsg = true ∨ ev.fd < maxevents := by
  by_cases hmax : maxevents = 0 ∨ epMaxEvents < maxevents
  · rw [Epoll.wait, if_pos hmax] at hw
    cases hw
  · rw [h.wait_events hmax hc] at hw
    cases hw
    rcases mem_append.mp hev with hreg | hmsg
    · obtain ⟨fd, events, hlt, -, -, rfl⟩ := h.mem_reported.mp hreg
      exact .inr (Int.ofNat_lt.mpr hlt)
    · split_ifs at hmsg
      · exact .inl (msgEvents_of_mem hmsg).1
      · cases hmsg

end

/-- A wait for at most `fd` events does not report descriptor `fd`, which is ready. -/
theorem Step.starves {s s' : State} {id fd maxevents : ℕ} {e : Epoll} {events : Mask} {answer : ℕ → Mask} {pollret : ℕ}
    {out : Out} (hi : AllInv s) (hs : s id = some e) (hfd : e.table fd = some events)
    (hready : events.ready (answer fd) ≠ .zero) (hmax : maxevents ≠ 0 ∧ maxevents ≤ epMaxEvents) (hle : maxevents ≤ fd)
    (hst : Step s (.wait id maxevents answer pollret) out s') :
    (∃ evs, out = .events (.ok evs) ∧ ∀ ev ∈ evs, ev.isMsg = true ∨ ev.fd ≠ fd) ∧
      ¬Spec (abs s) (.wait id maxevents answer pollret) out (abs s') := by
  obtain ⟨ps, m, h⟩ := hi id e hs
  cases hst with
  | wait _ _ _ hs' hc =>
    rw [hs] at hs'
    cases hs'
    have hbelow : ∀ evs, (e.wait maxevents answer pollret).1 = .ok evs → ∀ ev ∈ evs, ev.isMsg = true ∨ ev.fd ≠ fd := by
      intro evs hevs ev hev
      refine (h.wait_below hc hevs hev).imp_right fun hlt => ?_
      omega
    have hevs := h.wait_events (not_or.2 ⟨hmax.1, hmax.2.not_gt⟩) hc
    refine ⟨⟨_, congrArg _ hevs, hbelow _ hevs⟩, fun hspec => ?_⟩
    obtain ⟨-, i, habs, hwait⟩ := hspec
    obtain ⟨evs, hout, hrep⟩ := hwait hmax.1
    rw [abs_some h hs] at habs
    cases habs
    rw [h.table] at hfd
    rcases hbelow evs (Out.events.inj hout) _ (hrep.complete fd events hfd hready) with hmsg | hne
    · cases hmsg
    · exact hne rfl

/-- Descriptor 2 is ready, and there is room for one event. -/
theorem starves_one : ∃ out s', Step addedState (.wait 0 1 (fun i => ⟨i == 2, false, false⟩) 1) out s' ∧
    (∃ evs, out = .events (.ok evs) ∧ ∀ ev ∈ evs, ev.isMsg = true ∨ ev.fd ≠ 2) ∧
    ¬Spec (abs addedState) (.wait 0 1 (fun i => ⟨i == 2, false, false⟩) 1) out (abs s') := by
  have hs := Step.wait 1 (fun i => ⟨i == 2, false, false⟩) 1 (rfl : addedState 0 = some added)
    (by unfold Counts; decide)
  exact ⟨_, _, hs, hs.starves (epoll_inv addedState_reachable) (rfl : _ = some added) (rfl : added.table 2 = _) (by decide)
    ⟨by decide, by decide⟩ (by decide)⟩

/-- `EPOLL_CTL_DEL` of descriptor 3, which is not registered, is successful and takes the message queue away. -/
theorem queue_lost : ∃ s', sys.Reachable addedState ∧ Step addedState (.ctl 0 (.del 3)) (.ctl (.ok ())) s' ∧
    ¬Spec (abs addedState) (.ctl 0 (.del 3)) (.ctl (.ok ())) (abs s') ∧ ¬AllInv s' := by
  obtain ⟨ps, m, h⟩ := (epoll_inv addedState_reachable) 0 added rfl
  have hlen : ps.length = 3 := (Nat.succ.inj h.size).symm
  have hlast := h.del_last
  rw [hlen] at hlast
  refine ⟨_, addedState_reachable.of_restrict, Step.ctl (e := added) (.del 3) rfl, fun hspec => ?_,
    fun hi => hlast.2.1 (hi 0 _ rfl)⟩
  obtain ⟨i, habs, hout, -⟩ := hspec
  cases habs
  cases hout

end Libuv.L2.ZosEpoll
