import Mathlib.Tactic
import Libuv.Core.LTS

/-!
# Passed descriptors (`stream.c`, `pipe.c`)

What an IPC pipe does with the descriptors that come with its messages: the first is
`accepted_fd`, the others wait in `queued_fds`, an array that grows by eight and is shifted
with `memmove`. `Fds` is the two fields, with the functions that work on them; the stream
around them is not needed.

A descriptor is known by its place among all that were received; the code compares descriptors
with -1 only, which is `none`. They are taken to be above the standard ones, which `uv__close`
does not close. `recv` is one `recvmsg` with its control messages, `none` for one that is not
`SCM_RIGHTS`; whether the allocation for a descriptor succeeds is said for each. `taken`,
`handed` and `closed` are the descriptors `uv_accept` has consumed, those it gave to a client, and those
that were closed.

* `Fds.Inv`: the queue holds something, fits its array, and stands behind an accepted descriptor.
* `passed_fds`: descriptors are handed out in order and each is in one place, if no allocation fails
  while a later control message has descriptors.
* `fds_leaked`: otherwise those are neither kept nor closed.
-/
namespace Libuv.L3.QueuedFds

open List Option

/-- mirrors unix/internal.h:163-167 -/
structure Queued where
  size : ℕ
  offset : ℕ
  fds : ℕ → ℕ

/-- `accepted_fd` and `queued_fds`. -/
structure Fds where
  acceptedFd : Option ℕ
  queuedFds : Option Queued

/-- The client of `uv_accept`: of a type it does not know, or one that can adopt the descriptor or
cannot. -/
inductive Client
  | other
  | opens
  | fails
  deriving DecidableEq

/-- What `uv_accept` has done: the descriptor it consumed, whether the client has it (it is closed
otherwise), and whether it starts to wait for `POLLIN`. -/
structure Accept where
  fds : Fds
  taken : Option ℕ
  opened : Bool
  rearm : Bool

namespace Queued

def list (q : Queued) : List ℕ := (List.range q.offset).map q.fds

/-- `queued_fds->fds[queued_fds->offset++] = fd` -/
def put (q : Queued) (fd : ℕ) : Queued :=
  { q with fds := Function.update q.fds q.offset fd, offset := q.offset + 1 }

/-- `memmove` by one place. -/
def move (q : Queued) (n : ℕ) : Queued :=
  { q with fds := fun i => if i < n then q.fds (i + 1) else q.fds i, offset := n }

end Queued

namespace Fds
variable (f : Fds)

def held : List ℕ := f.acceptedFd.toList ++ f.queuedFds.elim [] Queued.list

/-- `none` is `UV_ENOMEM`; `mem` is whether `uv__malloc` or `uv__realloc` succeeds.
mirrors unix/stream.c:1041-1076 -/
def queueFd (fd : ℕ) (mem : Bool) : Option Fds :=
  match f.queuedFds with
  | none => if mem then some { f with queuedFds := some (Queued.put ⟨8, 0, fun _ => 0⟩ fd) } else none
  | some q =>
    if q.size = q.offset then
      if mem then some { f with queuedFds := some (Queued.put { q with size := q.size + 8 } fd) } else none
    else some { f with queuedFds := some (q.put fd) }

/-- The descriptors of a control message; with an error, what is closed.
mirrors unix/stream.c:1115-1130 -/
def recvRights (mem : ℕ → Bool) : List ℕ → Fds → Fds × Option (List ℕ)
  | [], f => (f, none)
  | fd :: rest, f =>
    if f.acceptedFd ≠ none then
      match f.queueFd fd (mem fd) with
      | some f => recvRights mem rest f
      | none => (f, some (fd :: rest))
    else recvRights mem rest { f with acceptedFd := some fd }

/-- mirrors unix/stream.c:1088-1134 -/
def recvCmsg (mem : ℕ → Bool) : List (Option (List ℕ)) → Fds → Fds × Option (List ℕ)
  | [], f => (f, none)
  | none :: rest, f => recvCmsg mem rest f
  | some fds :: rest, f =>
    match recvRights mem fds f with
    | (f, none) => recvCmsg mem rest f
    | (f, some closed) => (f, some closed)

/-- `uv_accept` from `done`; an assertion that fails has no result.
mirrors unix/stream.c:652-679 -/
def shift : Option Fds :=
  match f.queuedFds with
  | some q =>
    if q.offset = 0 then none
    else
      some {
        acceptedFd := some (q.fds 0)
        queuedFds := if q.offset - 1 = 0 then none else some (q.move (q.offset - 1)) }
  | none => some { f with acceptedFd := none }

/-- mirrors unix/stream.c:616-682 -/
def accept (client : Client) : Option Accept :=
  match f.acceptedFd, client with
  | none, _ => some ⟨f, none, false, false⟩
  | some _, .other => some ⟨f, none, false, false⟩
  | some fd, .opens => f.shift.map fun g => ⟨g, some fd, true, f.queuedFds.isNone⟩
  | some fd, .fails => f.shift.map fun g => ⟨g, some fd, false, false⟩

/-- The part of `uv__stream_close` that closes descriptors, with these.
mirrors unix/stream.c:1741-1757 -/
def closeAll : Fds × List ℕ := (⟨none, none⟩, f.held)

/-- mirrors unix/pipe.c:305-319 -/
def pendingCount (ipc : Bool) : ℕ :=
  if ipc = false then 0
  else if f.acceptedFd = none then 0
  else
    match f.queuedFds with
    | none => 1
    | some q => q.offset + 1

/-! ## The queue -/

structure Inv (f : Fds) : Prop where
  accepted : f.queuedFds ≠ none → f.acceptedFd ≠ none
  offset : ∀ q, f.queuedFds = some q → 0 < q.offset ∧ q.offset ≤ q.size

def size : ℕ := f.queuedFds.elim 0 Queued.size

/-- Whether the descriptor that comes behind `k` others needs an allocation. -/
def allocates (k : ℕ) : Bool :=
  f.size < f.held.length + k && (f.held.length + k - 1 - f.size) % 8 = 0

end Fds

variable {f g : Fds} {fd : ℕ} {fds : List ℕ} {mem : ℕ → Bool} {q : Queued}

@[simp] theorem length_list : q.list.length = q.offset := by
  simp [Queued.list]

theorem list_put : (q.put fd).list = q.list ++ [fd] := by
  have hsame : (List.range q.offset).map (Function.update q.fds q.offset fd) = (List.range q.offset).map q.fds := by
    refine map_congr_left fun i hi => Function.update_of_ne ?_ _ _
    have := mem_range.1 hi
    omega
  simp [Queued.list, Queued.put, range_succ, hsame]

theorem list_move {n : ℕ} (hn : q.offset = n + 1) : q.list = q.fds 0 :: (q.move n).list := by
  have hmove : (q.move n).list = (List.range n).map fun i => q.fds (i + 1) := by
    refine map_congr_left fun i hi => ?_
    have : i < n := mem_range.1 hi
    simp only [Queued.move]
    rw [if_pos this]
  rw [hmove, Queued.list, hn, range_succ_eq_map, map_cons, List.map_map]
  rfl

theorem held_some {c : ℕ} : Fds.held ⟨some c, some q⟩ = c :: q.list := rfl

/-- The stream after `n` more descriptors. -/
structure After (f g : Fds) (fds : List ℕ) : Prop where
  inv : g.Inv
  held : g.held = f.held ++ fds
  allocates : ∀ k, g.allocates k = f.allocates (fds.length + k)

theorem After.refl (hf : f.Inv) : After f f [] := ⟨hf, by simp, by simp⟩

theorem After.trans {h : Fds} {l k : List ℕ} (h1 : After f g l) (h2 : After g h k) : After f h (l ++ k) := by
  refine ⟨h2.inv, ?_, fun n => ?_⟩
  · rw [h2.held, h1.held, append_assoc]
  · rw [h2.allocates, h1.allocates, length_append, Nat.add_assoc]

theorem allocates_iff {k : ℕ} :
    f.allocates k = true ↔ f.size < f.held.length + k ∧ (f.held.length + k - 1 - f.size) % 8 = 0 := by
  simp [Fds.allocates]

theorem after_one (hg : g.Inv) (hh : g.held = f.held ++ [fd])
    (hs : f.held.length ≤ f.size ∧ g.size = f.size ∨ f.held.length = f.size + 1 ∧ g.size = f.size + 8) :
    After f g [fd] := by
  refine ⟨hg, hh, fun k => ?_⟩
  have hlen : g.held.length = f.held.length + 1 := by rw [hh, length_append]; rfl
  rw [Bool.eq_iff_iff, allocates_iff, allocates_iff, length_singleton]
  omega

/-- **`uv__stream_queue_fd`** puts the descriptor at the end, and fails only where an
allocation does. -/
theorem queueFd_spec (hf : f.Inv) (ha : f.acceptedFd ≠ none) (fd : ℕ) (m : Bool) :
    (∃ g, f.queueFd fd m = some g ∧ After f g [fd]) ∨ f.queueFd fd m = none ∧ m = false ∧ f.allocates 0 = true := by
  obtain ⟨c, qs⟩ := f
  obtain ⟨c, rfl⟩ := ne_none_iff_exists'.1 ha
  cases qs with
  | none =>
    cases m with
    | false => exact .inr ⟨rfl, rfl, rfl⟩
    | true =>
      refine .inl ⟨_, rfl, after_one ⟨nofun, fun q hq => ?_⟩ ?_ (.inr ⟨rfl, rfl⟩)⟩
      · cases hq
        simp [Queued.put]
      · rfl
  | some q =>
    obtain ⟨h0, hle⟩ := hf.offset q rfl
    have hlen : (Fds.held ⟨some c, some q⟩).length = q.offset + 1 := by
      rw [held_some, length_cons, length_list]
    by_cases hfull : q.size = q.offset
    · cases m with
      | false =>
        refine .inr ⟨by simp [Fds.queueFd, hfull], rfl, ?_⟩
        rw [allocates_iff]
        show q.size < _ ∧ (_ - 1 - q.size) % 8 = 0
        omega
      | true =>
        let r : Queued := { q with size := q.size + 8 }
        refine .inl ⟨⟨some c, some (r.put fd)⟩, by simp [Fds.queueFd, hfull, r], after_one ⟨nofun, fun q' hq => ?_⟩ ?_
          (.inr ⟨?_, rfl⟩)⟩
        · cases hq
          simp only [Queued.put, r]
          omega
        · rw [held_some, list_put]
          rfl
        · show _ = q.size + 1
          omega
    · refine .inl ⟨⟨some c, some (q.put fd)⟩, by simp [Fds.queueFd, hfull], after_one ⟨nofun, fun q' hq => ?_⟩ ?_
        (.inl ⟨?_, rfl⟩)⟩
      · cases hq
        simp only [Queued.put]
        omega
      · rw [held_some, list_put]
        rfl
      · show _ ≤ q.size
        omega

theorem recvRights_spec (hf : f.Inv) (mem : ℕ → Bool) (fds : List ℕ) :
    (∃ g, Fds.recvRights mem fds f = (g, none) ∧ After f g fds) ∨
      ∃ g a fd b, Fds.recvRights mem fds f = (g, some (fd :: b)) ∧ fds = a ++ fd :: b ∧ After f g a ∧ mem fd = false ∧
        f.allocates a.length = true := by
  induction fds generalizing f with
  | nil => exact .inl ⟨f, rfl, .refl hf⟩
  | cons fd rest ih =>
    -- what follows a descriptor that could be kept
    have next : ∀ g, After f g [fd] → Fds.recvRights mem (fd :: rest) f = Fds.recvRights mem rest g →
        (∃ g, Fds.recvRights mem (fd :: rest) f = (g, none) ∧ After f g (fd :: rest)) ∨
          ∃ g a fd' b, Fds.recvRights mem (fd :: rest) f = (g, some (fd' :: b)) ∧ fd :: rest = a ++ fd' :: b ∧
            After f g a ∧ mem fd' = false ∧ f.allocates a.length = true := by
      intro g hg he
      rw [he]
      rcases ih hg.inv with ⟨h, hr, ha⟩ | ⟨h, a, fd', b, hr, hsplit, ha, hm, hal⟩
      · exact .inl ⟨h, hr, hg.trans ha⟩
      · refine .inr ⟨h, fd :: a, fd', b, hr, by rw [hsplit]; rfl, hg.trans ha, hm, ?_⟩
        rw [hg.allocates] at hal
        rw [length_cons, Nat.add_comm]
        exact hal
    by_cases hacc : f.acceptedFd = none
    · have hq : f.queuedFds = none := by
        by_contra hne
        exact hf.accepted hne hacc
      obtain ⟨c, qs⟩ := f
      cases hacc
      cases hq
      exact next ⟨some fd, none⟩ (after_one ⟨nofun, nofun⟩ rfl (.inl ⟨Nat.le_refl 0, rfl⟩)) rfl
    · rcases queueFd_spec hf hacc fd (mem fd) with ⟨g, hg, hag⟩ | ⟨hnone, hm, hal⟩
      · refine next g hag ?_
        rw [Fds.recvRights, if_pos hacc, hg]
      · refine .inr ⟨f, [], fd, rest, ?_, rfl, .refl hf, hm, hal⟩
        rw [Fds.recvRights, if_pos hacc, hnone]

theorem shift_spec (hf : f.Inv) (ha : f.acceptedFd = some fd) :
    ∃ g, f.shift = some g ∧ g.Inv ∧ f.held = fd :: g.held ∧ (g.acceptedFd = none ↔ f.queuedFds = none) := by
  obtain ⟨c, qs⟩ := f
  cases ha
  cases qs with
  | none => exact ⟨⟨none, none⟩, rfl, ⟨nofun, nofun⟩, rfl, by simp⟩
  | some q =>
    obtain ⟨h0, hle⟩ := hf.offset q rfl
    obtain ⟨n, hn⟩ : ∃ n, q.offset = n + 1 := ⟨q.offset - 1, by omega⟩
    by_cases hlast : n = 0
    · refine ⟨⟨some (q.fds 0), none⟩, ?_, ⟨nofun, nofun⟩, ?_, by simp⟩
      · simp [Fds.shift, hn, hlast]
      · rw [held_some, list_move hn, hlast]
        rfl
    · refine ⟨⟨some (q.fds 0), some (q.move n)⟩, ?_, ⟨nofun, fun q' hq => ?_⟩, ?_, by simp⟩
      · simp [Fds.shift, hn, hlast]
      · cases hq
        simp only [Queued.move]
        omega
      · rw [held_some, list_move hn, held_some]

theorem accept_spec (hf : f.Inv) (client : Client) : ∃ r, f.accept client = some r ∧ r.fds.Inv ∧
    (r.taken = none ∧ r.fds = f ∧ r.rearm = false ∧ (f.acceptedFd = none ∨ client = .other) ∨
      ∃ fd, f.acceptedFd = some fd ∧ r.taken = some fd ∧ f.held = fd :: r.fds.held ∧
        (r.opened = true ↔ client = .opens) ∧ (client = .opens ∨ client = .fails) ∧
        (r.rearm = true ↔ client = .opens ∧ r.fds.acceptedFd = none)) := by
  cases hfd : f.acceptedFd with
  | none => exact ⟨⟨f, none, false, false⟩, by simp [Fds.accept, hfd], hf, .inl ⟨rfl, rfl, rfl, .inl rfl⟩⟩
  | some fd =>
    obtain ⟨g, hg, hinv, hheld, hlast⟩ := shift_spec hf hfd
    cases client with
    | other => exact ⟨⟨f, none, false, false⟩, by simp [Fds.accept, hfd], hf, .inl ⟨rfl, rfl, rfl, .inr rfl⟩⟩
    | opens =>
      refine ⟨⟨g, some fd, true, f.queuedFds.isNone⟩, by simp [Fds.accept, hfd, hg], hinv,
        .inr ⟨fd, rfl, rfl, hheld, by simp, .inl rfl, ?_⟩⟩
      simp [hlast]
    | fails =>
      exact ⟨⟨g, some fd, false, false⟩, by simp [Fds.accept, hfd, hg], hinv,
        .inr ⟨fd, rfl, rfl, hheld, by simp, .inr rfl, by simp⟩⟩

theorem recvRights_mem (hm : ∀ fd, mem fd = true) (fds : List ℕ) (f : Fds) : (Fds.recvRights mem fds f).2 = none := by
  induction fds generalizing f with
  | nil => rfl
  | cons fd rest ih =>
    unfold Fds.recvRights
    split
    · have hsome : (f.queueFd fd (mem fd)).isSome = true := by
        rw [hm fd]
        unfold Fds.queueFd
        split
        · rfl
        · split <;> rfl
      obtain ⟨g, hg⟩ := isSome_iff_exists.1 hsome
      rw [hg]
      exact ih g
    · exact ih _

theorem recvCmsg_mem (hm : ∀ fd, mem fd = true) {cmsgs : List (Option (List ℕ))} : (Fds.recvCmsg mem cmsgs f).2 = none := by
  induction cmsgs generalizing f with
  | nil => rfl
  | cons m rest ih =>
    cases m with
    | none => exact ih
    | some fds =>
      have hr := recvRights_mem hm fds f
      unfold Fds.recvCmsg
      split
      · exact ih
      · next heq =>
        rw [heq] at hr
        cases hr

theorem nothing_held (hf : f.Inv) (h : f.held = []) : f.acceptedFd = none ∧ f.queuedFds = none := by
  have ha : f.acceptedFd = none := by
    cases hc : f.acceptedFd with
    | none => rfl
    | some c =>
      rw [Fds.held, hc] at h
      cases h
  refine ⟨ha, ?_⟩
  by_contra hq
  exact hf.accepted hq ha

theorem pendingCount_eq (hf : f.Inv) : f.pendingCount true = f.held.length := by
  obtain ⟨c, qs⟩ := f
  cases c with
  | none =>
    cases qs with
    | none => rfl
    | some q => exact absurd rfl (hf.accepted nofun)
  | some c =>
    cases qs with
    | none => rfl
    | some q =>
      rw [held_some, length_cons, length_list]
      rfl

/-! ## Runs -/

structure State where
  fds : Fds
  closing : Bool
  received : ℕ
  taken : List ℕ
  handed : List ℕ
  closed : List ℕ

def total (cmsgs : List (Option ℕ)) : ℕ := (cmsgs.map fun m => m.getD 0).sum

/-- The control messages with their descriptors, the first of which is `n`. -/
def number : ℕ → List (Option ℕ) → List (Option (List ℕ))
  | _, [] => []
  | n, none :: rest => none :: number n rest
  | n, some m :: rest => some (List.range' n m) :: number (n + m) rest

/-- The descriptors behind which another control message has some. -/
def before : List (Option ℕ) → ℕ
  | [] => 0
  | m :: rest => if total rest = 0 then 0 else m.getD 0 + before rest

inductive Label
  | recv (cmsgs : List (Option ℕ)) (mem : ℕ → Bool)
  | accept (client : Client)
  | close

namespace State
variable (s : State)

/-- `uv__stream_recv_cmsg` -/
def recv (cmsgs : List (Option ℕ)) (mem : ℕ → Bool) : State :=
  let (f, c) := Fds.recvCmsg mem (number s.received cmsgs) s.fds
  { s with fds := f, received := s.received + total cmsgs, closed := s.closed ++ c.getD [] }

/-- `uv_accept`, with where the descriptor goes. -/
def accept (client : Client) : Option State :=
  (s.fds.accept client).map fun r => { s with
    fds := r.fds
    taken := s.taken ++ r.taken.toList
    handed := s.handed ++ if r.opened then r.taken.toList else []
    closed := s.closed ++ if r.opened then [] else r.taken.toList }

/-- `uv__stream_close` -/
def close : State :=
  let (f, c) := s.fds.closeAll
  { s with fds := f, closing := true, closed := s.closed ++ c }

end State

/-- Nothing is read from a stream that is closed. -/
def enabled (s : State) : Label → Bool
  | .recv .. => !s.closing
  | .accept _ => true
  | .close => !s.closing

def step (s : State) : Label → Option State
  | .recv cmsgs mem => some (s.recv cmsgs mem)
  | .accept client => s.accept client
  | .close => some s.close

def initial : State := ⟨⟨none, none⟩, false, 0, [], [], []⟩

def system : LTS State Label where
  init s := s = initial
  step s l t := enabled s l ∧ step s l = some t

/-- No allocation fails while a later control message has descriptors. -/
def Covered (s : State) : Label → Prop
  | .recv cmsgs mem => ∀ k < before cmsgs, s.fds.allocates k = true → mem (s.received + k) = true
  | _ => True

theorem before_of_total {cmsgs : List (Option ℕ)} (h : total cmsgs = 0) : before cmsgs = 0 := by
  cases cmsgs with
  | nil => rfl
  | cons m rest =>
    have : total rest = 0 := by
      simp only [total, map_cons, sum_cons] at h ⊢
      omega
    rw [before, if_pos this]

theorem total_cons {m : Option ℕ} {rest : List (Option ℕ)} : total (m :: rest) = m.getD 0 + total rest := rfl

theorem recvCmsg_spec (hf : f.Inv) (mem : ℕ → Bool) (cmsgs : List (Option ℕ)) (n : ℕ) :
    ∃ g a c lost, Fds.recvCmsg mem (number n cmsgs) f = (g, c) ∧ After f g a ∧
      a ++ c.getD [] ++ lost = List.range' n (total cmsgs) ∧
      ((∀ k < before cmsgs, f.allocates k = true → mem (n + k) = true) → lost = []) := by
  induction cmsgs generalizing f n with
  | nil => exact ⟨f, [], none, [], rfl, .refl hf, rfl, fun _ => rfl⟩
  | cons m rest ih =>
    cases m with
    | none =>
      obtain ⟨g, a, c, lost, hr, hag, hsplit, hlost⟩ := ih hf n
      refine ⟨g, a, c, lost, hr, hag, ?_, fun h => hlost fun k hk => h k ?_⟩
      · rw [hsplit, total_cons, getD_none, Nat.zero_add]
      · rw [before]
        split
        · rw [before_of_total ‹_›] at hk
          exact hk
        · rwa [getD_none, Nat.zero_add]
    | some m =>
      have happend : List.range' n (total (some m :: rest)) = List.range' n m ++ List.range' (n + m) (total rest) := by
        rw [total_cons, getD_some, range'_append_1]
      rcases recvRights_spec hf mem (List.range' n m) with ⟨g, hr, hag⟩ | ⟨g, a, fd, b, hr, hab, hag, hm, hal⟩
      · obtain ⟨h, a, c, lost, hr', hag', hsplit, hlost⟩ := ih hag.inv (n + m)
        refine ⟨h, List.range' n m ++ a, c, lost, ?_, hag.trans hag', ?_, fun hc => hlost fun k hk hal => ?_⟩
        · rw [number, Fds.recvCmsg, hr]
          exact hr'
        · rw [happend, ← hsplit]
          simp
        · rw [hag.allocates, length_range'] at hal
          have hlt : m + k < before (some m :: rest) := by
            rw [before]
            split
            · rw [before_of_total ‹_›] at hk
              cases hk
            · rw [getD_some]
              omega
          have := hc (m + k) hlt hal
          rwa [← Nat.add_assoc] at this
      · refine ⟨g, a, some (fd :: b), List.range' (n + m) (total rest), ?_, hag, ?_, fun hc => ?_⟩
        · rw [number, Fds.recvCmsg, hr]
        · rw [happend, hab]
          rfl
        · have hlen : a.length < m := by
            have := congrArg List.length hab
            rw [length_range', length_append, length_cons] at this
            omega
          have hfd : fd = n + a.length := by
            have h1 : (List.range' n m)[a.length]? = some fd := by
              rw [hab, getElem?_append_right (Nat.le_refl _), Nat.sub_self]
              rfl
            rw [getElem?_range' hlen] at h1
            have := some.inj h1
            omega
          by_cases hrest : total rest = 0
          · rw [hrest]
            rfl
          · have hlt : a.length < before (some m :: rest) := by
              rw [before, if_neg hrest, getD_some]
              omega
            have := hc a.length hlt hal
            rw [← hfd, hm] at this
            cases this

/-- Where the descriptors are; `lost` are nowhere. -/
structure Inv (s : State) (lost : List ℕ) : Prop where
  fds : s.fds.Inv
  order : (s.taken ++ s.fds.held).Pairwise (· < ·)
  received : ∀ x ∈ s.taken ++ s.fds.held, x < s.received
  handed : s.handed.Sublist s.taken
  place : (s.fds.held ++ s.handed ++ s.closed ++ lost).Perm (List.range s.received)
  closing : s.closing = true → s.fds.held = []

variable {s t : State} {lost : List ℕ}

theorem Inv.recv (hs : Inv s lost) (hcl : s.closing = false) (cmsgs : List (Option ℕ)) (mem : ℕ → Bool) :
    ∃ lost', Inv (s.recv cmsgs mem) (lost ++ lost') ∧ (Covered s (.recv cmsgs mem) → lost' = []) := by
  obtain ⟨g, a, c, lost', hr, hag, hsplit, hlost⟩ := recvCmsg_spec hs.fds mem cmsgs s.received
  have hrecv : s.recv cmsgs mem =
      { s with fds := g, received := s.received + total cmsgs, closed := s.closed ++ c.getD [] } := by
    unfold State.recv
    rw [hr]
  have hmem : ∀ x ∈ a, s.received ≤ x ∧ x < s.received + total cmsgs := by
    intro x hx
    have : x ∈ List.range' s.received (total cmsgs) := by
      rw [← hsplit]
      exact mem_append_left _ (mem_append_left _ hx)
    exact mem_range'_1.1 this
  have hsorted : a.Pairwise (· < ·) := by
    have : (a ++ c.getD [] ++ lost').Pairwise (· < ·) := by
      rw [hsplit]
      exact pairwise_lt_range'
    exact this.sublist (by simp)
  refine ⟨lost', ?_, hlost⟩
  rw [hrecv]
  refine ⟨hag.inv, ?_, fun x hx => ?_, hs.handed, ?_, fun h => ?_⟩
  · show (s.taken ++ g.held).Pairwise _
    rw [hag.held, ← append_assoc]
    refine pairwise_append.2 ⟨hs.order, hsorted, fun x hx y hy => ?_⟩
    exact (hs.received x hx).trans_le (hmem y hy).1
  · rw [hag.held, ← append_assoc] at hx
    show x < s.received + _
    rcases mem_append.1 hx with hx | hx
    · have := hs.received x hx
      omega
    · exact (hmem x hx).2
  · show (g.held ++ s.handed ++ (s.closed ++ c.getD []) ++ (lost ++ lost')).Perm (List.range (s.received + total cmsgs))
    refine perm_iff_count.2 fun x => ?_
    have h1 := hs.place.count_eq x
    have h2 := congrArg (List.count x) hsplit
    rw [range_eq_range'] at h1
    rw [range_eq_range', ← range'_append_1, Nat.zero_add, hag.held]
    simp only [count_append] at h1 h2 ⊢
    omega
  · rw [hcl] at h
    cases h

theorem Inv.accept (hs : Inv s lost) (client : Client) : ∃ t, s.accept client = some t ∧ Inv t lost := by
  obtain ⟨r, hr, hinv, hcase⟩ := accept_spec hs.fds client
  have hheld : s.fds.held = r.taken.toList ++ r.fds.held := by
    rcases hcase with ⟨h1, h2, -⟩ | ⟨fd, -, h1, h2, -⟩
    · rw [h1, h2]
      rfl
    · rw [h1, h2]
      rfl
  have heq : s.taken ++ r.taken.toList ++ r.fds.held = s.taken ++ s.fds.held := by rw [hheld, append_assoc]
  have hstep := congrArg (Option.map fun r : Accept => { s with
    fds := r.fds
    taken := s.taken ++ r.taken.toList
    handed := s.handed ++ if r.opened then r.taken.toList else []
    closed := s.closed ++ if r.opened then [] else r.taken.toList }) hr
  refine ⟨_, hstep, hinv, ?_, fun x hx => ?_, ?_, ?_, fun h => ?_⟩
  · show (s.taken ++ r.taken.toList ++ r.fds.held).Pairwise _
    rw [heq]
    exact hs.order
  · rw [heq] at hx
    exact hs.received x hx
  · refine hs.handed.append ?_
    split
    · exact .refl _
    · exact nil_sublist _
  · show (r.fds.held ++ (s.handed ++ _) ++ (s.closed ++ _) ++ lost).Perm (List.range s.received)
    refine perm_iff_count.2 fun x => ?_
    have h1 := hs.place.count_eq x
    rw [hheld] at h1
    cases r.opened with
    | true =>
      simp only [if_true, append_nil, count_append] at h1 ⊢
      omega
    | false =>
      simp only [Bool.false_eq_true, if_false, append_nil, count_append] at h1 ⊢
      omega
  · have := hs.closing h
    rw [hheld] at this
    exact (append_eq_nil_iff.1 this).2

theorem Inv.close (hs : Inv s lost) : Inv s.close lost := by
  refine ⟨⟨nofun, nofun⟩, ?_, fun x hx => hs.received x ?_, hs.handed, ?_, fun _ => rfl⟩
  · exact hs.order.sublist (by simp [State.close, Fds.closeAll, Fds.held])
  · refine mem_append_left _ ?_
    simpa [State.close, Fds.closeAll, Fds.held] using hx
  · show ([] ++ s.handed ++ (s.closed ++ s.fds.held) ++ lost).Perm (List.range s.received)
    refine perm_iff_count.2 fun x => ?_
    have h1 := hs.place.count_eq x
    simp only [count_append, count_nil] at h1 ⊢
    omega

theorem inv_step (hs : Inv s lost) {l : Label} (hen : enabled s l = true) :
    ∃ t lost', step s l = some t ∧ Inv t (lost ++ lost') ∧ (Covered s l → lost' = []) := by
  cases l with
  | recv cmsgs mem =>
    obtain ⟨lost', h1, h2⟩ := hs.recv (by simpa [enabled] using hen) cmsgs mem
    exact ⟨_, lost', rfl, h1, h2⟩
  | accept client =>
    obtain ⟨t, h1, h2⟩ := hs.accept client
    exact ⟨t, [], h1, by rwa [append_nil], fun _ => rfl⟩
  | close => exact ⟨_, [], rfl, by rw [append_nil]; exact hs.close, fun _ => rfl⟩

theorem initial_inv : Inv initial [] :=
  ⟨⟨nofun, nofun⟩, .nil, by simp [initial, Fds.held], .slnil, .refl _, fun _ => rfl⟩

/-- **Passed descriptors**: in a run in which no allocation fails while a later control message has
descriptors, `uv_accept` takes them in the order received, each is held, handed to a client or
closed, once, none is held after `uv__stream_close`, a queue holds something, fits its array and stands behind
an accepted descriptor, and `uv_pipe_pending_count` is their number. -/
theorem passed_fds (h : (system.restrict Covered).Reachable s) :
    (s.taken ++ s.fds.held).Pairwise (· < ·) ∧ s.handed.Sublist s.taken ∧
      (s.fds.held ++ s.handed ++ s.closed).Perm (List.range s.received) ∧ (s.closing = true → s.fds.held = []) ∧
      (∀ q, s.fds.queuedFds = some q → 0 < q.offset ∧ q.offset ≤ q.size ∧ s.fds.acceptedFd ≠ none) ∧
      s.fds.pendingCount true = s.fds.held.length ∧ ∀ l, enabled s l = true → ∃ t, step s l = some t := by
  have hi : (system.restrict Covered).Inductive (fun s => Inv s []) := by
    refine ⟨fun s hs => ?_, fun s l t hs ht => ?_⟩
    · rw [show s = initial from hs]
      exact initial_inv
    · obtain ⟨hc, hen, hst⟩ := ht
      obtain ⟨u, lost', hu, hs', hl⟩ := inv_step hs hen
      rw [hst] at hu
      cases hu
      rwa [hl hc] at hs'
  have hs := hi.reachable h
  refine ⟨hs.order, hs.handed, ?_, hs.closing, fun q hq => ?_, pendingCount_eq hs.fds, fun l hen => ?_⟩
  · have := hs.place
    rwa [append_nil] at this
  · obtain ⟨h0, hle⟩ := hs.fds.offset q hq
    exact ⟨h0, hle, hs.fds.accepted (by rw [hq]; nofun)⟩
  · obtain ⟨t, -, ht, -⟩ := inv_step hs hen
    exact ⟨t, ht⟩

/-- Nine descriptors fill the array, three more come and it cannot grow; of the first two that are accepted
the second does not open. -/
theorem passed_fds_twelve : ∃ s, (system.restrict Covered).Reachable s ∧ s.fds.held = [2, 3, 4, 5, 6, 7, 8] ∧
    s.handed = [0] ∧ s.closed = [9, 10, 11, 1] ∧ (s.fds.held ++ s.handed ++ s.closed).Perm (List.range s.received) := by
  have h0 : (system.restrict Covered).Reachable initial := .init rfl
  have h1 := h0.next (.recv [none, some 9] fun _ => true) ⟨fun _ _ _ => rfl, rfl, rfl⟩
  have h2 := h1.next (.recv [some 3] fun fd => fd ≠ 9) ⟨fun k hk => absurd hk (Nat.not_lt_zero k), rfl, rfl⟩
  have h3 := h2.next (.accept .opens) ⟨trivial, rfl, rfl⟩
  have h4 := h3.next (.accept .fails) ⟨trivial, rfl, rfl⟩
  exact ⟨_, h4, rfl, rfl, rfl, (passed_fds h4).2.2.1⟩

/-- **The leak**: a control message fails, and the descriptor of the next one is neither held nor
closed, also after the stream was closed. -/
theorem fds_leaked : ∃ s, system.Reachable s ∧ s.closing = true ∧ s.received = 3 ∧
    ¬ 2 ∈ s.fds.held ++ s.handed ++ s.closed := by
  have h0 : system.Reachable initial := .init rfl
  have h1 := h0.next (.recv [some 2, some 1] fun _ => false) ⟨rfl, rfl⟩
  have h2 := h1.next .close ⟨rfl, rfl⟩
  exact ⟨_, h2, rfl, rfl, by decide⟩

end Libuv.L3.QueuedFds
