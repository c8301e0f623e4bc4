import Libuv.L2Loop.ChildStdio
import Libuv.L2Loop.SpawnActions
import Mathlib.Algebra.Order.BigOperators.Group.Finset

/-!
# Who closes what in `uv_spawn` (`unix/process.c`)

`uv_spawn` makes a pair of descriptors for every `UV_CREATE_PIPE` element, has the child started, and gives the parent's end
to the element's stream. Three pieces of code close descriptors: opening a stream closes the child's end, a stream that cannot
be opened has the streams before it closed, and the loop at `error` closes what is left in `pipes`.

The kernel hands out numbers that are not in use (`Env.Fresh`). `Spawn` is what starting the child does in the parent: the
error pipe of the fork path is made and closed again, the `posix_spawn` path leaves the table with the copies of `k`
elements in it. An assertion that fails and `abort()` have no result. `closes` counts the calls on each number,
`created` lists the numbers that were handed out.

* `Owned`: what is wanted when `uv_spawn` returns. `ClosedTwice`, `Replaced`: the two ways it goes wrong.
* `spawn_owned_iff`; `closed_twice`: a pipe and a stream that is in use.
-/
namespace Libuv.L2.SpawnOwnership

open List Option
open ChildStdio (Errno)
open SpawnActions (saveLoop Low)

def UV_EINVAL : ℤ := -22
def UV_EBUSY : ℤ := -16
def UV_ENOMEM : ℤ := -12

/-- `uv_stdio_container_t`; streams are numbered. -/
inductive Stdio
  | ignore
  | createPipe (stream : ℕ)
  | inheritFd (fd : ℤ)
  | inheritStream (stream : ℕ)
  deriving DecidableEq

def Stdio.isPipe : Stdio → Bool
  | createPipe _ => true
  | _ => false

/-- `flags & (UV_INHERIT_FD | UV_INHERIT_STREAM)` -/
def Stdio.inherits : Stdio → Bool
  | inheritFd _ => true
  | inheritStream _ => true
  | _ => false

/-- How the child is started, and the result: the fork path with the two ends of its error pipe, if that can be made, or
`posix_spawn` after `k` iterations of the loop that copies sources. -/
inductive Spawn
  | fork (signal_pipe : Option (ℕ × ℕ)) (err : ℤ)
  | posixSpawn (k : ℕ) (err : ℤ)
  deriving DecidableEq

/-- What the calls of one `uv_spawn` return; `setsockopt` is what can fail in `uv__stream_open`. -/
structure Env where
  malloc : Bool := true
  socketpair : ℕ → Except Errno (ℕ × ℕ)
  spawn : Spawn
  setsockopt : ℕ → Option Errno := fun _ => none

/-- The process before the call: its descriptors, `io_watcher.fd` of its streams, which of these are `UV_NAMED_PIPE`. -/
structure Parent where
  isOpen : ℕ → Bool
  streams : ℕ → ℤ
  namedPipe : ℕ → Bool

structure State where
  pipes : ℕ → ℤ × ℤ
  streams : ℕ → ℤ
  isOpen : ℕ → Bool
  closes : ℕ → ℕ
  created : List ℕ

def State.init (par : Parent) : State where
  pipes := fun _ => (-1, -1)
  streams := par.streams
  isOpen := par.isOpen
  closes := fun _ => 0
  created := []

def State.setPipe (s : State) (i : ℕ) (p : ℤ × ℤ) : State :=
  { s with pipes := fun j => if j = i then p else s.pipes j }

def State.setStream (s : State) (st : ℕ) (fd : ℤ) : State :=
  { s with streams := fun x => if x = st then fd else s.streams x }

def State.create (s : State) (a b : ℕ) : State :=
  { s with isOpen := fun x => x = a ∨ x = b ∨ s.isOpen x, created := s.created ++ [a, b] }

/-- One call on `fd`, for the number `c`. -/
def hit (fd : ℤ) (c : ℕ) : ℕ := if (c : ℤ) = fd then 1 else 0

/-- mirrors unix/core.c:569-585 -/
def State.close (s : State) (fd : ℤ) : State :=
  { s with
    isOpen := fun x => x ≠ fd ∧ s.isOpen x
    closes := fun x => s.closes x + hit fd x }

section
variable (env : Env) (par : Parent) (elems : List Stdio)

/-- `options->stdio[i]`, with the elements up to `stdio_count` that are not there. -/
def elem (i : ℕ) : Stdio := elems.getD i .ignore

/-- mirrors unix/process.c:164-199 -/
def initStdio (i : ℕ) (s : State) : ℤ × State :=
  match elem elems i with
  | .ignore => (0, s)
  | .createPipe st =>
    if par.namedPipe st then
      match env.socketpair i with
      | .ok p => (0, (s.create p.1 p.2).setPipe i (p.1, p.2))
      | .error e => (e.uvErr, s)
    else (UV_EINVAL, s)
  | .inheritFd fd => if fd = -1 then (UV_EINVAL, s) else (0, s.setPipe i ((s.pipes i).1, fd))
  | .inheritStream st =>
    if s.streams st = -1 then (UV_EINVAL, s) else (0, s.setPipe i ((s.pipes i).1, s.streams st))

/-- mirrors unix/process.c:978-982 -/
def initLoop : ℕ → State → ℤ × State
  | 0, s => (0, s)
  | i + 1, s =>
    let r := initLoop i s
    if r.1 = 0 then initStdio env par elems i r.2 else r

/-- mirrors unix/process.c:832-935 -/
def spawnChild (n : ℕ) (s : State) : Option (ℤ × State) :=
  match env.spawn with
  | .fork none err => some (err, s)
  | .fork (some p) err =>
    if p.2 ≤ 2 then none else some (err, ((s.create p.1 p.2).close p.2).close p.1)
  | .posixSpawn k err =>
    some (err, { s with pipes := fun i => ((s.pipes i).1, (saveLoop n (fun j => (s.pipes j).2) (min k n)).1 i) })

/-- mirrors unix/process.c:202-223, stream.c:401-439 -/
def openStream (i : ℕ) (s : State) : Option (ℤ × State) :=
  match elem elems i with
  | .createPipe st =>
    if (s.pipes i).1 < 0 then some (0, s)
    else if (s.pipes i).2 ≤ 2 then none
    else if s.isOpen (s.pipes i).2.toNat = false then none
    else
      let s' := (s.close (s.pipes i).2).setPipe i ((s.pipes i).1, -1)
      if ¬(s'.streams st = -1 ∨ s'.streams st = (s.pipes i).1) then some (UV_EBUSY, s')
      else
        match env.setsockopt i with
        | some e => some (e.uvErr, s')
        | none => some (0, s'.setStream st (s.pipes i).1)
  | _ => some (0, s)

/-- The element whose stream could not be opened, and the error. mirrors unix/process.c:1023-1026 -/
def openLoop : ℕ → State → Option (Option (ℕ × ℤ) × State)
  | 0, s => some (none, s)
  | i + 1, s =>
    (openLoop i s).bind fun r =>
      if r.1.isSome then some r
      else (openStream env elems i r.2).map fun q => (if q.1 = 0 then none else some (i, q.1), q.2)

/-- mirrors unix/process.c:226-229, stream.c:1734-1740 -/
def closeStream (i : ℕ) (s : State) : State :=
  match elem elems i with
  | .createPipe st =>
    if s.streams st = -1 then s
    else (if 2 < s.streams st then s.close (s.streams st) else s).setStream st (-1)
  | _ => s

/-- `while (i--)`, mirrors unix/process.c:1028-1029 -/
def closeStreams : ℕ → State → State
  | 0, s => s
  | i + 1, s => closeStreams i (closeStream elems i s)

/-- mirrors unix/process.c:1041-1050 -/
def errorLoop : ℕ → State → State
  | 0, s => s
  | i + 1, s =>
    let s := errorLoop i s
    if (elem elems i).inherits then s
    else
      let s' := if (s.pipes i).1 = -1 then s else s.close (s.pipes i).1
      if (s.pipes i).2 = -1 then s' else s'.close (s.pipes i).2

def stdioCount : ℕ := max 3 elems.length

/-- mirrors unix/process.c:937-1059 -/
def uvSpawn : Option (ℤ × State) :=
  if 8 < stdioCount elems ∧ env.malloc = false then some (UV_ENOMEM, State.init par)
  else
    let r := initLoop env par elems elems.length (State.init par)
    if r.1 ≠ 0 then some (r.1, errorLoop elems (stdioCount elems) r.2)
    else
      (spawnChild env (stdioCount elems) r.2).bind fun q =>
        (openLoop env elems elems.length q.2).map fun o =>
          match o.1 with
          | none => (q.1, o.2)
          | some m => (m.2, errorLoop elems (stdioCount elems) (closeStreams elems m.1 o.2))

/-! ## The numbers the kernel hands out -/

/-- The ends of the pairs, and of the error pipe. -/
inductive End
  | parent (i : ℕ)
  | child (i : ℕ)
  | read
  | write
  deriving DecidableEq

def Env.pair (i : ℕ) : Option (ℕ × ℕ) := (env.socketpair i).toOption

def Spawn.signalPipe : Spawn → Option (ℕ × ℕ)
  | fork p _ => p
  | posixSpawn _ _ => none

def Env.number : End → Option ℕ
  | .parent i => (env.pair i).map Prod.fst
  | .child i => (env.pair i).map Prod.snd
  | .read => env.spawn.signalPipe.map Prod.fst
  | .write => env.spawn.signalPipe.map Prod.snd

/-- No number is in use when it is handed out, and none is handed out twice. -/
structure Env.Fresh : Prop where
  unused : ∀ x c, env.number x = some c → par.isOpen c = false
  once : ∀ x y c, env.number x = some c → env.number y = some c → x = y

/-- A stream that has a descriptor has an open one. -/
def Parent.Streams : Prop := ∀ st, par.streams st = -1 ∨ ∃ fd : ℕ, par.streams st = fd ∧ par.isOpen fd = true

/-- Element `i` gets a pair. -/
def IsPipe (i : ℕ) : Prop := (elem elems i).isPipe = true

instance (i : ℕ) : Decidable (IsPipe elems i) := inferInstanceAs (Decidable (_ = true))

theorem isPipe_iff (i : ℕ) : IsPipe elems i ↔ ∃ st, elem elems i = .createPipe st := by
  rw [IsPipe]
  cases elem elems i with
  | createPipe st => exact ⟨fun _ => ⟨st, rfl⟩, fun _ => rfl⟩
  | ignore | inheritFd fd | inheritStream st =>
    exact ⟨fun h => absurd h Bool.false_ne_true, fun h => absurd h.choose_spec Stdio.noConfusion⟩

variable {i m c k : ℕ} {s : State} {cond : ℕ → Prop} {x : ℕ → ℤ}

theorem elem_of_le (h : elems.length ≤ i) : elem elems i = .ignore := by
  rw [elem, getD_eq_getElem?_getD, getElem?_eq_none h, getD_none]

theorem lt_of_elem_ne (h : elem elems i ≠ .ignore) : i < elems.length := by
  by_contra hle
  exact h (elem_of_le elems (Nat.le_of_not_lt hle))

theorem isPipe_lt (h : IsPipe elems i) : i < elems.length := by
  refine lt_of_elem_ne elems fun he => ?_
  rw [IsPipe, he] at h
  exact absurd h Bool.false_ne_true

/-! ## Stdio initialisation -/

/-- What element `i` puts in `pipes[i]`. -/
def ends (i : ℕ) : ℤ × ℤ :=
  match elem elems i with
  | .ignore => (-1, -1)
  | .createPipe _ => (env.pair i).elim (-1, -1) fun p => (p.1, p.2)
  | .inheritFd fd => (-1, fd)
  | .inheritStream st => (-1, par.streams st)

theorem ends_pipe {p : ℕ × ℕ} (h : IsPipe elems i) (hp : env.pair i = some p) :
    ends env par elems i = (↑p.1, ↑p.2) := by
  obtain ⟨st, hst⟩ := (isPipe_iff elems i).mp h
  rw [ends, hst]
  simp [hp]

/-- The elements below `m` have been initialised. -/
structure Made (m : ℕ) (s : State) : Prop where
  pipes : ∀ i, s.pipes i = if i < m then ends env par elems i else (-1, -1)
  pairs : ∀ i, i < m → IsPipe elems i → ∃ p, env.pair i = some p
  streams : s.streams = par.streams
  closes : ∀ c, s.closes c = 0
  created : ∀ c, c ∈ s.created ↔
    ∃ i, i < m ∧ IsPipe elems i ∧ (env.number (.parent i) = some c ∨ env.number (.child i) = some c)

theorem Made.init : Made env par elems 0 (State.init par) where
  pipes := fun _ => rfl
  pairs := fun _ h => absurd h (Nat.not_lt_zero _)
  streams := rfl
  closes := fun _ => rfl
  created := by
    intro c
    refine ⟨fun h => absurd h not_mem_nil, ?_⟩
    rintro ⟨i, hi, -⟩
    exact absurd hi (Nat.not_lt_zero _)

variable {env par elems}

theorem Made.other {p : ℤ × ℤ} (h : Made env par elems m s) (hp : ¬IsPipe elems m)
    (he : ends env par elems m = p) : Made env par elems (m + 1) (s.setPipe m p) where
  pipes := by
    intro i
    by_cases hi : i = m
    · subst hi
      simp [State.setPipe, he]
    · simp [State.setPipe, if_neg hi, h.pipes i, show i < m + 1 ↔ i < m by omega]
  pairs := by
    intro i hi hpi
    rcases Nat.lt_succ_iff_lt_or_eq.mp hi with hi | rfl
    · exact h.pairs i hi hpi
    · exact absurd hpi hp
  streams := h.streams
  closes := h.closes
  created := by
    intro c
    refine (h.created c).trans ⟨?_, ?_⟩
    · rintro ⟨i, hi, hc⟩
      exact ⟨i, by omega, hc⟩
    · rintro ⟨i, hi, hpi, hc⟩
      rcases Nat.lt_succ_iff_lt_or_eq.mp hi with hi | rfl
      · exact ⟨i, hi, hpi, hc⟩
      · exact absurd hpi hp

theorem Made.pair {p : ℕ × ℕ} (h : Made env par elems m s) (hm : IsPipe elems m)
    (hp : env.pair m = some p) : Made env par elems (m + 1) ((s.create p.1 p.2).setPipe m (p.1, p.2)) where
  pipes := by
    intro i
    by_cases hi : i = m
    · subst hi
      simp [State.setPipe, ends_pipe env par elems hm hp]
    · simp [State.setPipe, State.create, if_neg hi, h.pipes i, show i < m + 1 ↔ i < m by omega]
  pairs := by
    intro i hi hpi
    rcases Nat.lt_succ_iff_lt_or_eq.mp hi with hi | rfl
    · exact h.pairs i hi hpi
    · exact ⟨p, hp⟩
  streams := h.streams
  closes := h.closes
  created := by
    intro c
    change c ∈ s.created ++ [p.1, p.2] ↔ _
    rw [mem_append, h.created c]
    constructor
    · rintro (⟨i, hi, hc⟩ | hc)
      · exact ⟨i, by omega, hc⟩
      · refine ⟨m, Nat.lt_succ_self m, hm, ?_⟩
        simp only [Env.number, hp, map_some, some.injEq]
        rcases mem_pair.mp hc with rfl | rfl
        · exact .inl rfl
        · exact .inr rfl
    · rintro ⟨i, hi, hpi, hc⟩
      rcases Nat.lt_succ_iff_lt_or_eq.mp hi with hi | rfl
      · exact .inl ⟨i, hi, hpi, hc⟩
      · simp only [Env.number, hp, map_some, some.injEq] at hc
        exact .inr (mem_pair.mpr (hc.imp Eq.symm Eq.symm))

variable (env par elems) in
/-- Element `i` passes its checks and gets its pair. -/
def Initialises (i : ℕ) : Prop :=
  match elem elems i with
  | .ignore => True
  | .createPipe st => par.namedPipe st = true ∧ (env.pair i).isSome = true
  | .inheritFd fd => fd ≠ -1
  | .inheritStream st => par.streams st ≠ -1

theorem initStdio_spec (h : Made env par elems m s) :
    (initStdio env par elems m s).1 ≠ 0 ∧ ¬Initialises env par elems m ∧ (initStdio env par elems m s).2 = s ∨
    (initStdio env par elems m s).1 = 0 ∧ Initialises env par elems m ∧
      Made env par elems (m + 1) (initStdio env par elems m s).2 := by
  have hm : s.pipes m = (-1, -1) := by rw [h.pipes, if_neg (Nat.lt_irrefl m)]
  have hself : s.setPipe m (-1, -1) = s := by
    have : (fun j => if j = m then (-1, -1) else s.pipes j) = s.pipes := by
      funext j
      by_cases hj : j = m
      · rw [if_pos hj, hj, hm]
      · rw [if_neg hj]
    rw [State.setPipe, this]
  rw [initStdio, Initialises]
  cases he : elem elems m with
  | ignore =>
    have := h.other (p := (-1, -1)) (by rw [IsPipe, he]; exact Bool.false_ne_true) (by rw [ends, he])
    rw [hself] at this
    exact .inr ⟨rfl, trivial, this⟩
  | createPipe st =>
    have hpipe : IsPipe elems m := by rw [IsPipe, he, Stdio.isPipe]
    by_cases hnamed : par.namedPipe st = true
    · cases hp : env.socketpair m with
      | ok p =>
        have hpair : env.pair m = some p := by rw [Env.pair, hp, Except.toOption]
        simp only [hnamed, if_true, hpair]
        exact .inr ⟨trivial, ⟨trivial, rfl⟩, h.pair hpipe hpair⟩
      | error e =>
        have hpair : env.pair m = none := by rw [Env.pair, hp, Except.toOption]
        simp only [hnamed, if_true, hpair]
        exact .inl ⟨e.uvErr_ne_zero, fun hand => absurd hand.2 Bool.false_ne_true, trivial⟩
    · simp only [if_neg hnamed]
      exact .inl ⟨by decide, fun hand => hnamed hand.1, trivial⟩
  | inheritFd fd =>
    by_cases hfd : fd = -1
    · simp only [if_pos hfd]
      exact .inl ⟨by decide, fun hne => hne hfd, trivial⟩
    · simp only [if_neg hfd, hm]
      exact .inr ⟨trivial, hfd, h.other (by rw [IsPipe, he]; exact Bool.false_ne_true) (by rw [ends, he])⟩
  | inheritStream st =>
    simp only [h.streams]
    by_cases hfd : par.streams st = -1
    · simp only [if_pos hfd]
      exact .inl ⟨by decide, fun hne => hne hfd, trivial⟩
    · simp only [if_neg hfd, hm]
      exact .inr ⟨trivial, hfd, h.other (by rw [IsPipe, he]; exact Bool.false_ne_true) (by rw [ends, he])⟩

variable (env par elems) in
theorem initLoop_spec (k : ℕ) :
    ∃ m, m ≤ k ∧ ((initLoop env par elems k (State.init par)).1 = 0 → m = k) ∧
      ((initLoop env par elems k (State.init par)).1 = 0 ↔ ∀ i, i < k → Initialises env par elems i) ∧
      Made env par elems m (initLoop env par elems k (State.init par)).2 := by
  induction k with
  | zero => exact ⟨0, le_rfl, fun _ => rfl, ⟨fun _ _ h => absurd h (Nat.not_lt_zero _), fun _ => rfl⟩, Made.init env par elems⟩
  | succ k ih =>
    obtain ⟨m, hm, hend, hiff, hmade⟩ := ih
    rw [initLoop]
    by_cases hz : (initLoop env par elems k (State.init par)).1 = 0
    · obtain rfl := hend hz
      simp only [if_pos hz]
      rcases initStdio_spec hmade with ⟨hne, hno, hs⟩ | ⟨hz', hyes, hs⟩
      · refine ⟨m, by omega, fun h => absurd h hne, ⟨fun h => absurd h hne, fun h => ?_⟩, by rw [hs]; exact hmade⟩
        exact absurd (h m (Nat.lt_succ_self m)) hno
      · refine ⟨m + 1, le_rfl, fun _ => rfl, ⟨fun _ i hi => ?_, fun _ => hz'⟩, hs⟩
        rcases Nat.lt_succ_iff_lt_or_eq.mp hi with hi | rfl
        · exact hiff.mp hz i hi
        · exact hyes
    · simp only [if_neg hz]
      exact ⟨m, by omega, fun h => absurd h hz, ⟨fun h => absurd h hz, fun h => hiff.mpr fun i hi => h i (by omega)⟩, hmade⟩

/-! ## Calls on one number -/

/-- The calls on `c` of a loop that closes `x i` for every `i` below `k` with `cond i`. -/
def hits (cond : ℕ → Prop) [DecidablePred cond] (x : ℕ → ℤ) (c k : ℕ) : ℕ :=
  ∑ i ∈ Finset.range k, if cond i then hit (x i) c else 0

theorem hits_succ (cond : ℕ → Prop) [DecidablePred cond] (x : ℕ → ℤ) (c k : ℕ) :
    hits cond x c (k + 1) = hits cond x c k + if cond k then hit (x k) c else 0 := Finset.sum_range_succ ..

theorem hits_zero [DecidablePred cond] (h : ∀ i, i < k → cond i → x i ≠ c) :
    hits cond x c k = 0 := by
  refine Finset.sum_eq_zero fun i hi => ?_
  split_ifs with hc
  · exact if_neg fun heq => h i (Finset.mem_range.mp hi) hc heq.symm
  · rfl

theorem hits_one [DecidablePred cond] {j : ℕ} (hj : j < k) (hc : cond j) (hx : x j = c)
    (h : ∀ i, i < k → cond i → x i = c → i = j) : hits cond x c k = 1 := by
  refine (Finset.sum_eq_single_of_mem j (Finset.mem_range.mpr hj) fun i hi hne => ?_).trans ?_
  · split_ifs with hci
    · exact if_neg fun heq => hne (h i (Finset.mem_range.mp hi) hci heq.symm)
    · rfl
  · rw [if_pos hc, hit, if_pos hx.symm]

theorem hits_pos [DecidablePred cond] {j : ℕ} (hj : j < k) (hc : cond j) (hx : x j = c) :
    0 < hits cond x c k := by
  refine Finset.sum_pos_iff.mpr ⟨j, Finset.mem_range.mpr hj, ?_⟩
  rw [if_pos hc, hit, if_pos hx.symm]
  exact Nat.one_pos

/-! ## Opening the streams -/

/-- Every pipe's parent end is a number of its own, and no stream has it yet. -/
structure Distinct (elems : List Stdio) (s : State) : Prop where
  pos : ∀ i, IsPipe elems i → 0 ≤ (s.pipes i).1
  once : ∀ i j, IsPipe elems i → IsPipe elems j → (s.pipes i).1 = (s.pipes j).1 → i = j
  unowned : ∀ i, IsPipe elems i → ∀ st, s.streams st ≠ (s.pipes i).1

variable (env elems)

/-- The stream of element `i` cannot be opened: it has a descriptor, is the stream of an element before, or is refused. -/
def Fails (streams : ℕ → ℤ) (i : ℕ) : Prop :=
  ∃ st, elem elems i = .createPipe st ∧
    (streams st ≠ -1 ∨ (∃ j, j < i ∧ elem elems j = .createPipe st) ∨ env.setsockopt i ≠ none)

/-- Calls on `c` for the child ends of the pipes below `k`. -/
abbrev childHits (p : ℕ → ℤ × ℤ) (c k : ℕ) : ℕ := hits (IsPipe elems) (fun i => (p i).2) c k

theorem childHits_succ (p : ℕ → ℤ × ℤ) (c k : ℕ) :
    childHits elems p c (k + 1) = childHits elems p c k + if IsPipe elems k then hit (p k).2 c else 0 := hits_succ ..

/-- The child ends below `k` are closed, and the streams below `j` have been given the parent ends. -/
structure Opened (s₀ : State) (j k : ℕ) (s : State) : Prop where
  pipes : ∀ i, s.pipes i = if i < k ∧ IsPipe elems i then ((s₀.pipes i).1, -1) else s₀.pipes i
  closes : ∀ c, s.closes c = s₀.closes c + childHits elems s₀.pipes c k
  created : s.created = s₀.created
  mine : ∀ i st, i < j → elem elems i = .createPipe st → s.streams st = (s₀.pipes i).1
  other : ∀ st, (∀ i, i < j → elem elems i ≠ .createPipe st) → s.streams st = s₀.streams st
  opened : ∀ i, i < j → ¬Fails env elems s₀.streams i

variable {env elems} {s₀ s : State} {k : ℕ}

theorem Opened.init : Opened env elems s₀ 0 0 s₀ where
  pipes := fun i => by rw [if_neg (by omega)]
  closes := fun c => rfl
  created := rfl
  mine := fun _ _ h => absurd h (Nat.not_lt_zero _)
  other := fun _ _ => rfl
  opened := fun _ h => absurd h (Nat.not_lt_zero _)

theorem Opened.skip (h : Opened env elems s₀ k k s) (hk : ¬IsPipe elems k) : Opened env elems s₀ (k + 1) (k + 1) s := by
  have hcreate : ∀ st, elem elems k ≠ .createPipe st := fun st he => hk ((isPipe_iff elems k).mpr ⟨st, he⟩)
  refine { h with pipes := fun i => ?_, closes := fun c => ?_, mine := fun i st hi he => h.mine i st ?_ he,
                  other := fun st hst => h.other st fun i hi => hst i (by omega), opened := fun i hi => ?_ }
  · rw [h.pipes i]
    by_cases hi : i = k
    · subst hi
      simp [hk]
    · simp [show i < k + 1 ↔ i < k by omega]
  · rw [h.closes, childHits_succ, if_neg hk, Nat.add_zero]
  · rcases Nat.lt_succ_iff_lt_or_eq.mp hi with hi | rfl
    · exact hi
    · exact absurd he (hcreate st)
  · rcases Nat.lt_succ_iff_lt_or_eq.mp hi with hi | rfl
    · exact h.opened i hi
    · rintro ⟨st, he, -⟩
      exact hcreate st he

theorem Opened.closeChild (h : Opened env elems s₀ k k s) (hk : IsPipe elems k) :
    Opened env elems s₀ k (k + 1) ((s.close (s.pipes k).2).setPipe k ((s.pipes k).1, -1)) := by
  have hpk : s.pipes k = s₀.pipes k := by rw [h.pipes, if_neg (by omega)]
  refine { h with pipes := fun i => ?_, closes := fun c => ?_ }
  · by_cases hi : i = k
    · subst hi
      simp [State.setPipe, hpk, hk]
    · simp [State.setPipe, State.close, if_neg hi, h.pipes i, show i < k + 1 ↔ i < k by omega]
  · simp only [State.setPipe, State.close]
    rw [h.closes, childHits_succ, if_pos hk, hpk, Nat.add_assoc]

theorem Opened.free (h : Opened env elems s₀ k k s) (hd : Distinct elems s₀) {st : ℕ}
    (hst : elem elems k = .createPipe st) :
    (s.streams st = -1 ∨ s.streams st = (s₀.pipes k).1) ↔
      s₀.streams st = -1 ∧ ∀ i, i < k → elem elems i ≠ .createPipe st := by
  have hk := (isPipe_iff elems k).mpr ⟨st, hst⟩
  by_cases hex : ∃ i, i < k ∧ elem elems i = .createPipe st
  · obtain ⟨i, hi, he⟩ := hex
    have hpi := (isPipe_iff elems i).mpr ⟨st, he⟩
    have hpos := hd.pos i hpi
    rw [h.mine i st hi he]
    constructor
    · rintro (h1 | h2)
      · omega
      · have := hd.once i k hpi hk h2
        omega
    · rintro ⟨-, hall⟩
      exact absurd he (hall i hi)
  · have hall : ∀ i, i < k → elem elems i ≠ .createPipe st := fun i hi he => hex ⟨i, hi, he⟩
    rw [h.other st hall]
    exact ⟨fun hor => ⟨hor.resolve_right (hd.unowned k hk st), hall⟩, fun hand => .inl hand.1⟩

theorem Opened.give (h : Opened env elems s₀ k (k + 1) s) {st : ℕ} (hst : elem elems k = .createPipe st)
    (hfree : s₀.streams st = -1 ∧ ∀ i, i < k → elem elems i ≠ .createPipe st) (hset : env.setsockopt k = none) :
    Opened env elems s₀ (k + 1) (k + 1) (s.setStream st (s₀.pipes k).1) := by
  refine { h with mine := fun i st' hi he => ?_, other := fun st' hst' => ?_, opened := fun i hi => ?_ }
  · by_cases heq : st' = st
    · subst heq
      rcases Nat.lt_succ_iff_lt_or_eq.mp hi with hi | rfl
      · exact absurd he (hfree.2 i hi)
      · exact if_pos rfl
    · rcases Nat.lt_succ_iff_lt_or_eq.mp hi with hi | rfl
      · exact (if_neg heq).trans (h.mine i st' hi he)
      · rw [hst] at he
        cases he
        exact absurd rfl heq
  · have hne : st' ≠ st := by
      rintro rfl
      exact hst' k (Nat.lt_succ_self k) hst
    exact (if_neg hne).trans (h.other st' fun i hi => hst' i (by omega))
  · rcases Nat.lt_succ_iff_lt_or_eq.mp hi with hi | rfl
    · exact h.opened i hi
    · rintro ⟨st', he, hor⟩
      rw [hst] at he
      cases he
      rcases hor with hne | ⟨j, hj, he⟩ | hne
      · exact hne hfree.1
      · exact hfree.2 j hj he
      · exact hne hset

theorem openStream_spec {q : ℤ × State} (h : Opened env elems s₀ k k s) (hd : Distinct elems s₀)
    (hq : openStream env elems k s = some q) :
    q.1 = 0 ∧ Opened env elems s₀ (k + 1) (k + 1) q.2 ∨
    q.1 ≠ 0 ∧ IsPipe elems k ∧ Fails env elems s₀.streams k ∧ Opened env elems s₀ k (k + 1) q.2 := by
  by_cases hk : IsPipe elems k
  · obtain ⟨st, hst⟩ := (isPipe_iff elems k).mp hk
    have hpk : s.pipes k = s₀.pipes k := by rw [h.pipes, if_neg (by omega)]
    have hpos := hd.pos k hk
    have hclose := h.closeChild hk
    rw [openStream, hst] at hq
    simp only [hpk] at hq hclose
    rw [if_neg (by omega)] at hq
    split_ifs at hq with h2 hopen hor
    · have hfree := (h.free hd hst).mp hor
      cases hset : env.setsockopt k with
      | some e =>
        rw [hset] at hq
        cases hq
        exact .inr ⟨e.uvErr_ne_zero, hk, ⟨st, hst, .inr (.inr (by rw [hset]; exact some_ne_none e))⟩, hclose⟩
      | none =>
        rw [hset] at hq
        cases hq
        exact .inl ⟨rfl, hclose.give hst hfree hset⟩
    · cases hq
      refine .inr ⟨show UV_EBUSY ≠ 0 by decide, hk, ⟨st, hst, ?_⟩, hclose⟩
      by_contra hno
      simp only [not_or, not_not, not_exists, not_and] at hno
      exact hor ((h.free hd hst).mpr ⟨hno.1, hno.2.1⟩)
  · have hskip := h.skip hk
    rw [openStream] at hq
    cases he : elem elems k with
    | createPipe st => exact absurd ((isPipe_iff elems k).mpr ⟨st, he⟩) hk
    | ignore | inheritFd fd | inheritStream st => rw [he] at hq; cases hq; exact .inl ⟨rfl, hskip⟩

theorem openLoop_spec {o : Option (ℕ × ℤ) × State} (hd : Distinct elems s₀) (ho : openLoop env elems k s₀ = some o) :
    o.1 = none ∧ Opened env elems s₀ k k o.2 ∨
    ∃ m e, o.1 = some (m, e) ∧ m < k ∧ IsPipe elems m ∧ Fails env elems s₀.streams m ∧ Opened env elems s₀ m (m + 1) o.2 := by
  induction k generalizing o with
  | zero =>
    cases ho
    exact .inl ⟨rfl, Opened.init⟩
  | succ k ih =>
    obtain ⟨r, hr, ho⟩ := bind_eq_some_iff.mp ho
    rcases ih hr with ⟨hnone, hopened⟩ | ⟨m, e, hsome, hm, hrest⟩
    · rw [hnone] at ho
      obtain ⟨q, hq, rfl⟩ := map_eq_some_iff.mp ho
      rcases openStream_spec hopened hd hq with ⟨hz, h⟩ | ⟨hne, hk, hf, h⟩
      · exact .inl ⟨if_pos hz, h⟩
      · exact .inr ⟨k, q.1, if_neg hne, Nat.lt_succ_self k, hk, hf, h⟩
    · rw [hsome] at ho
      cases ho
      exact .inr ⟨m, e, hsome, by omega, hrest⟩

/-! ## The two loops that close -/

/-- Calls on `c` for the parent ends of the pipes below `k` that a stream has. -/
abbrev streamHits (elems : List Stdio) (p : ℕ → ℤ × ℤ) (c k : ℕ) : ℕ :=
  hits (fun i => IsPipe elems i ∧ 2 < (p i).1) (fun i => (p i).1) c k

theorem streamHits_succ (p : ℕ → ℤ × ℤ) (c k : ℕ) :
    streamHits elems p c (k + 1) = streamHits elems p c k + if IsPipe elems k ∧ 2 < (p k).1 then hit (p k).1 c else 0 :=
  hits_succ ..

structure Closed (elems : List Stdio) (p : ℕ → ℤ × ℤ) (m : ℕ) (s s' : State) : Prop where
  pipes : s'.pipes = s.pipes
  created : s'.created = s.created
  closes : ∀ c, s'.closes c = s.closes c + streamHits elems p c m
  gone : ∀ i st, i < m → elem elems i = .createPipe st → s'.streams st = -1
  other : ∀ st, (∀ i, i < m → elem elems i ≠ .createPipe st) → s'.streams st = s.streams st

theorem closeStreams_spec {p : ℕ → ℤ × ℤ}
    (hmine : ∀ i st, i < m → elem elems i = .createPipe st → s.streams st = (p i).1)
    (hpos : ∀ i, i < m → IsPipe elems i → 0 ≤ (p i).1)
    (honce : ∀ i j st, i < m → j < m → elem elems i = .createPipe st → elem elems j = .createPipe st → i = j) :
    Closed elems p m s (closeStreams elems m s) := by
  induction m generalizing s with
  | zero =>
    exact ⟨rfl, rfl, fun _ => rfl, fun _ _ h => absurd h (Nat.not_lt_zero _), fun _ _ => rfl⟩
  | succ m ih =>
    rw [closeStreams]
    by_cases hk : IsPipe elems m
    · obtain ⟨st, hst⟩ := (isPipe_iff elems m).mp hk
      have hown := hmine m st (Nat.lt_succ_self m) hst
      have hne : s.streams st ≠ -1 := by
        have := hpos m (Nat.lt_succ_self m) hk
        omega
      have hcs : closeStream elems m s = (if 2 < (p m).1 then s.close (p m).1 else s).setStream st (-1) := by
        rw [closeStream, hst]
        dsimp only
        rw [if_neg hne, hown]
      have hbefore : ∀ i st', i < m → elem elems i = .createPipe st' → st' ≠ st := by
        rintro i st' hi he rfl
        have := honce i m st' (by omega) (Nat.lt_succ_self m) he hst
        omega
      have hstreams : ∀ x, (closeStream elems m s).streams x = if x = st then -1 else s.streams x := by
        intro x
        rw [hcs]
        by_cases h2 : 2 < (p m).1
        · simp [if_pos h2, State.setStream, State.close]
        · simp [if_neg h2, State.setStream]
      have h := ih (s := closeStream elems m s)
        (fun i st' hi he => by rw [hstreams, if_neg (hbefore i st' hi he)]; exact hmine i st' (by omega) he)
        (fun i hi => hpos i (by omega)) fun i j st' hi hj => honce i j st' (by omega) (by omega)
      refine ⟨?_, ?_, fun c => ?_, fun i st' hi he => ?_, fun st' hst' => ?_⟩
      · rw [h.pipes, hcs]
        split_ifs <;> rfl
      · rw [h.created, hcs]
        split_ifs <;> rfl
      · rw [h.closes, hcs, streamHits_succ]
        by_cases h2 : 2 < (p m).1
        · rw [if_pos h2, if_pos ⟨hk, h2⟩]
          simp only [State.setStream, State.close]
          omega
        · rw [if_neg h2, if_neg fun hand => h2 hand.2]
          rfl
      · rcases Nat.lt_succ_iff_lt_or_eq.mp hi with hi | rfl
        · exact h.gone i st' hi he
        · rw [hst] at he
          cases he
          rw [h.other st fun i hi he' => hbefore i st hi he' rfl, hstreams, if_pos rfl]
      · rw [h.other st' fun i hi => hst' i (by omega), hstreams, if_neg]
        rintro rfl
        exact hst' m (Nat.lt_succ_self m) hst
    · have hcs : closeStream elems m s = s := by
        rw [closeStream]
        cases he : elem elems m with
        | createPipe st => exact absurd ((isPipe_iff elems m).mpr ⟨st, he⟩) hk
        | ignore | inheritFd fd | inheritStream st => rfl
      rw [hcs]
      have h := ih (s := s) (fun i st hi => hmine i st (by omega)) (fun i hi => hpos i (by omega))
        fun i j st hi hj => honce i j st (by omega) (by omega)
      refine { h with closes := fun c => ?_, gone := fun i st hi he => ?_, other := fun st hst => h.other st fun i hi => hst i (by omega) }
      · rw [h.closes, streamHits_succ, if_neg fun hand => hk hand.1, Nat.add_zero]
      · rcases Nat.lt_succ_iff_lt_or_eq.mp hi with hi | rfl
        · exact h.gone i st hi he
        · exact absurd ((isPipe_iff elems i).mpr ⟨st, he⟩) hk

/-- Calls on `c` in the loop at `error`. -/
abbrev errorHits (elems : List Stdio) (p : ℕ → ℤ × ℤ) (c k : ℕ) : ℕ :=
  hits (fun i => (elem elems i).inherits = false) (fun i => (p i).1) c k +
    hits (fun i => (elem elems i).inherits = false) (fun i => (p i).2) c k

theorem hit_neg (c : ℕ) : hit (-1) c = 0 := if_neg (by omega)

theorem close_if (s : State) (fd : ℤ) (c : ℕ) : (if fd = -1 then s else s.close fd).closes c = s.closes c + hit fd c := by
  split_ifs with h
  · rw [h, hit_neg, Nat.add_zero]
  · rfl

variable (elems) in
theorem errorLoop_frame (k : ℕ) (s : State) :
    (errorLoop elems k s).pipes = s.pipes ∧ (errorLoop elems k s).streams = s.streams ∧
      (errorLoop elems k s).created = s.created := by
  induction k with
  | zero => exact ⟨rfl, rfl, rfl⟩
  | succ k ih =>
    rw [errorLoop]
    split_ifs <;> exact ih

theorem errorLoop_closes (k : ℕ) (s : State) (c : ℕ) :
    (errorLoop elems k s).closes c = s.closes c + errorHits elems s.pipes c k := by
  induction k with
  | zero => rfl
  | succ k ih =>
    rw [errorLoop, errorHits, hits_succ, hits_succ]
    cases hin : (elem elems k).inherits with
    | true =>
      exact ih
    | false =>
      rw [if_neg Bool.false_ne_true, if_pos rfl, if_pos rfl, close_if, close_if, ih, errorHits, (errorLoop_frame elems k s).1]
      omega

/-! ## Starting the child -/

section
variable (env : Env) (par : Parent) (elems : List Stdio)

/-- What is in `pipes[i][1]` of the parent when the child has been started. -/
def childEnd (i : ℕ) : ℤ :=
  match env.spawn with
  | .fork _ _ => (ends env par elems i).2
  | .posixSpawn k _ =>
    (saveLoop (stdioCount elems) (fun j => (ends env par elems j).2) (min k (stdioCount elems))).1 i

def table (i : ℕ) : ℤ × ℤ := ((ends env par elems i).1, childEnd env par elems i)

def signalHits (c : ℕ) : ℕ := env.spawn.signalPipe.elim 0 fun p => hit p.2 c + hit p.1 c

/-- `c` is an end of the pair of a pipe, or of the error pipe. -/
def Created (c : ℕ) : Prop :=
  (∃ i, IsPipe elems i ∧ (env.number (.parent i) = some c ∨ env.number (.child i) = some c)) ∨
    env.number .read = some c ∨ env.number .write = some c

structure Started (s : State) : Prop where
  pipes : s.pipes = table env par elems
  streams : s.streams = par.streams
  closes : ∀ c, s.closes c = signalHits env c
  created : ∀ c, c ∈ s.created ↔ Created env elems c

variable {env par elems}

theorem spawnChild_spec {s : State} {q : ℤ × State} (h : Made env par elems elems.length s)
    (hq : spawnChild env (stdioCount elems) s = some q) : Started env par elems q.2 := by
  have hpipes : s.pipes = ends env par elems := by
    funext i
    rw [h.pipes]
    split_ifs with hi
    · rfl
    · rw [ends, elem_of_le elems (by omega)]
  have hmade : ∀ c, c ∈ s.created ↔
      ∃ i, IsPipe elems i ∧ (env.number (.parent i) = some c ∨ env.number (.child i) = some c) := by
    intro c
    rw [h.created]
    constructor
    · rintro ⟨i, -, hc⟩
      exact ⟨i, hc⟩
    · rintro ⟨i, hi, hc⟩
      exact ⟨i, isPipe_lt elems hi, hi, hc⟩
  rw [spawnChild] at hq
  cases hs : env.spawn with
  | fork sp err =>
    cases sp with
    | none =>
      rw [hs] at hq
      cases hq
      refine ⟨?_, h.streams, fun c => ?_, fun c => ?_⟩
      · funext i
        rw [hpipes, table, childEnd, hs]
      · rw [h.closes, signalHits, hs]
        rfl
      · rw [hmade, Created, Env.number, Env.number, hs]
        simp [Spawn.signalPipe, reduceCtorEq]
    | some p =>
      rw [hs] at hq
      simp only at hq
      split_ifs at hq with h2
      cases hq
      refine ⟨?_, h.streams, fun c => ?_, fun c => ?_⟩
      · funext i
        change s.pipes i = _
        rw [hpipes, table, childEnd, hs]
      · change s.closes c + hit p.2 c + hit p.1 c = _
        rw [h.closes, signalHits, hs, Spawn.signalPipe, elim_some, Nat.zero_add]
      · change c ∈ s.created ++ [p.1, p.2] ↔ _
        rw [mem_append, hmade, Created, Env.number, Env.number, hs, Spawn.signalPipe, map_some, map_some,
          some.injEq, some.injEq, mem_pair, eq_comm (a := c), eq_comm (a := c)]
  | posixSpawn k err =>
    rw [hs] at hq
    cases hq
    refine ⟨?_, h.streams, fun c => ?_, fun c => ?_⟩
    · funext i
      simp [hpipes, table, childEnd, hs]
    · rw [h.closes, signalHits, hs]
      rfl
    · rw [hmade, Created, Env.number, Env.number, hs]
      simp [Spawn.signalPipe, reduceCtorEq]

end

/-! ## What is wanted, and when it is had -/

section
variable (env : Env) (par : Parent) (elems : List Stdio)

/-- Every number handed out has been closed once, or one stream has it; no other descriptor of the parent has been closed;
the inherited streams have theirs. -/
structure Owned (s : State) : Prop where
  created : ∀ c, c ∈ s.created → s.closes c = 1 ∧ (∀ st, s.streams st ≠ c) ∨
    s.closes c = 0 ∧ ∃ st, s.streams st = c ∧ ∀ st', s.streams st' = c → st' = st
  parents : ∀ c, par.isOpen c = true → s.closes c = 0
  inherited : ∀ i st, elem elems i = .inheritStream st → s.streams st = par.streams st

/-- `pipes` is there, and every element passes its checks and gets its pair. -/
def Starts : Prop :=
  ¬(8 < stdioCount elems ∧ env.malloc = false) ∧ ∀ i, i < elems.length → Initialises env par elems i

/-- `posix_spawn` has put the number of a copy over a child end. -/
def Replaced : Prop :=
  ∃ k err, env.spawn = .posixSpawn k err ∧ ∃ i p, i < k ∧ IsPipe elems i ∧ env.pair i = some p ∧ p.2 < i

/-- A stream before the first that cannot be opened has a descriptor that is closed with it. -/
def ClosedTwice : Prop :=
  ∃ m, Fails env elems par.streams m ∧ (∀ i, i < m → ¬Fails env elems par.streams i) ∧
    ∃ j p, j < m ∧ IsPipe elems j ∧ env.pair j = some p ∧ 2 < p.1

end

section
variable {env : Env} {par : Parent} {elems : List Stdio} {c : ℕ}

theorem stream_ne (hf : env.Fresh par) (hw : par.Streams) {x : End} (hc : env.number x = some c) (st : ℕ) :
    par.streams st ≠ c := by
  intro heq
  rcases hw st with hst | ⟨fd, hst, hopen⟩
  · omega
  · have := hf.unused x c hc
    rw [show c = fd by omega, hopen] at this
    cases this

theorem number_of_fst {i : ℕ} (h : (ends env par elems i).1 = c) : IsPipe elems i ∧ env.number (.parent i) = some c := by
  rw [ends] at h
  rw [IsPipe]
  cases he : elem elems i with
  | ignore => rw [he] at h; dsimp only at h; omega
  | createPipe st =>
    rw [he] at h
    cases hp : env.pair i with
    | none => simp only [hp, elim_none] at h; omega
    | some p =>
      simp only [hp, elim_some, Nat.cast_inj] at h
      exact ⟨rfl, by rw [Env.number, hp, map_some, h]⟩
  | inheritFd fd | inheritStream st => rw [he] at h; dsimp only at h; omega

theorem number_of_snd {i : ℕ} (hi : (elem elems i).inherits = false) (h : (ends env par elems i).2 = c) :
    IsPipe elems i ∧ env.number (.child i) = some c := by
  rw [ends] at h
  rw [IsPipe]
  cases he : elem elems i with
  | ignore => rw [he] at h; dsimp only at h; omega
  | createPipe st =>
    rw [he] at h
    cases hp : env.pair i with
    | none => simp only [hp, elim_none] at h; omega
    | some p =>
      simp only [hp, elim_some, Nat.cast_inj] at h
      exact ⟨rfl, by rw [Env.number, hp, map_some, h]⟩
  | inheritFd fd | inheritStream st => rw [he, Stdio.inherits] at hi; cases hi

theorem not_inherits {i : ℕ} (h : IsPipe elems i) : (elem elems i).inherits = false := by
  obtain ⟨st, hst⟩ := (isPipe_iff elems i).mp h
  rw [hst]
  rfl

theorem ends_of_number {i : ℕ} (hi : IsPipe elems i) :
    (env.number (.parent i) = some c → (ends env par elems i).1 = c) ∧
    (env.number (.child i) = some c → (ends env par elems i).2 = c) := by
  rw [Env.number, Env.number]
  cases hp : env.pair i with
  | none =>
    exact ⟨fun h => absurd h (some_ne_none c).symm, fun h => absurd h (some_ne_none c).symm⟩
  | some p =>
    rw [ends_pipe env par elems hi hp, map_some, map_some, some.injEq, some.injEq]
    exact ⟨congrArg _, congrArg _⟩

variable (env par elems) in
theorem childEnd_cases (i : ℕ) :
    (childEnd env par elems i = (ends env par elems i).2 ∧
        ¬∃ k err, env.spawn = .posixSpawn k err ∧ i < min k (stdioCount elems) ∧ Low (fun j => (ends env par elems j).2) i) ∨
      (stdioCount elems : ℤ) ≤ childEnd env par elems i ∧
        ∃ k err, env.spawn = .posixSpawn k err ∧ i < min k (stdioCount elems) ∧ Low (fun j => (ends env par elems j).2) i := by
  rw [childEnd]
  cases hs : env.spawn with
  | fork sp err =>
    refine .inl ⟨rfl, ?_⟩
    rintro ⟨k, err', heq, -⟩
    cases heq
  | posixSpawn k err =>
    obtain ⟨b, hb⟩ := SpawnActions.saveLoop_chosen (fun j => (ends env par elems j).2)
      (Nat.min_le_right k (stdioCount elems))
    by_cases hlow : i < min k (stdioCount elems) ∧ Low (fun j => (ends env par elems j).2) i
    · obtain ⟨u, hu, heq⟩ := hb.taken i hlow.1 hlow.2
      have hle := SpawnActions.le_start (stdioCount elems) (fun j => (ends env par elems j).2)
      rw [SpawnActions.mem_gaps] at hu
      exact .inr ⟨by dsimp only; omega, k, err, rfl, hlow⟩
    · refine .inl ⟨hb.same i ?_, ?_⟩
      · by_cases hi : i < min k (stdioCount elems)
        · exact .inr fun hl => hlow ⟨hi, hl⟩
        · exact .inl (by omega)
      · rintro ⟨k', err', heq, hand⟩
        cases heq
        exact hlow hand

variable (elems) in
theorem le_stdioCount : elems.length ≤ stdioCount elems := Nat.le_max_right ..

theorem childEnd_eq (hr : ¬Replaced env elems) {i : ℕ} (hi : (elem elems i).inherits = false) :
    childEnd env par elems i = (ends env par elems i).2 := by
  rcases childEnd_cases env par elems i with ⟨heq, -⟩ | ⟨-, k, err, hs, hik, hlow⟩
  · exact heq
  · have hc : (ends env par elems i).2 = ((ends env par elems i).2.toNat : ℤ) := (Int.toNat_of_nonneg hlow.1).symm
    obtain ⟨hpipe, hnum⟩ := number_of_snd hi hc
    obtain ⟨p, hp, hp2⟩ := map_eq_some_iff.mp hnum
    refine absurd ⟨k, err, hs, i, p, by omega, hpipe, hp, ?_⟩ hr
    have := hlow.2
    dsimp only at this
    omega

end

variable {c : ℕ}

theorem signalHits_zero (h : env.number .read ≠ some c ∧ env.number .write ≠ some c) : signalHits env c = 0 := by
  rw [Env.number, Env.number] at h
  rw [signalHits]
  cases hs : env.spawn.signalPipe with
  | none => rfl
  | some p =>
    rw [hs, map_some, map_some] at h
    rw [elim_some, hit, hit, if_neg, if_neg]
    · exact fun heq => h.1 (by rw [Nat.cast_inj.mp heq])
    · exact fun heq => h.2 (by rw [Nat.cast_inj.mp heq])

theorem signalHits_one (hf : env.Fresh par) (h : env.number .read = some c ∨ env.number .write = some c) :
    signalHits env c = 1 := by
  have hne : ¬(env.number .read = some c ∧ env.number .write = some c) :=
    fun hand => End.noConfusion (hf.once .read .write c hand.1 hand.2)
  rw [Env.number, Env.number] at h hne
  rw [signalHits]
  cases hs : env.spawn.signalPipe with
  | none =>
    rw [hs] at h
    cases h with
    | inl h | inr h => cases h
  | some p =>
    rw [hs, map_some, map_some, some.injEq, some.injEq] at h hne
    rw [elim_some, hit, hit]
    rcases h with rfl | rfl
    · rw [if_neg fun heq => hne ⟨rfl, (Nat.cast_inj.mp heq).symm⟩, if_pos rfl]
    · rw [if_pos rfl, if_neg fun heq => hne ⟨(Nat.cast_inj.mp heq).symm, rfl⟩]

/-! ### Calls of the loops on one end -/

variable {cond : ℕ → Prop} {y : ℕ → ℤ} {j m i k : ℕ} {s s₀ : State}

theorem fst_zero [DecidablePred cond]
    (hy : ∀ i, cond i → y i = c → (ends env par elems i).1 = c) (hc : ∀ i, i < k → cond i → env.number (.parent i) ≠ some c) :
    hits cond y c k = 0 :=
  hits_zero fun i hi hci heq => hc i hi hci (number_of_fst (hy i hci heq)).2

theorem fst_one (hf : env.Fresh par) [DecidablePred cond]
    (hy : ∀ i, cond i → y i = c → (ends env par elems i).1 = c) (hc : env.number (.parent j) = some c) (hj : j < k)
    (hcj : cond j) (hyj : y j = c) : hits cond y c k = 1 := by
  refine hits_one hj hcj hyj fun i _ hci heq => ?_
  have := hf.once _ _ c (number_of_fst (hy i hci heq)).2 hc
  injection this

theorem snd_zero [DecidablePred cond]
    (hy : ∀ i, cond i → y i = c → (elem elems i).inherits = false ∧ (ends env par elems i).2 = c)
    (hc : ∀ i, i < k → cond i → y i = c → env.number (.child i) ≠ some c) : hits cond y c k = 0 :=
  hits_zero fun i hi hci heq => hc i hi hci heq (number_of_snd (hy i hci heq).1 (hy i hci heq).2).2

theorem snd_one (hf : env.Fresh par) [DecidablePred cond]
    (hy : ∀ i, cond i → y i = c → (elem elems i).inherits = false ∧ (ends env par elems i).2 = c)
    (hc : env.number (.child j) = some c) (hj : j < k) (hcj : cond j) (hyj : y j = c) : hits cond y c k = 1 := by
  refine hits_one hj hcj hyj fun i _ hci heq => ?_
  have := hf.once _ _ c (number_of_snd (hy i hci heq).1 (hy i hci heq).2).2 hc
  injection this

/-! ### An element cannot be initialised -/

theorem owned_of_made (hf : env.Fresh par) (hw : par.Streams) (hm : m ≤ elems.length)
    (h : Made env par elems m s) : Owned par elems (errorLoop elems (stdioCount elems) s) := by
  obtain ⟨-, hstreams, hcreated⟩ := errorLoop_frame elems (stdioCount elems) s
  have hn := le_stdioCount elems
  have hfst : ∀ c : ℕ, ∀ i, (elem elems i).inherits = false → (s.pipes i).1 = c → (ends env par elems i).1 = c := by
    intro c i _ heq
    rw [h.pipes] at heq
    split_ifs at heq
    · exact heq
    · omega
  have hsnd : ∀ c : ℕ, ∀ i, (elem elems i).inherits = false → (s.pipes i).2 = c →
      (elem elems i).inherits = false ∧ (ends env par elems i).2 = c := by
    intro c i hin heq
    rw [h.pipes] at heq
    split_ifs at heq
    · exact ⟨hin, heq⟩
    · omega
  refine ⟨fun c hc => ?_, fun c hopen => ?_, fun i st _ => ?_⟩
  · rw [hcreated, h.created] at hc
    obtain ⟨j, hj, hpipe, hnum⟩ := hc
    have hin := not_inherits hpipe
    have hpj : s.pipes j = ends env par elems j := by rw [h.pipes, if_pos hj]
    refine .inl ⟨?_, fun st => ?_⟩
    · rw [errorLoop_closes, h.closes, errorHits]
      rcases hnum with hnum | hnum
      · rw [fst_one hf (hfst c) hnum (by omega) hin (by rw [hpj]; exact (ends_of_number hpipe).1 hnum),
          snd_zero (hsnd c) fun i _ _ _ hi => End.noConfusion (hf.once _ _ c hi hnum)]
      · rw [snd_one hf (hsnd c) hnum (by omega) hin (by rw [hpj]; exact (ends_of_number hpipe).2 hnum),
          fst_zero (hfst c) fun i _ _ hi => End.noConfusion (hf.once _ _ c hi hnum)]
    · rw [hstreams, h.streams]
      rcases hnum with hnum | hnum
      · exact stream_ne hf hw hnum st
      · exact stream_ne hf hw hnum st
  · have hno : ∀ x, env.number x ≠ some c := fun x hx => absurd hopen (by rw [hf.unused x c hx]; exact Bool.false_ne_true)
    rw [errorLoop_closes, h.closes, errorHits, fst_zero (hfst c) fun i _ _ => hno _, snd_zero (hsnd c) fun i _ _ _ => hno _]
  · rw [hstreams, h.streams]

/-! ### The child has been started -/

theorem distinct_of_started (hf : env.Fresh par) (hw : par.Streams) (hs : Started env par elems s)
    (hpairs : ∀ i, IsPipe elems i → ∃ p, env.pair i = some p) : Distinct elems s := by
  have hfst : ∀ i, IsPipe elems i → ∃ c, env.number (.parent i) = some c ∧ (s.pipes i).1 = c := by
    intro i hi
    obtain ⟨p, hp⟩ := hpairs i hi
    refine ⟨p.1, by rw [Env.number, hp, map_some], ?_⟩
    rw [hs.pipes, table, ends_pipe env par elems hi hp]
  refine ⟨fun i hi => ?_, fun i j hi hj heq => ?_, fun i hi st heq => ?_⟩
  · obtain ⟨c, -, hc⟩ := hfst i hi
    omega
  · obtain ⟨c, hci, hc⟩ := hfst i hi
    obtain ⟨c', hcj, hc'⟩ := hfst j hj
    rw [show c' = c by omega] at hcj
    have := hf.once _ _ c hci hcj
    injection this
  · obtain ⟨c, hci, hc⟩ := hfst i hi
    rw [hs.streams, hc] at heq
    exact stream_ne hf hw hci st heq

theorem snd_table (hr : ¬Replaced env elems) (hin : (elem elems i).inherits = false)
    (heq : (table env par elems i).2 = c) : (elem elems i).inherits = false ∧ (ends env par elems i).2 = c :=
  ⟨hin, by rw [← childEnd_eq hr hin]; exact heq⟩

theorem Opened.streams_of (h : Opened env elems s₀ j k s) {st : ℕ} {fd : ℤ} (hst : s.streams st = fd)
    (hne : s₀.streams st ≠ fd) : ∃ i, i < j ∧ elem elems i = .createPipe st ∧ (s₀.pipes i).1 = fd := by
  by_contra hno
  have hall : ∀ i, i < j → elem elems i ≠ .createPipe st := by
    intro i hi he
    exact hno ⟨i, hi, he, by rw [← h.mine i st hi he, hst]⟩
  exact hne (by rw [← h.other st hall, hst])

theorem Opened.inherited {st : ℕ} (h : Opened env elems s₀ j k s) (hstreams : s₀.streams = par.streams)
    (hinit : Initialises env par elems i) (he : elem elems i = .inheritStream st) (a : ℕ) (ha : a < j) :
    elem elems a ≠ .createPipe st := by
  intro hea
  rw [Initialises, he] at hinit
  exact h.opened a ha ⟨st, hea, .inl (by rw [hstreams]; exact hinit)⟩

theorem owned_of_opened (hf : env.Fresh par) (hw : par.Streams) (hr : ¬Replaced env elems)
    (hs : Started env par elems s₀) (hinit : ∀ i, i < elems.length → Initialises env par elems i)
    (h : Opened env elems s₀ elems.length elems.length s) : Owned par elems s := by
  have hclose : ∀ c, s.closes c =
      signalHits env c + hits (IsPipe elems) (fun i => (table env par elems i).2) c elems.length := by
    intro c
    rw [h.closes, hs.closes, hs.pipes]
  have hsnd : ∀ c : ℕ, ∀ i, IsPipe elems i → (table env par elems i).2 = c →
      (elem elems i).inherits = false ∧ (ends env par elems i).2 = c :=
    fun c i hi heq => snd_table hr (not_inherits hi) heq
  have hstream : ∀ (c : ℕ) (x : End) (st : ℕ), env.number x = some c → s.streams st = c →
      ∃ i, elem elems i = .createPipe st ∧ env.number (.parent i) = some c := by
    intro c x st hx hst
    obtain ⟨i, -, he, hfd⟩ := h.streams_of hst (by rw [hs.streams]; exact stream_ne hf hw hx st)
    rw [hs.pipes] at hfd
    exact ⟨i, he, (number_of_fst hfd).2⟩
  refine ⟨fun c hc => ?_, fun c hopen => ?_, fun i st he => ?_⟩
  · rw [h.created, hs.created] at hc
    rw [hclose]
    rcases hc with ⟨j, hpipe, hnum | hnum⟩ | hnum
    · -- A parent end: its stream has it.
      refine .inr ⟨?_, ?_⟩
      · rw [signalHits_zero ⟨fun h => End.noConfusion (hf.once _ _ c h hnum), fun h => End.noConfusion (hf.once _ _ c h hnum)⟩,
          snd_zero (hsnd c) fun i _ _ _ hi => End.noConfusion (hf.once _ _ c hi hnum)]
      · obtain ⟨st, he⟩ := (isPipe_iff elems j).mp hpipe
        refine ⟨st, ?_, fun st' hst' => ?_⟩
        · rw [h.mine j st (isPipe_lt elems hpipe) he, hs.pipes]
          exact (ends_of_number hpipe).1 hnum
        · obtain ⟨i, hei, hi⟩ := hstream c _ st' hnum hst'
          have := hf.once _ _ c hi hnum
          injection this with this
          subst this
          rw [he] at hei
          injection hei with hei
          exact hei.symm
    · -- A child end: it has been closed.
      refine .inl ⟨?_, fun st hst => ?_⟩
      · rw [signalHits_zero ⟨fun h => End.noConfusion (hf.once _ _ c h hnum), fun h => End.noConfusion (hf.once _ _ c h hnum)⟩,
          snd_one hf (hsnd c) hnum (isPipe_lt elems hpipe) hpipe]
        rw [table, childEnd_eq hr (not_inherits hpipe)]
        exact (ends_of_number hpipe).2 hnum
      · obtain ⟨i, -, hi⟩ := hstream c _ st hnum hst
        exact End.noConfusion (hf.once _ _ c hi hnum)
    · -- An end of the error pipe.
      refine .inl ⟨?_, fun st hst => ?_⟩
      · rw [signalHits_one hf hnum, snd_zero (hsnd c) fun i _ _ _ hi => ?_]
        rcases hnum with hnum | hnum
        · exact End.noConfusion (hf.once _ _ c hi hnum)
        · exact End.noConfusion (hf.once _ _ c hi hnum)
      · rcases hnum with hnum | hnum
        · obtain ⟨i, -, hi⟩ := hstream c _ st hnum hst
          exact End.noConfusion (hf.once _ _ c hi hnum)
        · obtain ⟨i, -, hi⟩ := hstream c _ st hnum hst
          exact End.noConfusion (hf.once _ _ c hi hnum)
  · have hno : ∀ x, env.number x ≠ some c := fun x hx => absurd hopen (by rw [hf.unused x c hx]; exact Bool.false_ne_true)
    rw [hclose, signalHits_zero ⟨hno _, hno _⟩, snd_zero (hsnd c) fun i _ _ _ => hno _]
  · have hlt : i < elems.length := lt_of_elem_ne elems (by rw [he]; exact Stdio.noConfusion)
    rw [h.other st (h.inherited hs.streams (hinit i hlt) he), hs.streams]

/-! ### A stream cannot be opened -/

/-- What is left in `pipes` when element `m` has failed. -/
def leftIn (env : Env) (par : Parent) (elems : List Stdio) (m i : ℕ) : ℤ :=
  if i < m + 1 ∧ IsPipe elems i then -1 else (table env par elems i).2

/-- What is closed, and what the streams have, when element `m` has failed. -/
structure Failed (env : Env) (par : Parent) (elems : List Stdio) (m : ℕ) (s : State) : Prop where
  closes : ∀ c, s.closes c =
    signalHits env c + hits (IsPipe elems) (fun i => (table env par elems i).2) c (m + 1) +
      hits (fun i => IsPipe elems i ∧ 2 < (table env par elems i).1) (fun i => (table env par elems i).1) c m +
      (hits (fun i => (elem elems i).inherits = false) (fun i => (table env par elems i).1) c (stdioCount elems) +
        hits (fun i => (elem elems i).inherits = false) (leftIn env par elems m) c (stdioCount elems))
  created : ∀ c, c ∈ s.created ↔ Created env elems c
  streams : ∀ st, s.streams st = -1 ∨ s.streams st = par.streams st
  inherited : (∀ i, i < elems.length → Initialises env par elems i) →
    ∀ i st, elem elems i = .inheritStream st → s.streams st = par.streams st

theorem failed_spec (hd : Distinct elems s₀) (hs : Started env par elems s₀)
    (h : Opened env elems s₀ m (m + 1) s) : Failed env par elems m (errorLoop elems (stdioCount elems) (closeStreams elems m s)) := by
  obtain ⟨-, hstreams, hcreated⟩ := errorLoop_frame elems (stdioCount elems) (closeStreams elems m s)
  have hcl : Closed elems s₀.pipes m s (closeStreams elems m s) := by
    refine closeStreams_spec (fun i st => h.mine i st) (fun i _ => hd.pos i) fun i j st hi hj hei hej => ?_
    rcases Nat.lt_trichotomy i j with hlt | heq | hlt
    · exact absurd ⟨st, hej, .inr (.inl ⟨i, hlt, hei⟩)⟩ (h.opened j hj)
    · exact heq
    · exact absurd ⟨st, hei, .inr (.inl ⟨j, hlt, hej⟩)⟩ (h.opened i hi)
  have hfst : (fun i => ((closeStreams elems m s).pipes i).1) = fun i => (table env par elems i).1 := by
    funext i
    rw [hcl.pipes, h.pipes, hs.pipes]
    split_ifs <;> rfl
  have hsnd : (fun i => ((closeStreams elems m s).pipes i).2) = leftIn env par elems m := by
    funext i
    rw [hcl.pipes, h.pipes, hs.pipes, leftIn]
    split_ifs <;> rfl
  refine ⟨fun c => ?_, fun c => ?_, fun st => ?_, fun hinit i st he => ?_⟩
  · rw [errorLoop_closes, hcl.closes, h.closes, hs.closes, hs.pipes, errorHits, hfst, hsnd]
  · rw [hcreated, hcl.created, h.created, hs.created]
  · rw [hstreams]
    by_cases hex : ∃ i, i < m ∧ elem elems i = .createPipe st
    · obtain ⟨i, hi, he⟩ := hex
      exact .inl (hcl.gone i st hi he)
    · have hall : ∀ i, i < m → elem elems i ≠ .createPipe st := fun i hi he => hex ⟨i, hi, he⟩
      rw [hcl.other st hall, h.other st hall, hs.streams]
      exact .inr rfl
  · have hlt : i < elems.length := lt_of_elem_ne elems (by rw [he]; exact Stdio.noConfusion)
    have hall := h.inherited hs.streams (hinit i hlt) he
    rw [hstreams, hcl.other st hall, h.other st hall, hs.streams]

theorem leftIn_eq (h : leftIn env par elems m i = c) :
    ¬(i < m + 1 ∧ IsPipe elems i) ∧ (table env par elems i).2 = c := by
  rw [leftIn] at h
  split_ifs at h with hi
  exact ⟨hi, h⟩

theorem owned_of_failed (hf : env.Fresh par) (hw : par.Streams) (hr : ¬Replaced env elems)
    (h : Failed env par elems m s) (hinit : ∀ i, i < elems.length → Initialises env par elems i)
    (hlow : ∀ j p, j < m → IsPipe elems j → env.pair j = some p → p.1 ≤ 2) : Owned par elems s := by
  have hn := le_stdioCount elems
  have hsnd : ∀ c : ℕ, ∀ i, IsPipe elems i → (table env par elems i).2 = c →
      (elem elems i).inherits = false ∧ (ends env par elems i).2 = c :=
    fun c i hi heq => snd_table hr (not_inherits hi) heq
  have hleft : ∀ c : ℕ, ∀ i, (elem elems i).inherits = false → leftIn env par elems m i = c →
      (elem elems i).inherits = false ∧ (ends env par elems i).2 = c :=
    fun c i hi heq => snd_table hr hi (leftIn_eq heq).2
  have hopened : ∀ c : ℕ,
      hits (fun i => IsPipe elems i ∧ 2 < (table env par elems i).1) (fun i => (table env par elems i).1) c m = 0 := by
    intro c
    refine hits_zero fun i hi hand heq => ?_
    obtain ⟨hpipe, hnum⟩ := number_of_fst heq
    obtain ⟨p, hp, -⟩ := map_eq_some_iff.mp hnum
    have hle := hlow i p hi hpipe hp
    have h2 := hand.2
    rw [table, ends_pipe env par elems hpipe hp] at h2
    omega
  have hstream : ∀ (c : ℕ) (x : End) (st : ℕ), env.number x = some c → s.streams st ≠ c := by
    intro c x st hx heq
    rcases h.streams st with hst | hst
    · omega
    · exact stream_ne hf hw hx st (by rw [← hst]; exact heq)
  refine ⟨fun c hc => ?_, fun c hopen => ?_, h.inherited hinit⟩
  · rw [h.created] at hc
    rw [h.closes, hopened]
    rcases hc with ⟨j, hpipe, hnum | hnum⟩ | hnum
    · -- A parent end: the loop at `error` closes it.
      refine .inl ⟨?_, fun st => hstream c _ st hnum⟩
      have hj := isPipe_lt elems hpipe
      rw [signalHits_zero ⟨fun h => End.noConfusion (hf.once _ _ c h hnum), fun h => End.noConfusion (hf.once _ _ c h hnum)⟩,
        snd_zero (hsnd c) fun i _ _ _ hi => End.noConfusion (hf.once _ _ c hi hnum),
        fst_one hf (y := fun i => (table env par elems i).1) (fun i _ heq => heq) hnum (by omega) (not_inherits hpipe)
          ((ends_of_number hpipe).1 hnum),
        snd_zero (hleft c) fun i _ _ _ hi => End.noConfusion (hf.once _ _ c hi hnum)]
    · -- A child end: it has been closed, or is left to that loop.
      refine .inl ⟨?_, fun st => hstream c _ st hnum⟩
      have hj := isPipe_lt elems hpipe
      have hend : (table env par elems j).2 = c := by
        rw [table, childEnd_eq hr (not_inherits hpipe)]
        exact (ends_of_number hpipe).2 hnum
      rw [signalHits_zero ⟨fun h => End.noConfusion (hf.once _ _ c h hnum), fun h => End.noConfusion (hf.once _ _ c h hnum)⟩,
        fst_zero (y := fun i => (table env par elems i).1) (fun i _ heq => heq) fun i _ _ hi =>
          End.noConfusion (hf.once _ _ c hi hnum)]
      by_cases hjm : j < m + 1
      · rw [snd_one hf (hsnd c) hnum hjm hpipe hend, snd_zero (hleft c) fun i _ _ heq hi => ?_]
        have := hf.once _ _ c hi hnum
        injection this with this
        subst this
        exact (leftIn_eq heq).1 ⟨hjm, hpipe⟩
      · rw [snd_zero (hsnd c) fun i hi _ _ hci => ?_, snd_one hf (hleft c) hnum (by omega) (not_inherits hpipe)]
        · rw [leftIn, if_neg fun hand => hjm hand.1]
          exact hend
        · have := hf.once _ _ c hci hnum
          injection this with this
          omega
    · -- An end of the error pipe.
      have hx : ∃ x, env.number x = some c ∧ (∀ i, x ≠ .parent i) ∧ ∀ i, x ≠ .child i := by
        rcases hnum with hnum | hnum
        · exact ⟨.read, hnum, fun _ => End.noConfusion, fun _ => End.noConfusion⟩
        · exact ⟨.write, hnum, fun _ => End.noConfusion, fun _ => End.noConfusion⟩
      obtain ⟨x, hxc, hparent, hchild⟩ := hx
      refine .inl ⟨?_, fun st => hstream c x st hxc⟩
      rw [signalHits_one hf hnum, snd_zero (hsnd c) fun i _ _ _ hi => hchild i (hf.once _ _ c hxc hi),
        fst_zero (y := fun i => (table env par elems i).1) (fun i _ heq => heq) fun i _ _ hi => hparent i (hf.once _ _ c hxc hi),
        snd_zero (hleft c) fun i _ _ _ hi => hchild i (hf.once _ _ c hxc hi)]
  · have hno : ∀ x, env.number x ≠ some c := fun x hx => absurd hopen (by rw [hf.unused x c hx]; exact Bool.false_ne_true)
    rw [h.closes, hopened, signalHits_zero ⟨hno _, hno _⟩, snd_zero (hsnd c) fun i _ _ _ => hno _,
      fst_zero (y := fun i => (table env par elems i).1) (fun i _ heq => heq) fun i _ _ => hno _,
      snd_zero (hleft c) fun i _ _ _ => hno _]

theorem not_owned_of_failed {p : ℕ × ℕ} (h : Failed env par elems m s) (hj : j < m)
    (hpipe : IsPipe elems j) (hp : env.pair j = some p) (h2 : 2 < p.1) : ¬Owned par elems s := by
  intro ho
  have hnum : env.number (.parent j) = some p.1 := by rw [Env.number, hp, map_some]
  have hend : (table env par elems j).1 = p.1 := (ends_of_number hpipe).1 hnum
  have hone : 0 < hits (fun i => IsPipe elems i ∧ 2 < (table env par elems i).1) (fun i => (table env par elems i).1) p.1 m :=
    hits_pos hj ⟨hpipe, by omega⟩ hend
  have htwo : 0 < hits (fun i => (elem elems i).inherits = false) (fun i => (table env par elems i).1) p.1 (stdioCount elems) :=
    hits_pos ((isPipe_lt elems hpipe).trans_le (le_stdioCount elems)) (not_inherits hpipe) hend
  have hcl := h.closes p.1
  rcases ho.created p.1 ((h.created _).mpr (.inl ⟨j, hpipe, .inl hnum⟩)) with ⟨h1, -⟩ | ⟨h0, -⟩
  · omega
  · omega

/-! ### A copy's number in the table -/

theorem replaced_snd (hf : env.Fresh par) {i' : ℕ} {err : ℤ} {p : ℕ × ℕ} (hs : env.spawn = .posixSpawn k err) (hi : i < k)
    (hpipe : IsPipe elems i) (hp : env.pair i = some p) (hlt : p.2 < i) (hin : (elem elems i').inherits = false) :
    (table env par elems i').2 ≠ p.2 := by
  have hnum : env.number (.child i) = some p.2 := by rw [Env.number, hp, map_some]
  have hii := isPipe_lt elems hpipe
  have hn := le_stdioCount elems
  intro heq
  rw [table] at heq
  rcases childEnd_cases env par elems i' with ⟨hsame, hno⟩ | ⟨hge, -⟩
  · rw [hsame] at heq
    have := hf.once _ _ p.2 (number_of_snd hin heq).2 hnum
    injection this with this
    refine hno ⟨k, err, hs, by omega, ?_⟩
    rw [Low]
    omega
  · omega

theorem not_owned_of_replaced (hf : env.Fresh par) (hr : Replaced env elems)
    (hcreated : ∀ c, c ∈ s.created ↔ Created env elems c)
    (hcloses : ∀ c, env.number .read ≠ some c → env.number .write ≠ some c → (∀ i, env.number (.parent i) ≠ some c) →
      (∀ i, (elem elems i).inherits = false → (table env par elems i).2 ≠ c) → s.closes c = 0)
    (hstreams : ∀ st (c : ℕ), s.streams st = c → (∀ x, env.number x = some c → ∃ i, x = .parent i)) : ¬Owned par elems s := by
  intro ho
  obtain ⟨k, err, hs, i, p, hi, hpipe, hp, hlt⟩ := hr
  have hnum : env.number (.child i) = some p.2 := by rw [Env.number, hp, map_some]
  have h0 := hcloses p.2 (fun h => End.noConfusion (hf.once _ _ _ h hnum)) (fun h => End.noConfusion (hf.once _ _ _ h hnum))
    (fun j h => End.noConfusion (hf.once _ _ _ h hnum)) fun i' hin => replaced_snd hf hs hi hpipe hp hlt hin
  rcases ho.created p.2 ((hcreated _).mpr (.inl ⟨i, hpipe, .inr hnum⟩)) with ⟨h1, -⟩ | ⟨-, st, hst, -⟩
  · omega
  · obtain ⟨j, hj⟩ := hstreams st p.2 hst _ hnum
    cases hj

theorem owned_init : Owned par elems (State.init par) where
  created := fun _ h => absurd h not_mem_nil
  parents := fun _ _ => rfl
  inherited := fun _ _ _ => rfl

theorem owned_opened_iff (hf : env.Fresh par) (hw : par.Streams) (hs : Started env par elems s₀)
    (hinit : ∀ i, i < elems.length → Initialises env par elems i) (h : Opened env elems s₀ elems.length elems.length s) :
    Owned par elems s ↔ ¬Replaced env elems := by
  refine ⟨fun ho hr => ?_, fun hr => owned_of_opened hf hw hr hs hinit h⟩
  refine not_owned_of_replaced hf hr (fun c => by rw [h.created, hs.created]) (fun c hread hwrite hparent hne => ?_)
    (fun st c hst x hx => ?_) ho
  · rw [h.closes, hs.closes, hs.pipes, signalHits_zero ⟨hread, hwrite⟩, childHits, hits_zero fun i _ hi => hne i (not_inherits hi)]
  · obtain ⟨i, -, -, hfd⟩ := h.streams_of hst (by rw [hs.streams]; exact stream_ne hf hw hx st)
    rw [hs.pipes] at hfd
    exact ⟨i, hf.once _ _ c hx (number_of_fst hfd).2⟩

theorem owned_failed_iff (hf : env.Fresh par) (hw : par.Streams) (h : Failed env par elems m s)
    (hinit : ∀ i, i < elems.length → Initialises env par elems i) :
    Owned par elems s ↔ ¬Replaced env elems ∧ ∀ j p, j < m → IsPipe elems j → env.pair j = some p → p.1 ≤ 2 := by
  refine ⟨fun ho => ⟨fun hr => ?_, fun j p hj hpipe hp => ?_⟩, fun hand => owned_of_failed hf hw hand.1 h hinit hand.2⟩
  · refine not_owned_of_replaced hf hr h.created (fun c hread hwrite hparent hne => ?_) (fun st c hst x hx => ?_) ho
    · rw [h.closes, signalHits_zero ⟨hread, hwrite⟩, hits_zero fun i _ hi => hne i (not_inherits hi),
        fst_zero (y := fun i => (table env par elems i).1) (fun i _ heq => heq) fun i _ _ => hparent i,
        fst_zero (y := fun i => (table env par elems i).1) (fun i _ heq => heq) fun i _ _ => hparent i,
        hits_zero fun i _ hi heq => hne i hi (leftIn_eq heq).2]
    · rcases h.streams st with hst' | hst'
      · omega
      · exact absurd (by rw [← hst']; exact hst) (stream_ne hf hw hx st)
  · by_contra h2
    exact not_owned_of_failed h hj hpipe hp (by omega) ho

/-- When `uv_spawn` returns, every descriptor it made has an owner or has been closed once and nothing else has been touched,
exactly where the child was not started or neither defect was met. -/
theorem spawn_owned_iff (hf : env.Fresh par) (hw : par.Streams) {out : ℤ × State} (h : uvSpawn env par elems = some out) :
    Owned par elems out.2 ↔ (Starts env par elems → ¬Replaced env elems ∧ ¬ClosedTwice env par elems) := by
  rw [uvSpawn] at h
  dsimp only at h
  obtain ⟨m, hm, hend, hiff, hmade⟩ := initLoop_spec env par elems elems.length
  split_ifs at h with hmalloc hz
  · cases h
    exact ⟨fun _ hstart => absurd hmalloc hstart.1, fun _ => owned_init⟩
  · cases h
    exact ⟨fun _ hstart => absurd (hiff.mpr hstart.2) hz, fun _ => owned_of_made hf hw hm hmade⟩
  · have hz' := not_not.mp hz
    have hinit := hiff.mp hz'
    obtain rfl := hend hz'
    obtain ⟨q, hq, h⟩ := bind_eq_some_iff.mp h
    obtain ⟨o, ho, rfl⟩ := map_eq_some_iff.mp h
    have hs := spawnChild_spec hmade hq
    have hpairs : ∀ i, IsPipe elems i → ∃ p, env.pair i = some p := fun i hi => hmade.pairs i (isPipe_lt elems hi) hi
    have hd := distinct_of_started hf hw hs hpairs
    rcases openLoop_spec hd ho with ⟨hnone, hopened⟩ | ⟨a, e, hsome, ha, hpipe, hfails, hopened⟩
    · rw [hnone]
      refine (owned_opened_iff hf hw hs hinit hopened).trans ⟨fun hr _ => ⟨hr, ?_⟩, fun hand => (hand ⟨hmalloc, hinit⟩).1⟩
      rintro ⟨b, hb, -⟩
      obtain ⟨st, hst, -⟩ := id hb
      refine hopened.opened b (isPipe_lt elems ((isPipe_iff elems b).mpr ⟨st, hst⟩)) ?_
      rw [hs.streams]
      exact hb
    · rw [hsome]
      rw [hs.streams] at hfails
      have hbefore : ∀ i, i < a → ¬Fails env elems par.streams i := fun i hi => by rw [← hs.streams]; exact hopened.opened i hi
      refine (owned_failed_iff hf hw (failed_spec hd hs hopened) hinit).trans ⟨fun hand _ => ⟨hand.1, ?_⟩, fun hand => ?_⟩
      · rintro ⟨b, hb, hbb, j, p, hj, hpj, hp, h2⟩
        have hab : a = b := by
          rcases Nat.lt_trichotomy a b with hlt | heq | hlt
          · exact absurd hfails (hbb a hlt)
          · exact heq
          · exact absurd hb (hbefore b hlt)
        have := hand.2 j p (by omega) hpj hp
        omega
      · obtain ⟨hr, hct⟩ := hand ⟨hmalloc, hinit⟩
        refine ⟨hr, fun j p hj hpj hp => ?_⟩
        by_contra h2
        exact hct ⟨a, hfails, hbefore, j, p, hj, hpj, hp, by omega⟩

end

/-! ### A pipe, and a stream that is in use -/

/-- The pairs are 5 and 6, 7 and 8 and so on; the error pipe is 3 and 4. -/
def twoPipes : Env where
  socketpair := fun i => .ok (2 * i + 5, 2 * i + 6)
  spawn := .fork (some (3, 4)) 0

def busyParent : Parent where
  isOpen := fun fd => fd < 3
  streams := fun st => if st = 1 then 2 else -1
  namedPipe := fun _ => true

def End.inTwoPipes : End → ℕ
  | parent i => 2 * i + 5
  | child i => 2 * i + 6
  | read => 3
  | write => 4

theorem twoPipes_number (x : End) : twoPipes.number x = some x.inTwoPipes := by
  cases x <;> rfl

theorem twoPipes_fresh : twoPipes.Fresh busyParent where
  unused := by
    intro x c h
    rw [twoPipes_number] at h
    cases h
    refine decide_eq_false ?_
    cases x <;> simp only [End.inTwoPipes] <;> omega
  once := by
    intro x y c hx hy
    rw [twoPipes_number] at hx hy
    have heq := some.inj (hx.trans hy.symm)
    cases x <;> cases y <;> simp only [End.inTwoPipes] at heq <;> first | rfl | omega | (congr 1; omega)

theorem busyParent_streams : busyParent.Streams := by
  intro st
  by_cases h : st = 1
  · exact .inr ⟨2, if_pos h, rfl⟩
  · exact .inl (if_neg h)

/-- The stream of the second element is in use: the first one's is closed with 5, and 5 is closed again. -/
theorem closed_twice :
    (∃ out, uvSpawn twoPipes busyParent [.createPipe 0, .createPipe 1] = some out ∧ out.1 = UV_EBUSY ∧ out.2.closes 5 = 2) ∧
    ¬∀ out, uvSpawn twoPipes busyParent [.createPipe 0, .createPipe 1] = some out →
      Owned busyParent [.createPipe 0, .createPipe 1] out.2 := by
  refine ⟨⟨_, rfl, rfl, rfl⟩, fun h => ?_⟩
  have ho := h _ rfl
  rcases ho.created 5 (by decide) with ⟨h1, -⟩ | ⟨h0, -⟩
  · exact absurd h1 (by decide)
  · exact absurd h0 (by decide)

/-- With another stream there, both have their ends. -/
theorem spawn_owned_two : ∃ out, uvSpawn twoPipes busyParent [.createPipe 0, .createPipe 2] = some out ∧
    Owned busyParent [.createPipe 0, .createPipe 2] out.2 := by
  refine ⟨_, rfl, (spawn_owned_iff twoPipes_fresh busyParent_streams rfl).mpr fun _ => ⟨?_, ?_⟩⟩
  · rintro ⟨k, err, hs, -⟩
    cases hs
  · rintro ⟨m, ⟨st, hst, hor⟩, -⟩
    obtain rfl | rfl | hm : m = 0 ∨ m = 1 ∨ 2 ≤ m := by omega
    · cases hst
      rcases hor with hne | ⟨j, hj, -⟩ | hne
      · exact hne rfl
      · exact absurd hj (Nat.not_lt_zero _)
      · exact hne rfl
    · cases hst
      rcases hor with hne | ⟨j, hj, he⟩ | hne
      · exact hne rfl
      · rw [show j = 0 by omega] at he
        cases he
      · exact hne rfl
    · rw [elem_of_le _ hm] at hst
      cases hst

end Libuv.L2.SpawnOwnership
