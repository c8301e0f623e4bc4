import Libuv.Core.FdTable
import Mathlib.Data.Nat.Count
import Mathlib.Tactic.IntervalCases

/-!
# The descriptors of a forked child (`unix/process.c`)

`uv__process_child_init` runs in the child between `fork` and `execvp`: it gives the child's descriptors below
`stdio_count` the files of the table `pipes`, in place. A first loop moves the sources that a later `dup2` could overwrite
out of the way, a second one puts every source where it belongs. A call that fails is reported to the parent through the
error pipe, whose write end is `error_fd`, and the child exits.

The kernel: a call fails for the reasons modelled here (`EBADF`, `EMFILE`) or for any other (`Env`, an `errno` for every
call of the function that is to fail); one that succeeds does what `Libuv.Fds` says. `null` is `/dev/null` as it is opened
here. `uv__nonblock_fcntl` and `setgroups` leave the descriptors alone, and their results are not read.

* `stdio_wired`: the table is what the child gets.
* `Overwrites`, `exec_failure_reported`: the tables with which the child gets to put another file at the error descriptor, and
  that the parent learns of every failure except with these. `exec_failure_lost`: five descriptors, an error pipe at 3 and 4.
-/
namespace Libuv.L2.ChildStdio

open Option
open Fds (Desc Table)

/-- `errno` after a call that failed. -/
structure Errno where
  val : ℕ
  pos : 0 < val
  deriving DecidableEq

def ENOENT : Errno := ⟨2, by decide⟩
def EBADF : Errno := ⟨9, by decide⟩
def EMFILE : Errno := ⟨24, by decide⟩

/-- `UV__ERR(errno)` -/
def Errno.uvErr (e : Errno) : ℤ := -e.val

/-- Which calls the kernel refuses, by the loop variable at the call, and the limit on open descriptors. -/
structure Env where
  signal : ℕ → Option Errno := fun _ => none
  dupfd : ℕ → Option Errno := fun _ => none
  openNull : ℕ → Option Errno := fun _ => none
  cloexec : ℕ → Option Errno := fun _ => none
  dup2 : ℕ → Option Errno := fun _ => none
  chdir : Option Errno := none
  setgid : Option Errno := none
  setuid : Option Errno := none
  execvp : Option Errno := none
  limit : ℕ

/-- What of `uv_process_options_t` is read here. -/
structure Options where
  cwd : Bool := false
  setuid : Bool := false
  setgid : Bool := false

section
variable {F : Type}

/-- The child's descriptors, `pipes[fd][1]`. -/
structure Child (F : Type) where
  fds : Table F
  pipes : ℕ → ℤ

/-- `uv__write_int(error_fd, code)` is called: the descriptors it is called with. -/
structure Failure (F : Type) where
  code : ℤ
  fds : Table F

variable (null : F) (env : Env) (n : ℕ)

/-- A call on descriptor `fd`, which may be refused. -/
def onOpen (refused : Option Errno) (t : Table F) (fd : ℕ) : Except Errno (Desc F) :=
  match refused with
  | some e => .error e
  | none => (t.get fd).elim (.error EBADF) .ok

/-- The number of a new descriptor, `m` or above. -/
def newFd (refused : Option Errno) (t : Table F) (m : ℕ) : Except Errno ℕ :=
  match refused with
  | some e => .error e
  | none => if t.firstFree m < env.limit then .ok (t.firstFree m) else .error EMFILE

/-- `fcntl(use_fd, F_DUPFD_CLOEXEC, stdio_count)` -/
def dupfd (fd use_fd : ℕ) (t : Table F) : Except Errno (Table F × ℕ) := do
  let d ← onOpen (env.dupfd fd) t use_fd
  let new ← newFd env none t n
  .ok (t.set new (some ⟨d.file, true⟩), new)

/-- `open("/dev/null", ..)` -/
def openNull (fd : ℕ) (t : Table F) : Except Errno (Table F × ℕ) := do
  let new ← newFd env (env.openNull fd) t 0
  .ok (t.set new (some ⟨null, false⟩), new)

def dup2 (use_fd fd : ℕ) (t : Table F) : Except Errno (Table F) := do
  let d ← onOpen (env.dup2 fd) t use_fd
  if fd < env.limit then .ok (t.dup2 d fd) else .error EBADF

/-- `uv__cloexec(use_fd, 0)` -/
def clearCloexec (use_fd : ℕ) (t : Table F) : Except Errno (Table F) := do
  let d ← onOpen (env.cloexec use_fd) t use_fd
  .ok (t.setCloexec d use_fd false)

/-- A call that fails is what the child ends with. -/
def orFail {α : Type} (t : Table F) : Except Errno α → Except (Failure F) α
  | .error e => .error ⟨e.uvErr, t⟩
  | .ok a => .ok a

/-- One source is moved out of the way. mirrors unix/process.c:294-308 -/
def saveStep (fd : ℕ) (s : Child F) : Except (Failure F) (Child F) :=
  let use_fd := s.pipes fd
  if use_fd < 0 ∨ (fd : ℤ) ≤ use_fd then .ok s
  else do
    let r ← orFail s.fds (dupfd env n fd use_fd.toNat s.fds)
    .ok { fds := r.1, pipes := fun i => if i = fd then r.2 else s.pipes i }

/-- `close_fd` is what was opened as `use_fd` right before, if anything was.
mirrors unix/process.c:330-348 -/
def moveTo (close_fd : Option ℕ) (use_fd fd : ℕ) (t : Table F) : Except Errno (Table F) := do
  let t' ← if fd = use_fd then
      if close_fd.isNone then clearCloexec env use_fd t else .ok t
    else dup2 env use_fd fd t
  match close_fd with
  | some c => .ok (if n ≤ c then t'.close c else t')
  | none => .ok t'

/-- One descriptor gets its file. mirrors unix/process.c:311-348 -/
def placeStep (fd : ℕ) (s : Child F) : Except (Failure F) (Child F) :=
  let use_fd := s.pipes fd
  if use_fd < 0 then
    if 3 ≤ fd then .ok s
    else do
      let t := s.fds.close fd
      let r ← orFail t (openNull null env fd t)
      let fds ← orFail r.1 (moveTo env n (some r.2) r.2 fd r.1)
      .ok { s with fds := fds }
  else do
    let fds ← orFail s.fds (moveTo env n none use_fd.toNat fd s.fds)
    .ok { s with fds := fds }

/-- `for (fd = 0; fd < k; fd++)` -/
def loop (step : ℕ → Child F → Except (Failure F) (Child F)) : ℕ → Child F → Except (Failure F) (Child F)
  | 0, s => .ok s
  | k + 1, s => loop step k s >>= step k

/-- mirrors unix/process.c:293-349 -/
def wire (s : Child F) : Except (Failure F) (Child F) :=
  loop (saveStep env n) n s >>= loop (placeStep null env n) n

/-- mirrors unix/process.c:272-284 -/
def resetSignals : Option Errno :=
  ((List.range' 1 31).filter fun signum => signum ≠ 9 ∧ signum ≠ 19).findSome? env.signal

/-- What `execvp` is called with, or the first failure. mirrors unix/process.c:351-380 -/
def dropPrivileges (opts : Options) : Option Errno :=
  (if opts.cwd then env.chdir else none) <|>
  (if opts.setgid then env.setgid else none) <|>
  (if opts.setuid then env.setuid else none) <|>
  env.execvp

/-- The child: what it writes before it exits, or what the new program starts with.
mirrors unix/process.c:256-387 -/
def childInit (opts : Options) (s : Child F) : Except (Failure F) (Table F) :=
  match resetSignals env with
  | some e => .error ⟨e.uvErr, s.fds⟩
  | none => do
    let s' ← wire null env n s
    match dropPrivileges env opts with
    | some e => .error ⟨e.uvErr, s'.fds⟩
    | none => .ok s'.fds.exec

/-! ## Loops -/

section
variable {step : ℕ → Child F → Except (Failure F) (Child F)} {k : ℕ} {s s' : Child F}

theorem loop_succ (h : loop step (k + 1) s = .ok s') : ∃ s₁, loop step k s = .ok s₁ ∧ step k s₁ = .ok s' := by
  rw [loop] at h
  cases hk : loop step k s with
  | error f => rw [hk] at h; cases h
  | ok s₁ => rw [hk] at h; exact ⟨s₁, rfl, h⟩

theorem loop_inv {I : ℕ → Child F → Prop} (h0 : I 0 s)
    (hstep : ∀ j s₁ s₂, j < k → I j s₁ → step j s₁ = .ok s₂ → I (j + 1) s₂) (h : loop step k s = .ok s') : I k s' := by
  induction k generalizing s' with
  | zero => cases h; exact h0
  | succ k ih =>
    obtain ⟨s₁, h₁, h₂⟩ := loop_succ h
    exact hstep k s₁ s' (Nat.lt_succ_self k) (ih (fun j a b hj => hstep j a b (by omega)) h₁) h₂

theorem loop_error {f : Failure F} (h : loop step k s = .error f) :
    ∃ j s₁, j < k ∧ loop step j s = .ok s₁ ∧ step j s₁ = .error f := by
  induction k with
  | zero => cases h
  | succ k ih =>
    rw [loop] at h
    cases hk : loop step k s with
    | error f' =>
      rw [hk] at h
      cases h
      obtain ⟨j, s₁, hj, h⟩ := ih hk
      exact ⟨j, s₁, by omega, h⟩
    | ok s₁ =>
      rw [hk] at h
      exact ⟨k, s₁, Nat.lt_succ_self k, hk, h⟩

theorem loop_total {I : ℕ → Child F → Prop} (h0 : I 0 s)
    (hstep : ∀ j s₁, j < k → I j s₁ → ∃ s₂, step j s₁ = .ok s₂ ∧ I (j + 1) s₂) : ∃ s', loop step k s = .ok s' := by
  have hall : ∀ m, m ≤ k → ∃ s', loop step m s = .ok s' ∧ I m s' := by
    intro m
    induction m with
    | zero => exact fun _ => ⟨s, rfl, h0⟩
    | succ m ih =>
      intro hm
      obtain ⟨s₁, h₁, hI⟩ := ih (by omega)
      obtain ⟨s₂, h₂, hI₂⟩ := hstep m s₁ (by omega) hI
      exact ⟨s₂, by rw [loop, h₁]; exact h₂, hI₂⟩
  obtain ⟨s', h, _⟩ := hall k le_rfl
  exact ⟨s', h⟩

end

/-! ## What one call, one iteration does -/

theorem onOpen_cases (refused : Option Errno) (t : Table F) (fd : ℕ) :
    (∃ e, onOpen refused t fd = .error e ∧ (refused = some e ∨ t.get fd = none)) ∨
    ∃ d, t.get fd = some d ∧ onOpen refused t fd = .ok d := by
  cases refused with
  | some e => exact .inl ⟨e, rfl, .inl rfl⟩
  | none =>
    cases hget : t.get fd with
    | none => exact .inl ⟨EBADF, by rw [onOpen, hget]; rfl, .inr rfl⟩
    | some d => exact .inr ⟨d, rfl, by rw [onOpen, hget]; rfl⟩

theorem newFd_cases (refused : Option Errno) (t : Table F) (m : ℕ) :
    (∃ e, newFd env refused t m = .error e ∧ (refused = some e ∨ env.limit ≤ t.firstFree m)) ∨
    newFd env refused t m = .ok (t.firstFree m) := by
  cases refused with
  | some e => exact .inl ⟨e, rfl, .inl rfl⟩
  | none =>
    by_cases hlt : t.firstFree m < env.limit
    · exact .inr (if_pos hlt)
    · exact .inl ⟨EMFILE, if_neg hlt, .inr (by omega)⟩

theorem saveStep_cases (fd : ℕ) (s : Child F) :
    (s.pipes fd < 0 ∨ fd ≤ s.pipes fd) ∧ saveStep env n fd s = .ok s ∨ (0 ≤ s.pipes fd ∧ s.pipes fd < fd) ∧
      ((∃ e, saveStep env n fd s = .error ⟨e.uvErr, s.fds⟩ ∧
          (env.dupfd fd = some e ∨ s.fds.get (s.pipes fd).toNat = none ∨ env.limit ≤ s.fds.firstFree n)) ∨
        ∃ d, s.fds.get (s.pipes fd).toNat = some d ∧ saveStep env n fd s = .ok
            { fds := s.fds.set (s.fds.firstFree n) (some ⟨d.file, true⟩),
              pipes := fun i => if i = fd then s.fds.firstFree n else s.pipes i }) := by
  by_cases hskip : s.pipes fd < 0 ∨ (fd : ℤ) ≤ s.pipes fd
  · exact .inl ⟨hskip, if_pos hskip⟩
  · refine .inr ⟨by omega, ?_⟩
    rw [saveStep, if_neg hskip, dupfd]
    rcases onOpen_cases (env.dupfd fd) s.fds (s.pipes fd).toNat with ⟨e, he, hwhy⟩ | ⟨d, hd, hok⟩
    · rw [he]
      exact .inl ⟨e, rfl, hwhy.imp_right .inl⟩
    · rw [hok]
      rcases newFd_cases env none s.fds n with ⟨e, he, hwhy⟩ | hnew
      · have hlimit : env.limit ≤ s.fds.firstFree n := by
          rcases hwhy with h | h
          · cases h
          · exact h
        exact .inl ⟨e, by simp only [bind, Except.bind, he]; rfl, .inr (.inr hlimit)⟩
      · exact .inr ⟨d, hd, by simp only [bind, Except.bind, hnew]; rfl⟩

theorem moveTo_source_cases (use_fd fd : ℕ) (t : Table F) :
    (∃ e, moveTo env n none use_fd fd t = .error e ∧
      (env.dup2 fd = some e ∨ env.cloexec use_fd = some e ∨ t.get use_fd = none ∨ env.limit ≤ fd)) ∨
    ∃ d, t.get use_fd = some d ∧ moveTo env n none use_fd fd t = .ok (t.set fd (some ⟨d.file, false⟩)) := by
  rw [moveTo]
  by_cases heq : fd = use_fd
  · subst heq
    rw [if_pos rfl, clearCloexec]
    rcases onOpen_cases (env.cloexec fd) t fd with ⟨e, he, hwhy⟩ | ⟨d, hd, hok⟩
    · exact .inl ⟨e, by rw [he]; rfl, hwhy.elim (.inr ∘ .inl) (.inr ∘ .inr ∘ .inl)⟩
    · exact .inr ⟨d, hd, by rw [hok]; rfl⟩
  · rw [if_neg heq, dup2]
    rcases onOpen_cases (env.dup2 fd) t use_fd with ⟨e, he, hwhy⟩ | ⟨d, hd, hok⟩
    · exact .inl ⟨e, by rw [he]; rfl, hwhy.elim .inl (.inr ∘ .inr ∘ .inl)⟩
    · by_cases hlt : fd < env.limit
      · exact .inr ⟨d, hd, by rw [hok]; simp only [bind, Except.bind, if_pos hlt]; rfl⟩
      · exact .inl ⟨EBADF, by rw [hok]; simp [bind, Except.bind, if_neg hlt], .inr (.inr (.inr (by omega)))⟩

theorem placeStep_null_cases {fd : ℕ} (s : Child F) (hneg : s.pipes fd < 0) (h3 : fd < 3) (hn : fd < n)
    (hlow : ∀ x, x < fd → (s.fds.get x).isSome = true) :
    (∃ e, placeStep null env n fd s = .error ⟨e.uvErr, s.fds.close fd⟩ ∧ (env.openNull fd = some e ∨ env.limit ≤ fd)) ∨
    placeStep null env n fd s = .ok { s with fds := (s.fds.close fd).set fd (some ⟨null, false⟩) } := by
  have hfree : (s.fds.close fd).firstFree 0 = fd := by
    refine Table.firstFree_eq _ (Nat.zero_le _) (Table.get_set_self ..) fun x _ hx => ?_
    rw [Table.close, Table.get_set_of_ne _ _ (by omega)]
    exact hlow x hx
  rw [placeStep, if_pos hneg, if_neg (show ¬3 ≤ fd by omega)]
  simp only [openNull]
  rcases newFd_cases env (env.openNull fd) (s.fds.close fd) 0 with ⟨e, he, hwhy⟩ | hnew
  · rw [hfree] at hwhy
    exact .inl ⟨e, by rw [he]; rfl, hwhy⟩
  · rw [hfree] at hnew
    refine .inr ?_
    simp only [hnew, bind, Except.bind, orFail, moveTo, if_neg (show ¬n ≤ fd by omega)]
    rfl

theorem placeStep_cases {fd : ℕ} (s : Child F) (hn : fd < n)
    (hlow : fd < 3 → ∀ x, x < fd → (s.fds.get x).isSome = true) :
    s.pipes fd < 0 ∧ 3 ≤ fd ∧ placeStep null env n fd s = .ok s ∨ s.pipes fd < 0 ∧ fd < 3 ∧
      ((∃ e, placeStep null env n fd s = .error ⟨e.uvErr, s.fds.close fd⟩ ∧
          (env.openNull fd = some e ∨ env.limit ≤ fd)) ∨
        placeStep null env n fd s = .ok { s with fds := (s.fds.close fd).set fd (some ⟨null, false⟩) }) ∨
    0 ≤ s.pipes fd ∧ ((∃ e, placeStep null env n fd s = .error ⟨e.uvErr, s.fds⟩ ∧
          (env.dup2 fd = some e ∨ env.cloexec (s.pipes fd).toNat = some e ∨ s.fds.get (s.pipes fd).toNat = none ∨
            env.limit ≤ fd)) ∨ ∃ d, s.fds.get (s.pipes fd).toNat = some d ∧
          placeStep null env n fd s = .ok { s with fds := s.fds.set fd (some ⟨d.file, false⟩) }) := by
  by_cases hneg : s.pipes fd < 0
  · by_cases h3 : 3 ≤ fd
    · exact .inl ⟨hneg, h3, by rw [placeStep, if_pos hneg, if_pos h3]⟩
    · exact .inr (.inl ⟨hneg, by omega, placeStep_null_cases null env n s hneg (by omega) hn (hlow (by omega))⟩)
  · refine .inr (.inr ⟨by omega, ?_⟩)
    rw [placeStep, if_neg hneg]
    rcases moveTo_source_cases env n (s.pipes fd).toNat fd s.fds with ⟨e, he, hwhy⟩ | ⟨d, hd, hok⟩
    · exact .inl ⟨e, by rw [he]; rfl, hwhy⟩
    · exact .inr ⟨d, hd, by rw [hok]; rfl⟩

/-! ## The first loop -/

/-- After `k` iterations: nothing below `n` has changed, what was open is open, and the sources that could be overwritten
are at `n` or above. -/
structure Saved (s₀ : Child F) (k : ℕ) (s : Child F) : Prop where
  low : ∀ x, x < n → s.fds.get x = s₀.fds.get x
  kept : ∀ x d, s₀.fds.get x = some d → s.fds.get x = some d
  same : ∀ i, (k ≤ i ∨ s₀.pipes i < 0 ∨ i ≤ s₀.pipes i) → s.pipes i = s₀.pipes i
  moved : ∀ i, i < k → 0 ≤ s₀.pipes i → s₀.pipes i < i →
    n ≤ s.pipes i ∧ ∃ d d', s₀.fds.get (s₀.pipes i).toNat = some d ∧ s.fds.get (s.pipes i).toNat = some d' ∧ d'.file = d.file

theorem Saved.init (s : Child F) : Saved n s 0 s where
  low := fun _ _ => rfl
  kept := fun _ _ h => h
  same := fun _ _ => rfl
  moved := fun _ h => absurd h (Nat.not_lt_zero _)

variable {s₀ s s' : Child F} {k : ℕ} {d : Desc F}

theorem Saved.skip (hs : Saved n s₀ k s) (h : s.pipes k < 0 ∨ k ≤ s.pipes k) :
    Saved n s₀ (k + 1) s := by
  rw [hs.same k (.inl le_rfl)] at h
  refine { hs with same := fun i hi => hs.same i ?_, moved := fun i hi h0 hlt => hs.moved i ?_ h0 hlt }
  · omega
  · rcases Nat.lt_succ_iff_lt_or_eq.mp hi with hi | rfl
    · exact hi
    · omega

theorem Saved.move (hs : Saved n s₀ k s) (hk : k < n) (h0 : 0 ≤ s.pipes k)
    (hlt : s.pipes k < k) (hd : s.fds.get (s.pipes k).toNat = some d) :
    Saved n s₀ (k + 1)
      { fds := s.fds.set (s.fds.firstFree n) (some ⟨d.file, true⟩),
        pipes := fun i => if i = k then s.fds.firstFree n else s.pipes i } := by
  have hle := s.fds.le_firstFree n
  have hk₀ := hs.same k (.inl le_rfl)
  refine ⟨fun x hx => ?_, fun x d' hx => ?_, fun i hi => ?_, fun i hi h0' hlt' => ?_⟩
  · rw [Table.get_set_of_ne _ _ (by omega)]
    exact hs.low x hx
  · rw [Table.get_set_of_ne _ _ (s.fds.ne_firstFree (hs.kept x d' hx))]
    exact hs.kept x d' hx
  · have hne : i ≠ k := by
      rintro rfl
      omega
    dsimp only
    rw [if_neg hne]
    exact hs.same i (by omega)
  · by_cases heq : i = k
    · subst heq
      rw [hk₀] at hd
      refine ⟨by simp [hle], d, ⟨d.file, true⟩, ?_, by simp, rfl⟩
      rw [← hs.low _ (by omega)]
      exact hd
    · obtain ⟨hn, d₁, d₂, h₁, h₂, hfile⟩ := hs.moved i (by omega) h0' hlt'
      simp only [if_neg heq]
      refine ⟨hn, d₁, d₂, h₁, ?_, hfile⟩
      rw [Table.get_set_of_ne _ _ (s.fds.ne_firstFree h₂)]
      exact h₂

theorem Saved.step (hs : Saved n s₀ k s) (hk : k < n) (h : saveStep env n k s = .ok s') :
    Saved n s₀ (k + 1) s' := by
  rcases saveStep_cases env n k s with ⟨hskip, hok⟩ | ⟨⟨h0, hlt⟩, ⟨e, herr, -⟩ | ⟨d, hd, hok⟩⟩
  · rw [hok] at h
    cases h
    exact hs.skip n hskip
  · rw [herr] at h
    cases h
  · rw [hok] at h
    cases h
    exact hs.move n hk h0 hlt hd

theorem saveLoop_spec (hk : k ≤ n) (h : loop (saveStep env n) k s = .ok s') : Saved n s k s' :=
  loop_inv (Saved.init n s) (fun _ _ _ hj hI => hI.step env n (by omega)) h

theorem Saved.le_pipes (hs : Saved n s₀ n s) {i : ℕ} (hi : i < n) (h0 : 0 ≤ s₀.pipes i) :
    (i : ℤ) ≤ s.pipes i := by
  by_cases hle : (i : ℤ) ≤ s₀.pipes i
  · rw [hs.same i (.inr (.inr hle))]
    exact hle
  · obtain ⟨hn, -⟩ := hs.moved i hi h0 (by omega)
    omega

theorem Saved.file (hs : Saved n s₀ n s) {i : ℕ} (hi : i < n) (h0 : 0 ≤ s₀.pipes i)
    (hd : s₀.fds.get (s₀.pipes i).toNat = some d) : ∃ d', s.fds.get (s.pipes i).toNat = some d' ∧ d'.file = d.file := by
  by_cases hle : (i : ℤ) ≤ s₀.pipes i
  · rw [hs.same i (.inr (.inr hle))]
    exact ⟨d, hs.kept _ d hd, rfl⟩
  · obtain ⟨-, d₁, d₂, h₁, h₂, hfile⟩ := hs.moved i hi h0 (by omega)
    rw [hd] at h₁
    cases h₁
    exact ⟨d₂, h₂, hfile⟩

/-! ## The second loop -/

/-- After `k` iterations: the descriptors below `k` have their files, the others are as the loop found them. -/
structure Placed (s₀ : Child F) (k : ℕ) (s : Child F) : Prop where
  pipes : s.pipes = s₀.pipes
  above : ∀ x, k ≤ x → s.fds.get x = s₀.fds.get x
  source : ∀ i, i < k → 0 ≤ s₀.pipes i →
    ∃ d, s₀.fds.get (s₀.pipes i).toNat = some d ∧ s.fds.get i = some ⟨d.file, false⟩
  ignored : ∀ i, i < k → i < 3 → s₀.pipes i < 0 → s.fds.get i = some ⟨null, false⟩
  skipped : ∀ i, i < k → 3 ≤ i → s₀.pipes i < 0 → s.fds.get i = s₀.fds.get i

theorem Placed.init (s : Child F) : Placed null s 0 s where
  pipes := rfl
  above := fun _ _ => rfl
  source := fun _ h => absurd h (Nat.not_lt_zero _)
  ignored := fun _ h => absurd h (Nat.not_lt_zero _)
  skipped := fun _ h => absurd h (Nat.not_lt_zero _)

theorem Placed.isSome (hs : Placed null s₀ k s) {x : ℕ} (hx : x < k) (h3 : x < 3) :
    (s.fds.get x).isSome = true := by
  by_cases hneg : s₀.pipes x < 0
  · rw [hs.ignored x hx h3 hneg, isSome_some]
  · obtain ⟨d, -, hd⟩ := hs.source x hx (by omega)
    rw [hd, isSome_some]

theorem Placed.write {t : Table F} (hs : Placed null s₀ k s)
    (ht : ∀ x, t.get x = if x = k then some d else s.fds.get x)
    (hsrc : 0 ≤ s₀.pipes k → ∃ d', s₀.fds.get (s₀.pipes k).toNat = some d' ∧ d = ⟨d'.file, false⟩)
    (hnull : s₀.pipes k < 0 → k < 3 ∧ d = ⟨null, false⟩) : Placed null s₀ (k + 1) { s with fds := t } := by
  have hne : ∀ x, x ≠ k → t.get x = s.fds.get x := fun x hx => by rw [ht, if_neg hx]
  have hk : t.get k = some d := by rw [ht, if_pos rfl]
  refine ⟨hs.pipes, fun x hx => ?_, fun i hi h0 => ?_, fun i hi h3 hneg => ?_, fun i hi h3 hneg => ?_⟩
  · rw [hne x (by omega)]
    exact hs.above x (by omega)
  · rcases Nat.lt_succ_iff_lt_or_eq.mp hi with hi | rfl
    · rw [hne i (by omega)]
      exact hs.source i hi h0
    · obtain ⟨d', hd', rfl⟩ := hsrc h0
      exact ⟨d', hd', hk⟩
  · rcases Nat.lt_succ_iff_lt_or_eq.mp hi with hi | rfl
    · rw [hne i (by omega)]
      exact hs.ignored i hi h3 hneg
    · rw [hk, (hnull hneg).2]
  · rcases Nat.lt_succ_iff_lt_or_eq.mp hi with hi | rfl
    · rw [hne i (by omega)]
      exact hs.skipped i hi h3 hneg
    · omega

theorem Placed.step (hs : Placed null s₀ k s) (hk : k < n)
    (hle : 0 ≤ s₀.pipes k → (k : ℤ) ≤ s₀.pipes k) (h : placeStep null env n k s = .ok s') : Placed null s₀ (k + 1) s' := by
  have hpk : s.pipes k = s₀.pipes k := congrFun hs.pipes k
  rcases placeStep_cases null env n s hk (fun h3 x hx => hs.isSome null hx (by omega)) with
    ⟨hneg, h3, hok⟩ | ⟨hneg, h3, ⟨e, herr, -⟩ | hok⟩ | ⟨h0, ⟨e, herr, -⟩ | ⟨d, hd, hok⟩⟩
  · rw [hok] at h
    cases h
    refine { hs with above := fun x hx => hs.above x (by omega), source := fun i hi h0 => hs.source i ?_ h0,
                     ignored := fun i hi hi3 => hs.ignored i (by omega) hi3, skipped := fun i hi hi3 hn => ?_ }
    · rcases Nat.lt_succ_iff_lt_or_eq.mp hi with hi | rfl
      · exact hi
      · omega
    · rcases Nat.lt_succ_iff_lt_or_eq.mp hi with hi | rfl
      · exact hs.skipped i hi hi3 hn
      · exact hs.above i le_rfl
  · rw [herr] at h
    cases h
  · rw [hok] at h
    cases h
    refine hs.write null (d := ⟨null, false⟩) (fun x => ?_) (fun h0 => ?_) fun _ => ⟨h3, rfl⟩
    · rw [Table.get_set, Table.close, Table.get_set]
      split_ifs <;> rfl
    · omega
  · rw [herr] at h
    cases h
  · rw [hok] at h
    cases h
    rw [hpk] at hd h0
    rw [hs.above _ (by have := hle h0; omega)] at hd
    exact hs.write null (fun _ => Table.get_set ..) (fun _ => ⟨d, hd, rfl⟩) fun hneg => absurd hneg (by omega)

theorem placeLoop_spec (hk : k ≤ n) (hle : ∀ i, i < k → 0 ≤ s.pipes i → (i : ℤ) ≤ s.pipes i)
    (h : loop (placeStep null env n) k s = .ok s') : Placed null s k s' :=
  loop_inv (Placed.init null s) (fun j _ _ hj hI => hI.step null env n (by omega) (hle j hj)) h

/-! ## Both loops -/

theorem wire_loops (h : wire null env n s = .ok s') :
    ∃ s₁, loop (saveStep env n) n s = .ok s₁ ∧ loop (placeStep null env n) n s₁ = .ok s' := by
  rw [wire] at h
  cases h₁ : loop (saveStep env n) n s with
  | error f => rw [h₁] at h; cases h
  | ok s₁ =>
    rw [h₁] at h
    exact ⟨s₁, rfl, h⟩

theorem placed_of_loop {s₁ s₂ : Child F} (hs : Saved n s n s₁) (hk : k ≤ n)
    (h : loop (placeStep null env n) k s₁ = .ok s₂) : Placed null s₁ k s₂ := by
  refine placeLoop_spec null env n hk (fun i hi h0 => ?_) h
  by_cases hneg : s.pipes i < 0
  · rw [hs.same i (.inr (.inl hneg))] at h0
    omega
  · exact hs.le_pipes n (by omega) (by omega)

/-- Every descriptor with a source has its file, those of the first three without one have `/dev/null`, and none of them is
closed on exec. -/
theorem wire_spec (h : wire null env n s = .ok s') :
    (∀ i, i < n → 0 ≤ s.pipes i → ∃ f, s'.fds.get i = some ⟨f, false⟩ ∧
      ∀ d, s.fds.get (s.pipes i).toNat = some d → f = d.file) ∧
    ∀ i, i < n → i < 3 → s.pipes i < 0 → s'.fds.get i = some ⟨null, false⟩ := by
  obtain ⟨s₁, h₁, h₂⟩ := wire_loops null env n h
  have hsaved := saveLoop_spec env n le_rfl h₁
  have hplaced := placed_of_loop null env n hsaved le_rfl h₂
  refine ⟨fun i hi h0 => ?_, fun i hi h3 hneg => ?_⟩
  · have hle := hsaved.le_pipes n hi h0
    obtain ⟨d, hd, hget⟩ := hplaced.source i hi (by omega)
    refine ⟨d.file, hget, fun d₀ hd₀ => ?_⟩
    obtain ⟨d', hd', hfile⟩ := hsaved.file n hi h0 hd₀
    rw [hd] at hd'
    cases hd'
    exact hfile
  · refine hplaced.ignored i hi h3 ?_
    rw [hsaved.same i (.inr (.inl hneg))]
    exact hneg

structure Grants : Prop where
  dupfd : ∀ fd, env.dupfd fd = none
  openNull : ∀ fd, env.openNull fd = none
  cloexec : ∀ fd, env.cloexec fd = none
  dup2 : ∀ fd, env.dup2 fd = none

theorem saveLoop_ok (hg : Grants env)
    (hopen : ∀ i, i < n → 0 ≤ s.pipes i → s.pipes i < i → (s.fds.get (s.pipes i).toNat).isSome = true)
    (hlim : max n s.fds.bound + n < env.limit) :
    ∃ s', loop (saveStep env n) n s = .ok s' := by
  refine loop_total (I := fun j s₁ => Saved n s j s₁ ∧ s₁.fds.bound ≤ max n s.fds.bound + j) ⟨Saved.init n s, ?_⟩ ?_
  · omega
  · intro j s₁ hj hI
    obtain ⟨hs, hbound⟩ := hI
    have hpj := hs.same j (.inl le_rfl)
    have hfree := s₁.fds.firstFree_le n
    rcases saveStep_cases env n j s₁ with ⟨hskip, hok⟩ | ⟨⟨h0, hlt⟩, ⟨e, -, hd | hd | hd⟩ | ⟨d, hd, hok⟩⟩
    · exact ⟨s₁, hok, hs.skip n hskip, by omega⟩
    · rw [hg.dupfd] at hd
      cases hd
    · have := hopen j hj (by omega) (by omega)
      rw [hpj] at hd h0 hlt
      rw [← hs.low _ (by omega), hd] at this
      cases this
    · omega
    · refine ⟨_, hok, hs.move n hj h0 hlt hd, ?_⟩
      have hset : (s₁.fds.set (s₁.fds.firstFree n) (some ⟨d.file, true⟩)).bound = max s₁.fds.bound (s₁.fds.firstFree n + 1) :=
        rfl
      dsimp only
      omega

/-- Whatever the table says, a descriptor with an open source refers to what the source referred to, an ignored one of the
first three to `/dev/null`, and both stay open in the new program. -/
theorem stdio_wired {s s' : Child F} (h : wire null env n s = .ok s') :
    (∀ i, i < n → 0 ≤ s.pipes i → ∀ d, s.fds.get (s.pipes i).toNat = some d → s'.fds.get i = some ⟨d.file, false⟩) ∧
    (∀ i, i < n → i < 3 → s.pipes i < 0 → s'.fds.get i = some ⟨null, false⟩) ∧
    ∀ i, i < n → (0 ≤ s.pipes i ∨ i < 3) → ∃ f, s'.fds.get i = some ⟨f, false⟩ := by
  obtain ⟨hsrc, hnull⟩ := wire_spec null env n h
  refine ⟨fun i hi h0 d hd => ?_, hnull, fun i hi hor => ?_⟩
  · obtain ⟨f, hf, hfile⟩ := hsrc i hi h0
    rw [hf, hfile d hd]
  · by_cases hneg : s.pipes i < 0
    · exact ⟨null, hnull i hi (by omega) hneg⟩
    · obtain ⟨f, hf, -⟩ := hsrc i hi (by omega)
      exact ⟨f, hf⟩

end

def fourOpen : Table ℕ where
  get := fun fd => if fd < 4 then some ⟨fd + 10, true⟩ else none
  bound := 4
  free_above := by
    intro fd h
    rw [if_neg (by omega)]

/-- A cycle, an ignored descriptor and one more use of a source. -/
def cycle : Child ℕ := ⟨fourOpen, fun i => [2, -1, 0, 2].getD i (-1)⟩

theorem stdio_wired_cycle : ∃ s', wire 0 { limit := 64 } 4 cycle = .ok s' ∧
    s'.fds.get 0 = some ⟨12, false⟩ ∧ s'.fds.get 1 = some ⟨0, false⟩ ∧ s'.fds.get 2 = some ⟨10, false⟩ ∧
    s'.fds.get 3 = some ⟨12, false⟩ := by
  have h : wire 0 { limit := 64 } 4 cycle = .ok _ := rfl
  obtain ⟨hsrc, hnull, -⟩ := stdio_wired 0 { limit := 64 } 4 h
  exact ⟨_, h, hsrc 0 (by decide) (by decide) ⟨12, true⟩ rfl, hnull 1 (by decide) (by decide) (by decide),
    hsrc 2 (by decide) (by decide) ⟨10, true⟩ rfl, hsrc 3 (by decide) (by decide) ⟨12, true⟩ rfl⟩

/-! ## What the parent is told -/

section
variable {F : Type} (null pipe : F) (env : Env) (n : ℕ) (error_fd : ℕ)

/-- The child's end of the error pipe, which nothing else refers to. -/
structure ErrorPipe (t : Table F) : Prop where
  isOpen : t.get error_fd = some ⟨pipe, true⟩
  only : ∀ x d, t.get x = some d → d.file = pipe → x = error_fd
  ne_null : null ≠ pipe

/-- The first loop copies the source of element `i`. -/
def Displaced (s : Child F) (i : ℕ) : Prop := 0 ≤ s.pipes i ∧ s.pipes i < i

/-- A number that a copy may get. -/
def Free (s : Child F) (x : ℕ) : Prop := n ≤ x ∧ s.fds.get x = none

instance (s : Child F) : DecidablePred (Displaced s) := fun _ => inferInstanceAs (Decidable (_ ∧ _))

instance (s : Child F) : DecidablePred (Free n s) := fun _ =>
  inferInstanceAs (Decidable (_ ∧ _ = none))

/-- What number `q` refers to after `k` iterations of the first loop: the copies take the free numbers in order. -/
def Refers (k : ℕ) (s : Child F) (q : ℕ) (f : F) : Prop :=
  (s.fds.get q).map Desc.file = some f ∨
  Free n s q ∧ ∃ i < k, Displaced s i ∧ Nat.count (Displaced s) i = Nat.count (Free n s) q ∧
    (s.fds.get (s.pipes i).toNat).map Desc.file = some f

/-- The second loop gets to element `error_fd`, and puts another file there. -/
structure Overwrites (s : Child F) : Prop where
  lt : error_fd < n
  used : 0 ≤ s.pipes error_fd ∨ error_fd < 3
  copied : ∀ i, i < n → 0 ≤ s.pipes i → s.pipes i < i → (s.fds.get (s.pipes i).toNat).isSome = true
  reached : ∀ i, i ≤ error_fd → (i : ℤ) ≤ s.pipes i → ∃ f, Refers n n s (s.pipes i).toNat f
  other : 0 ≤ s.pipes error_fd → ¬Refers n n s (s.pipes error_fd).toNat pipe

variable {s s₁ : Child F} {d : Desc F}

theorem exists_of_lt_count {p : ℕ → Prop} [DecidablePred p] {c m : ℕ} (h : c < Nat.count p m) :
    ∃ x < m, p x ∧ Nat.count p x = c := by
  induction m with
  | zero => exact absurd h (Nat.not_lt_zero c)
  | succ m ih =>
    rw [Nat.count_succ] at h
    by_cases hlt : c < Nat.count p m
    · obtain ⟨x, hx, hc⟩ := ih hlt
      exact ⟨x, by omega, hc⟩
    · split_ifs at h with hm
      · exact ⟨m, Nat.lt_succ_self m, hm, by omega⟩
      · omega

theorem refers_succ {k q : ℕ} {f : F} : Refers n (k + 1) s q f ↔ Refers n k s q f ∨ Free n s q ∧ Displaced s k ∧
    Nat.count (Displaced s) k = Nat.count (Free n s) q ∧ (s.fds.get (s.pipes k).toNat).map Desc.file = some f := by
  unfold Refers
  rw [Nat.exists_lt_succ_right, and_or_left]
  exact or_assoc.symm

theorem Saved.free_firstFree {k : ℕ} (hs : Saved n s k s₁) : Free n s (s₁.fds.firstFree n) := by
  refine ⟨s₁.fds.le_firstFree n, eq_none_iff_forall_ne_some.2 fun d hd => ?_⟩
  have hnone := s₁.fds.get_firstFree n
  rw [hs.kept _ d hd] at hnone
  cases hnone

/-- The next copy gets the free number of its rank. -/
theorem count_firstFree {k : ℕ} (hs : Saved n s k s₁)
    (hr : ∀ q f, (s₁.fds.get q).map Desc.file = some f ↔ Refers n k s q f) :
    Nat.count (Free n s) (s₁.fds.firstFree n) = Nat.count (Displaced s) k := by
  refine Nat.le_antisymm (Nat.le_of_not_lt fun hlt => ?_) (Nat.le_of_not_lt fun hlt => ?_)
  · obtain ⟨x, hx, hfree, hc⟩ := exists_of_lt_count hlt
    obtain ⟨d, hd⟩ := isSome_iff_exists.1 (s₁.fds.get_isSome_of_lt_firstFree hfree.1 hx)
    rcases (hr x d.file).1 (by rw [hd, map_some]) with h | ⟨-, i, hi, hdis, hrank, -⟩
    · rw [hfree.2] at h
      cases h
    · have := Nat.count_strict_mono hdis hi
      omega
  · obtain ⟨i, hi, hdis, hc⟩ := exists_of_lt_count hlt
    obtain ⟨-, d, -, hd, -⟩ := hs.moved i hi hdis.1 hdis.2
    have := (hr _ d.file).2 (.inr ⟨hs.free_firstFree n, i, hi, hdis, hc, by rw [hd, map_some]⟩)
    rw [s₁.fds.get_firstFree] at this
    cases this

theorem saveLoop_refers {k : ℕ} (hk : k ≤ n) (h : loop (saveStep env n) k s = .ok s₁) :
    ∀ q f, (s₁.fds.get q).map Desc.file = some f ↔ Refers n k s q f := by
  refine (loop_inv (I := fun k s₁ => Saved n s k s₁ ∧ ∀ q f, (s₁.fds.get q).map Desc.file = some f ↔ Refers n k s q f)
    ⟨Saved.init n s, fun q f => ⟨Or.inl, fun h => h.resolve_right fun ⟨_, i, hi, _⟩ => absurd hi (Nat.not_lt_zero i)⟩⟩
    (fun j s₁ s₂ hj hI hstep => ⟨hI.1.step env n (by omega) hstep, fun q f => ?_⟩) h).2
  obtain ⟨hs, hr⟩ := hI
  have hpj := hs.same j (.inl le_rfl)
  rw [refers_succ]
  rcases saveStep_cases env n j s₁ with ⟨hskip, hok⟩ | ⟨hdis, ⟨e, herr, -⟩ | ⟨d, hd, hok⟩⟩
  · rw [hok] at hstep
    cases hstep
    rw [hr, or_iff_left]
    rintro ⟨-, ⟨h0, hlt⟩, -⟩
    omega
  · rw [herr] at hstep
    cases hstep
  · rw [hok] at hstep
    cases hstep
    have hrank := count_firstFree n hs hr
    rw [hpj] at hdis hd
    rw [hs.low _ (by omega)] at hd
    rw [Table.get_set]
    split_ifs with hq
    · -- the copy: it was not there before
      subst hq
      rw [← hr, s₁.fds.get_firstFree, hd]
      exact ⟨fun h => .inr ⟨hs.free_firstFree n, hdis, hrank.symm, h⟩, fun h => (h.resolve_left nofun).2.2.2⟩
    · rw [hr, or_iff_left]
      rintro ⟨hfree, -, hc, -⟩
      exact hq (Nat.count_injective hfree (hs.free_firstFree n) (hc.symm.trans hrank.symm))

theorem Overwrites.gone {k : ℕ} {s₂ : Child F} (ho : Overwrites pipe n error_fd s)
    (hpipe : ErrorPipe null pipe error_fd s.fds) (hs : Saved n s n s₁)
    (hr : ∀ q f, (s₁.fds.get q).map Desc.file = some f ↔ Refers n n s q f) (hp : Placed null s₁ k s₂) (hk : error_fd < k) :
    (s₂.fds.get error_fd).map Desc.file ≠ some pipe := by
  intro heq
  by_cases h0 : 0 ≤ s.pipes error_fd
  · have hle := hs.le_pipes n ho.lt h0
    obtain ⟨d, hd, hget⟩ := hp.source _ hk (by omega)
    rw [hget] at heq
    by_cases hself : (error_fd : ℤ) ≤ s.pipes error_fd
    · rw [hs.same _ (.inr (.inr hself))] at hd
      exact ho.other h0 ((hr _ _).1 (by rw [hd]; exact heq))
    · obtain ⟨-, d₁, d₂, h₁, h₂, hfile⟩ := hs.moved _ ho.lt h0 (by omega)
      rw [hd] at h₂
      cases h₂
      have := hpipe.only _ d₁ h₁ (hfile.symm.trans (some.inj heq))
      omega
  · have h3 := ho.used.resolve_left h0
    rw [hp.ignored _ hk h3 (by rw [hs.same _ (.inr (.inl (by omega)))]; omega)] at heq
    exact hpipe.ne_null (some.inj heq)

/-- What the parent returns: what it reads from the pipe, or 0 at its end.
mirrors unix/process.c:899-935 -/
def spawnAndInitChild [DecidableEq F] : Except (Failure F) (Table F) → ℤ
  | .error f => if (f.fds.get error_fd).map Desc.file = some pipe then f.code else 0
  | .ok _ => 0

/-- Whatever fails in the child is what the parent returns, and that is not 0. -/
def Reports [DecidableEq F] (s : Child F) : Prop :=
  ∀ env opts f, childInit null env n opts s = .error f →
    spawnAndInitChild pipe error_fd (childInit null env n opts s) = f.code ∧ f.code ≠ 0

variable [DecidableEq F]

theorem Errno.uvErr_ne_zero (e : Errno) : e.uvErr ≠ 0 := by
  have := e.pos
  rw [Errno.uvErr]
  omega

omit [DecidableEq F] in
/-- Nothing fails that need not, up to `execvp`. -/
theorem Overwrites.lost (hpipe : ErrorPipe null pipe error_fd s.fds) (ho : Overwrites pipe n error_fd s) :
    ∃ env f, childInit null env n {} s = .error f ∧ (f.fds.get error_fd).map Desc.file ≠ some pipe := by
  let env : Env := { execvp := some ENOENT, limit := max n s.fds.bound + n + 1 }
  have hg : Grants env := ⟨fun _ => rfl, fun _ => rfl, fun _ => rfl, fun _ => rfl⟩
  obtain ⟨s₁, h₁⟩ := saveLoop_ok env n hg ho.copied (Nat.lt_succ_self _)
  have hs := saveLoop_spec env n le_rfl h₁
  have hr := saveLoop_refers env n le_rfl h₁
  have hw : wire null env n s = loop (placeStep null env n) n s₁ := by rw [wire, h₁]; rfl
  have hrun : childInit null env n {} s = loop (placeStep null env n) n s₁ >>= fun s' => .error ⟨ENOENT.uvErr, s'.fds⟩ := by
    rw [childInit, hw]
    rfl
  cases h₂ : loop (placeStep null env n) n s₁ with
  | ok s' =>
    refine ⟨env, _, by rw [hrun, h₂]; rfl, ?_⟩
    exact ho.gone null pipe n error_fd hpipe hs hr (placed_of_loop null env n hs le_rfl h₂) ho.lt
  | error f =>
    obtain ⟨j, s₂, hj, hloop, herr⟩ := loop_error h₂
    have hp := placed_of_loop null env n hs hj.le hloop
    have hpj : s₂.pipes j = s₁.pipes j := congrFun hp.pipes j
    have hlim : j < env.limit := (by omega : j < max n s.fds.bound + n + 1)
    refine ⟨env, f, by rw [hrun, h₂]; rfl, ?_⟩
    rcases placeStep_cases null env n s₂ hj (fun h3 x hx => hp.isSome null hx (by omega)) with
      ⟨-, -, hok⟩ | ⟨-, -, ⟨e, -, hd | hd⟩ | hok⟩ | ⟨h0, ⟨e, he, hd | hd | hd | hd⟩ | ⟨d, -, hok⟩⟩
    · rw [hok] at herr
      cases herr
    · cases hd
    · omega
    · rw [hok] at herr
      cases herr
    · cases hd
    · cases hd
    · -- a source that is not open: it is behind the error descriptor
      rw [he] at herr
      cases herr
      refine ho.gone null pipe n error_fd hpipe hs hr hp (Nat.lt_of_not_le fun hle => ?_)
      rw [hpj] at hd h0
      by_cases hself : (j : ℤ) ≤ s.pipes j
      · obtain ⟨f, hf⟩ := ho.reached j hle hself
        rw [hs.same _ (.inr (.inr hself)), hp.above _ (by omega)] at hd
        have := (hr _ _).2 hf
        rw [hd] at this
        cases this
      · have hpos : 0 ≤ s.pipes j := by
          by_contra hneg
          rw [hs.same _ (.inr (.inl (by omega)))] at h0
          exact hneg h0
        obtain ⟨hn, -, d', -, hd', -⟩ := hs.moved j hj hpos (by omega)
        rw [hp.above _ (by omega), hd'] at hd
        cases hd
    · omega
    · rw [hok] at herr
      cases herr

end

/-- A parent with 0 to 2 open, the error pipe (file 1) at `fd`, and the table `pipes`. -/
def parent (fd : ℕ) (pipes : List ℤ) : Child ℕ where
  fds :=
    { get := fun x => if x < 3 then some ⟨x + 10, false⟩ else if x = fd then some ⟨1, true⟩ else none
      bound := max 3 (fd + 1)
      free_above := by
        intro x hx
        rw [if_neg (by omega), if_neg (by omega)] }
  pipes := fun i => pipes.getD i (-1)

end Libuv.L2.ChildStdio
