import Libuv.L1Data.QueueWalk
import Libuv.L2Loop.Handle

/-!
# Child processes (`unix/process.c`)

`uv__wait_children`: a first loop moves the children that have exited from
`loop->process_handles` to a list of its own, `pending`, and a second one takes them from there
and runs their callbacks. Both save the node behind the current one; between two
iterations of the second, the callback may close handles, which unlinks their nodes, and spawn. The
nodes and their pointers are those of `queue.h`.

A step is one iteration of a loop up to the callback, what follows the loop, the callback's return, or
a call of the API, made between runs of `uv__wait_children` or from a callback. An assertion that
fails has no result. `sigchld` is whether `UV_USE_SIGCHLD` is defined; without it the handles to wait
for are marked with `UV_HANDLE_REAP`. Pids are not used again here, so that they tell the children
apart; 0 stands for no child. `exited`, `turns`, `reports` and `closed` are what an observer writes
down: the children found exited, those the second loop has come to, the callbacks, and the children
whose handles were closed.

* `Inv`: where the node of every handle is, and what the second loop will still meet.
-/
namespace Libuv.L2.Process

open Libuv.L1 List Function
open Libuv.L1.Queue (Walk firstOr)
open Handle (Flags handleInit handleStart handleStop)

/-- The heads of `loop->process_handles` and `pending`, and the node in each handle. -/
inductive Node
  | handles
  | pending
  | process (p : ℕ)
  deriving DecidableEq

/-- What `WIFEXITED` and `WIFSIGNALED` tell apart. -/
inductive Status
  | exited (code : ℕ)
  | signaled (signum : ℕ)
  deriving DecidableEq

/-- What `waitpid` returns: 0, -1 with `ECHILD`, or the pid. -/
inductive Wait
  | notYet
  | missed
  | exited (status : Status)
  deriving DecidableEq

/-- mirrors unix/process.c:148-150 -/
def Status.exitStatus : Status → ℕ
  | exited code => code
  | signaled _ => 0

/-- mirrors unix/process.c:152-154 -/
def Status.termSignal : Status → ℕ
  | exited _ => 0
  | signaled signum => signum

/-- `uv_process_t`; `exitCb` is whether `exit_cb` is not null. -/
structure UvProcess where
  flags : Flags
  reap : Bool
  pid : ℕ
  status : Status
  exitCb : Bool
  deriving DecidableEq

structure Exit where
  pid : ℕ
  status : Status
  exitCb : Bool
  deriving DecidableEq

/-- A call of `exit_cb`, with the state of the handle. -/
structure Report where
  pid : ℕ
  exitStatus : ℕ
  termSignal : ℕ
  closing : Bool
  deriving DecidableEq

/-- Where `uv__wait_children` is, with the pointer it has saved. -/
inductive Pc
  | idle
  | reaping (q : Node)
  | walking (q : Node)
  | calling (q : Node)
  deriving DecidableEq

def Pc.isUser : Pc → Bool
  | idle => true
  | calling _ => true
  | _ => false

structure State where
  mem : Links Node
  handle : ℕ → Option UvProcess
  activeHandles : ℕ
  watching : Bool
  pc : Pc
  lastPid : ℕ
  exited : List Exit
  turns : List ℕ
  reports : List Report
  closed : List ℕ

namespace State
variable (s : State)

def setHandle (p : ℕ) (x : UvProcess) : State := { s with handle := Function.update s.handle p (some x) }

/-- `uv_spawn`; `stdio` is whether the pipes could be had, `exec` whether the child runs, `reap`
whether it has exited before `kevent` could watch it. What fails after that leaves the child where it is.
mirrors unix/process.c:951-1025 -/
def spawn (sigchld : Bool) (p : ℕ) (stdio exec reap exitCb : Bool) : State :=
  let s : State := { s with mem := Queue.init s.mem (.process p) }
  let x : UvProcess := ⟨handleInit, false, 0, .exited 0, false⟩
  if stdio = false then s.setHandle p x
  else
    let s : State := { s with watching := s.watching || sigchld }
    if exec = false then s.setHandle p x
    else
      let pid := s.lastPid + 1
      let (f, n) := handleStart x.flags s.activeHandles
      let s : State := { s with
        mem := Queue.insertTail s.mem .handles (.process p)
        activeHandles := n
        lastPid := pid }
      s.setHandle p ⟨f, !sigchld && reap, pid, x.status, exitCb⟩

/-- `uv_close` up to `uv__make_close_pending`.
mirrors unix/process.c:1075-1080 -/
def close (p : ℕ) : Option State := do
  let x ← s.handle p
  let mem := Queue.remove s.mem (.process p)
  let (f, n) := handleStop { x.flags with closing := true } s.activeHandles
  some { s with
    mem := mem
    handle := Function.update s.handle p (some { x with flags := f })
    activeHandles := n
    watching := if Queue.empty mem .handles then false else s.watching
    closed := s.closed ++ [x.pid] }

/-- `uv__finish_close`; what follows may use the memory for something else. -/
def finishClose (p : ℕ) : Option State := do
  let x ← s.handle p
  some { s with
    handle := Function.update s.handle p none
    activeHandles := (Handle.finishClose x.flags s.activeHandles).2 }

/-- `NOTE_EXIT` for a process.
mirrors unix/kqueue.c:290-299 -/
def noteExit (p : ℕ) : Option State := do
  let x ← s.handle p
  some (s.setHandle p { x with reap := true })

/-- mirrors unix/process.c:91-99 -/
def waitChildren : State :=
  { s with mem := Queue.init s.mem .pending, pc := .reaping (Queue.head s.mem .handles) }

/-- An iteration of the first loop, or what follows it; `r` is what `waitpid` returns when it is called.
mirrors unix/process.c:100-139 -/
def reap (sigchld : Bool) (r : Wait) : Node → Option State
  | .pending => none
  | .handles => some { s with pc := .walking (Queue.head s.mem .pending) }
  | .process p => do
    let x ← s.handle p
    let s : State := { s with pc := .reaping (s.mem.next (.process p)) }
    if sigchld = false ∧ x.reap = false then some s
    else
      let x : UvProcess := { x with reap := sigchld && x.reap }
      match r with
      | .notYet => if sigchld then some (s.setHandle p x) else none
      | .missed => some (s.setHandle p x)
      | .exited status =>
        let s : State := { s with
          mem := Queue.insertTail (Queue.remove s.mem (.process p)) .pending (.process p)
          exited := s.exited ++ [⟨x.pid, status, x.exitCb⟩] }
        some (s.setHandle p { x with status := status })

/-- An iteration of the second loop up to the callback, or what follows it.
mirrors unix/process.c:140-159 -/
def next : Node → Option State
  | .handles => none
  | .pending => if Queue.empty s.mem .pending then some { s with pc := .idle } else none
  | .process p => do
    let x ← s.handle p
    let q := s.mem.next (.process p)
    let (f, n) := handleStop x.flags s.activeHandles
    let s : State := { s with
      mem := Queue.init (Queue.remove s.mem (.process p)) (.process p)
      handle := Function.update s.handle p (some { x with flags := f })
      activeHandles := n
      turns := s.turns ++ [x.pid] }
    if x.exitCb = false then some { s with pc := .walking q }
    else
      some { s with
        pc := .calling q
        reports := s.reports ++ [⟨x.pid, x.status.exitStatus, x.status.termSignal, f.isClosing⟩] }

end State

inductive Label
  | spawn (p : ℕ) (stdio exec reap exitCb : Bool)
  | close (p : ℕ)
  | finishClose (p : ℕ)
  | noteExit (p : ℕ)
  | waitChildren
  | reap (r : Wait)
  | next
  | ret
  deriving DecidableEq

/-- `uv_spawn` is given memory that is not in use and `uv_close` a handle that is not being
closed; a blocking `waitpid` does not return 0. -/
def enabled (sigchld : Bool) (s : State) : Label → Bool
  | .spawn p .. => s.pc.isUser && (s.handle p).isNone
  | .close p => s.pc.isUser && (s.handle p).any fun x => !x.flags.isClosing
  | .finishClose p => s.pc = .idle && (s.handle p).any fun x => x.flags.isClosing
  | .noteExit p => !sigchld && s.pc = .idle && (s.handle p).isSome
  | .waitChildren => s.pc = .idle
  | .reap r => (sigchld || r ≠ .notYet) && match s.pc with | .reaping _ => true | _ => false
  | .next => match s.pc with | .walking _ => true | _ => false
  | .ret => match s.pc with | .calling _ => true | _ => false

def step (sigchld : Bool) (s : State) : Label → Option State
  | .spawn p stdio exec reap exitCb => some (s.spawn sigchld p stdio exec reap exitCb)
  | .close p => s.close p
  | .finishClose p => s.finishClose p
  | .noteExit p => s.noteExit p
  | .waitChildren => some s.waitChildren
  | .reap r =>
    match s.pc with
    | .reaping q => s.reap sigchld r q
    | _ => none
  | .next =>
    match s.pc with
    | .walking q => s.next q
    | _ => none
  | .ret =>
    match s.pc with
    | .calling q => some { s with pc := .walking q }
    | _ => none

/-- A loop that was initialised and has no children. -/
def initial : State :=
  ⟨Queue.init ⟨id, id⟩ .handles, fun _ => none, 0, false, .idle, 0, [], [], [], []⟩

def system (sigchld : Bool) : LTS State Label where
  init s := s = initial
  step s l t := enabled sigchld s l ∧ step sigchld s l = some t

/-- The handle's node is the first on `pending` and it has a callback: its turn is next. -/
def State.isNext (s : State) (p : ℕ) : Bool :=
  s.mem.prev (.process p) = .pending && (s.handle p).any fun x => x.exitCb

/-- No callback closes the handle whose turn is next. -/
def Spares (s : State) : Label → Prop
  | .close p => s.isNext p = false
  | _ => True

instance (s : State) (l : Label) : Decidable (Spares s l) := by
  cases l <;> unfold Spares <;> infer_instance

theorem State.close_eq {s : State} {p : ℕ} {x : UvProcess} (hx : s.handle p = some x) :
    s.close p = some { s with
      mem := Queue.remove s.mem (.process p)
      handle := update s.handle p
        (some { x with flags := (handleStop { x.flags with closing := true } s.activeHandles).1 })
      activeHandles := (handleStop { x.flags with closing := true } s.activeHandles).2
      watching := if Queue.empty (Queue.remove s.mem (.process p)) .handles then false else s.watching
      closed := s.closed ++ [x.pid] } := by
  unfold State.close
  rw [hx]
  rfl

/-! ## Where the nodes are -/

structure View where
  pid : ℕ
  status : Status
  exitCb : Bool
  closing : Bool
  deriving DecidableEq

def UvProcess.view (x : UvProcess) : View := ⟨x.pid, x.status, x.exitCb, x.flags.isClosing⟩

def View.exit (v : View) : Exit := ⟨v.pid, v.status, v.exitCb⟩

def Exit.report (e : Exit) (closing : Bool) : Report := ⟨e.pid, e.status.exitStatus, e.status.termSignal, closing⟩

namespace State

def view (s : State) (p : ℕ) : Option View := (s.handle p).map UvProcess.view

/-- The handle has a child that has not been found exited, and is not closed. -/
def running (s : State) (p : ℕ) : Prop :=
  ∃ v, s.view p = some v ∧ v.closing = false ∧ v.pid ≠ 0 ∧ v.pid ∉ s.exited.map Exit.pid

/-- The child was found exited, and the second loop has not come to it. -/
def due (s : State) (p : ℕ) (closing : Bool) : Prop :=
  ∃ v, s.view p = some v ∧ v.closing = closing ∧ v.exit ∈ s.exited ∧ v.pid ∉ s.turns

end State

/-- The children and what the observer has written down. -/
structure Table (s : State) : Prop where
  pid_le : ∀ p v, s.view p = some v → v.pid ≤ s.lastPid
  pid_inj : ∀ p p' v v', s.view p = some v → s.view p' = some v' → v.pid = v'.pid → v.pid ≠ 0 → p = p'
  exited_once : (s.exited.map Exit.pid).Nodup
  exited_le : ∀ e ∈ s.exited, e.pid ≠ 0 ∧ e.pid ≤ s.lastPid
  turns_once : s.turns.Nodup
  turns_exited : ∀ c ∈ s.turns, c ∈ s.exited.map Exit.pid
  reports_turns : (s.reports.map Report.pid).Sublist s.turns
  reports_exited : ∀ r ∈ s.reports, ∃ e ∈ s.exited, ∃ b, r = e.report b
  reported : ∀ e ∈ s.exited, e.pid ∈ s.turns → e.exitCb = true → ∃ b, e.report b ∈ s.reports

/-- `l` is on `process_handles`; the second loop will meet `stale` and then `live`, which is
on `pending`. -/
structure Place (s : State) (l stale live : List ℕ) : Prop where
  ring : Ring s.mem .handles (l.map .process)
  mem_l : ∀ p, p ∈ l ↔ s.running p
  live_due : ∀ p ∈ live, s.due p false
  stale_due : ∀ p ∈ stale, s.due p true
  alone : ∀ p v, s.view p = some v → v.closing = false → p ∉ l → p ∉ live →
    s.mem.next (.process p) = .process p ∧ s.mem.prev (.process p) = .process p
  account : ∀ e ∈ s.exited, e.pid ∉ s.turns → e.pid ∉ s.closed → ∃ p ∈ live, ∃ v, s.view p = some v ∧ v.pid = e.pid
  pc : match s.pc with
    | .idle => stale = [] ∧ live = []
    | .reaping q => stale = [] ∧ Ring s.mem .pending (live.map .process) ∧
      ∃ l₁ l₂, l = l₁ ++ l₂ ∧ q = firstOr .handles (l₂.map .process)
    | .walking q => Walk s.mem .pending q (stale.map .process) (live.map .process)
    | .calling q => Walk s.mem .pending q (stale.map .process) (live.map .process)

structure Inv (s : State) (l stale live : List ℕ) : Prop extends Table s, Place s l stale live

variable {s t : State} {l stale live : List ℕ} {p p' : ℕ} {x y : UvProcess} {v : View} {q : Node} {b : Bool}

theorem process_injective : Function.Injective Node.process := fun _ _ h => by cases h; rfl

@[simp] theorem process_mem_map : Node.process p ∈ l.map Node.process ↔ p ∈ l :=
  mem_map_of_injective process_injective

theorem view_update (h : t.handle = update s.handle p (some y)) :
    t.view = update s.view p (some y.view) := by
  funext i
  unfold State.view
  rw [h]
  by_cases hi : i = p
  · rw [hi, update_self, update_self]
    rfl
  · rw [update_of_ne hi, update_of_ne hi]

theorem view_same (hx : s.handle p = some x) (h : t.handle = update s.handle p (some y))
    (hv : y.view = x.view) : t.view = s.view := by
  rw [view_update h, hv]
  refine update_eq_self_iff.2 ?_
  rw [State.view, hx]
  rfl

theorem view_of_handle (hx : s.handle p = some x) : s.view p = some x.view := by
  rw [State.view, hx]
  rfl

theorem handle_of_view (hv : s.view p = some v) : ∃ x, s.handle p = some x ∧ x.view = v :=
  Option.map_eq_some_iff.1 hv

theorem due_not_running (hp : s.due p b) : ¬ s.running p := by
  intro ⟨v, hv, _, _, hn⟩
  obtain ⟨v', hv', -, he, -⟩ := hp
  rw [hv] at hv'
  cases hv'
  exact hn (mem_map.2 ⟨_, he, rfl⟩)

theorem Table.pids (hs : Table s) (hv : ∀ i u, t.view i = some u → u.pid = 0 ∨ ∃ v, s.view i = some v ∧ v.pid = u.pid)
    (hp : s.lastPid ≤ t.lastPid) : (∀ i u, t.view i = some u → u.pid ≤ t.lastPid) ∧
      ∀ i j u u', t.view i = some u → t.view j = some u' → u.pid = u'.pid → u.pid ≠ 0 → i = j := by
  refine ⟨fun i u hu => ?_, fun i j u u' hu hu' heq hne => ?_⟩
  · rcases hv i u hu with h0 | ⟨v, hv, hpid⟩
    · rw [h0]
      exact Nat.zero_le _
    · rw [← hpid]
      exact (hs.pid_le i v hv).trans hp
  · rcases hv i u hu with h0 | ⟨v, hvi, hpid⟩
    · exact absurd h0 hne
    rcases hv j u' hu' with h0 | ⟨v', hvj, hpid'⟩
    · exact absurd (heq.trans h0) hne
    refine hs.pid_inj i j v v' hvi hvj ?_ ?_
    · rw [hpid, hpid', heq]
    · rwa [hpid]

theorem Table.congr (hs : Table s) (hv : ∀ i u, t.view i = some u → u.pid = 0 ∨ ∃ v, s.view i = some v ∧ v.pid = u.pid)
    (hp : t.lastPid = s.lastPid) (he : t.exited = s.exited) (ht : t.turns = s.turns) (hr : t.reports = s.reports) :
    Table t := by
  obtain ⟨hle, hinj⟩ := hs.pids hv hp.ge
  refine ⟨hle, hinj, ?_, ?_, ?_, ?_, ?_, ?_, ?_⟩
  · rw [he]; exact hs.exited_once
  · rw [he, hp]; exact hs.exited_le
  · rw [ht]; exact hs.turns_once
  · rw [ht, he]; exact hs.turns_exited
  · rw [hr, ht]; exact hs.reports_turns
  · rw [hr, he]; exact hs.reports_exited
  · rw [he, ht, hr]; exact hs.reported

theorem Table.same (hs : Table s) (hv : t.view = s.view) (hp : t.lastPid = s.lastPid) (he : t.exited = s.exited)
    (ht : t.turns = s.turns) (hr : t.reports = s.reports) : Table t :=
  hs.congr (fun _ u hu => .inr ⟨u, hv ▸ hu, rfl⟩) hp he ht hr

namespace Inv

theorem live_notMem (hs : Inv s l stale live) (hp : p ∈ live) : p ∉ l := fun h =>
  due_not_running (hs.live_due p hp) ((hs.mem_l p).1 h)

theorem congr (hs : Inv s l stale live) (hm : t.mem = s.mem) (hv : t.view = s.view) (hpc : t.pc = s.pc)
    (hp : t.lastPid = s.lastPid) (he : t.exited = s.exited) (ht : t.turns = s.turns) (hr : t.reports = s.reports)
    (hc : t.closed = s.closed) : Inv t l stale live := by
  have hrun : t.running = s.running := by
    funext i
    simp [State.running, hv, he]
  have hdue : t.due = s.due := by
    funext i c
    simp [State.due, hv, he, ht]
  refine ⟨hs.toTable.same hv hp he ht hr, ⟨?_, ?_, ?_, ?_, ?_, ?_, ?_⟩⟩
  · rw [hm]; exact hs.ring
  · rw [hrun]; exact hs.mem_l
  · rw [hdue]; exact hs.live_due
  · rw [hdue]; exact hs.stale_due
  · rw [hv, hm]; exact hs.alone
  · rw [he, ht, hc, hv]; exact hs.account
  · rw [hpc, hm]; exact hs.pc

end Inv

/-! ## The queues -/

theorem remove_handles {m : Links Node} (hr : Ring m .handles (l.map .process)) (hp : p ∈ l) :
    Ring (Queue.remove m (.process p)) .handles ((l.erase p).map .process) ∧
      ∀ n, n ≠ .handles → n ∉ l.map Node.process →
        (Queue.remove m (.process p)).next n = m.next n ∧ (Queue.remove m (.process p)).prev n = m.prev n := by
  have hnd : l.Nodup := List.Nodup.of_map _ (nodup_cons.1 hr.nodup).2
  obtain ⟨l₁, l₂, rfl⟩ := append_of_mem hp
  have hp₁ : p ∉ l₁ := fun h => (nodup_append.1 hnd).2.2 p h p (by simp) rfl
  rw [map_append] at hr
  rw [erase_append_right _ hp₁, erase_cons_head, map_append, map_append]
  refine ⟨Queue.remove_ring hr, fun n hn hnl => Queue.remove_away hr ?_⟩
  rw [mem_cons, not_or]
  exact ⟨hn, hnl⟩

theorem remove_alone {m : Links Node} {n : Node} (h1 : m.next n = n) (h2 : m.prev n = n) : Queue.remove m n = m := by
  have hn : Queue.setNext m n n = m := by
    unfold Queue.setNext
    rw [update_eq_self_iff.2 h1.symm]
  have hp : Queue.setPrev m n n = m := by
    unfold Queue.setPrev
    rw [update_eq_self_iff.2 h2.symm]
  simp [Queue.remove, h1, h2, hn, hp]

theorem init_away {m : Links Node} {n n' : Node} (h : n ≠ n') :
    (Queue.init m n').next n = m.next n ∧ (Queue.init m n').prev n = m.prev n := by
  simp [Queue.init, h]

theorem Place.user (hs : Place s l stale live) (hu : s.pc.isUser = true) :
    (s.pc = .idle ∧ stale = [] ∧ live = []) ∨
      ∃ q, s.pc = .calling q ∧ Walk s.mem .pending q (stale.map .process) (live.map .process) := by
  have hpc := hs.pc
  cases h : s.pc with
  | idle =>
    rw [h] at hpc
    exact .inl ⟨rfl, hpc⟩
  | calling q =>
    rw [h] at hpc
    exact .inr ⟨q, rfl, hpc⟩
  | reaping q | walking q =>
    rw [h] at hu
    cases hu

theorem Table.started (hs : Table s) {w : View} (hview : t.view = update s.view p (some w))
    (hw : w.pid = s.lastPid + 1) (hl : t.lastPid = s.lastPid + 1) (he : t.exited = s.exited) (ht : t.turns = s.turns)
    (hr : t.reports = s.reports) : Table t := by
  have hself : t.view p = some w := by rw [hview, update_self]
  have hother : ∀ {i}, i ≠ p → t.view i = s.view i := fun hi => by rw [hview, update_of_ne hi]
  refine ⟨fun i u hu => ?_, fun i j u u' hu hu' heq hne => ?_, ?_, fun e hex => ?_, ?_, ?_, ?_, ?_, ?_⟩
  · rw [hl]
    by_cases hi : i = p
    · rw [hi, hself] at hu
      cases hu
      exact hw.le
    · rw [hother hi] at hu
      exact (hs.pid_le i u hu).trans (Nat.le_succ _)
  · by_cases hi : i = p
    · by_cases hj : j = p
      · rw [hi, hj]
      · rw [hi, hself] at hu
        cases hu
        rw [hother hj] at hu'
        have := hs.pid_le j u' hu'
        omega
    · rw [hother hi] at hu
      by_cases hj : j = p
      · rw [hj, hself] at hu'
        cases hu'
        have := hs.pid_le i u hu
        omega
      · rw [hother hj] at hu'
        exact hs.pid_inj i j u u' hu hu' heq hne
  · rw [he]; exact hs.exited_once
  · rw [he] at hex
    have := hs.exited_le e hex
    rw [hl]
    exact ⟨this.1, this.2.trans (Nat.le_succ _)⟩
  · rw [ht]; exact hs.turns_once
  · rw [ht, he]; exact hs.turns_exited
  · rw [hr, ht]; exact hs.reports_turns
  · rw [hr, he]; exact hs.reports_exited
  · rw [he, ht, hr]; exact hs.reported

theorem Table.exited (hs : Table s) {w : View} (hv : s.view p = some v) (h0 : v.pid ≠ 0)
    (hnew : v.pid ∉ s.exited.map Exit.pid) (hview : t.view = update s.view p (some w)) (hw : w.pid = v.pid)
    (hl : t.lastPid = s.lastPid) (he : t.exited = s.exited ++ [w.exit]) (ht : t.turns = s.turns)
    (hr : t.reports = s.reports) : Table t := by
  have hsame : ∀ i u, t.view i = some u → u.pid = 0 ∨ ∃ v, s.view i = some v ∧ v.pid = u.pid := by
    intro i u hu
    rw [hview] at hu
    by_cases hi : i = p
    · rw [hi, update_self] at hu
      cases hu
      exact .inr ⟨v, hi ▸ hv, hw.symm⟩
    · rw [update_of_ne hi] at hu
      exact .inr ⟨u, hu, rfl⟩
  have hexits : t.exited.map Exit.pid = s.exited.map Exit.pid ++ [v.pid] := by
    rw [he, map_append, ← hw]
    rfl
  obtain ⟨hle, hinj⟩ := hs.pids hsame hl.ge
  refine ⟨hle, hinj, ?_, fun e hex => ?_, ?_, fun c hct => ?_, ?_, fun r hr' => ?_, fun e hex h1 h2 => ?_⟩
  · rw [hexits]
    refine nodup_append.2 ⟨hs.exited_once, nodup_singleton _, fun a ha b hb hab => ?_⟩
    rw [mem_singleton.1 hb] at hab
    exact hnew (hab ▸ ha)
  · rw [hl]
    rw [he] at hex
    rcases mem_append.1 hex with hex | hex
    · exact hs.exited_le e hex
    · rw [mem_singleton.1 hex]
      refine ⟨?_, ?_⟩
      · show w.pid ≠ 0
        rwa [hw]
      · show w.pid ≤ _
        rw [hw]
        exact hs.pid_le p v hv
  · rw [ht]; exact hs.turns_once
  · rw [ht] at hct
    rw [hexits]
    exact mem_append_left _ (hs.turns_exited c hct)
  · rw [hr, ht]; exact hs.reports_turns
  · rw [hr] at hr'
    obtain ⟨e, hex, b, hb⟩ := hs.reports_exited r hr'
    refine ⟨e, ?_, b, hb⟩
    rw [he]
    exact mem_append_left _ hex
  · rw [he] at hex
    rw [ht] at h1
    rw [hr]
    rcases mem_append.1 hex with hex | hex
    · exact hs.reported e hex h1 h2
    · rw [mem_singleton.1 hex] at h1
      exact absurd (hs.turns_exited _ h1) (by show w.pid ∉ _; rwa [hw])

theorem Table.turn (hs : Table s) (hex : v.exit ∈ s.exited) (hturn : v.pid ∉ s.turns) (hview : t.view = s.view)
    (hl : t.lastPid = s.lastPid) (he : t.exited = s.exited) (ht : t.turns = s.turns ++ [v.pid])
    (hr : t.reports = if v.exitCb then s.reports ++ [v.exit.report v.closing] else s.reports) : Table t := by
  refine ⟨?_, ?_, ?_, ?_, ?_, fun a ha => ?_, ?_, fun r hr' => ?_, fun e hex' h1 h2 => ?_⟩
  · rw [hview, hl]; exact hs.pid_le
  · rw [hview]; exact hs.pid_inj
  · rw [he]; exact hs.exited_once
  · rw [he, hl]; exact hs.exited_le
  · rw [ht]
    refine nodup_append.2 ⟨hs.turns_once, nodup_singleton _, fun a ha b hb hab => hturn ?_⟩
    rw [mem_singleton.1 hb] at hab
    exact hab ▸ ha
  · rw [ht] at ha
    rw [he]
    rcases mem_append.1 ha with ha | ha
    · exact hs.turns_exited a ha
    · rw [mem_singleton.1 ha]
      exact mem_map.2 ⟨_, hex, rfl⟩
  · rw [hr, ht]
    split
    · rw [map_append]
      exact hs.reports_turns.append (List.Sublist.refl _)
    · exact hs.reports_turns.trans (sublist_append_left _ _)
  · rw [he]
    rw [hr] at hr'
    split at hr'
    · rcases mem_append.1 hr' with h | h
      · exact hs.reports_exited r h
      · exact ⟨v.exit, hex, v.closing, mem_singleton.1 h⟩
    · exact hs.reports_exited r hr'
  · rw [he] at hex'
    rw [ht, mem_append, mem_singleton] at h1
    rw [hr]
    rcases h1 with h1 | h1
    · obtain ⟨b, hb⟩ := hs.reported e hex' h1 h2
      refine ⟨b, ?_⟩
      split
      · exact mem_append_left _ hb
      · exact hb
    · have heq : e = v.exit := inj_on_of_nodup_map hs.exited_once hex' hex h1
      rw [heq] at h2 ⊢
      refine ⟨v.closing, ?_⟩
      rw [if_pos (show v.exitCb = true from h2)]
      simp

/-! ## Calls of the API -/

section Close

/-- What `uv_close` changes besides the pointers. -/
structure Closed (p : ℕ) (v : View) (s t : State) : Prop where
  view : t.view = Function.update s.view p (some { v with closing := true })
  pc : t.pc = s.pc
  lastPid : t.lastPid = s.lastPid
  exited : t.exited = s.exited
  turns : t.turns = s.turns
  reports : t.reports = s.reports
  closed : t.closed = s.closed ++ [v.pid]

variable (hc : Closed p v s t)
include hc

theorem Closed.running_iff : t.running p' ↔ s.running p' ∧ p' ≠ p := by
  unfold State.running
  rw [hc.view, hc.exited]
  by_cases h : p' = p
  · simp [h]
  · simp [h]

theorem Closed.due_of_ne (h : p' ≠ p) : t.due p' b ↔ s.due p' b := by
  unfold State.due
  rw [hc.view, hc.exited, hc.turns, update_of_ne h]

theorem Closed.due_self (hv : s.view p = some v) (h : s.due p false) : t.due p true := by
  obtain ⟨u, hu, -, he, hn⟩ := h
  rw [hv] at hu
  cases hu
  refine ⟨{ v with closing := true }, ?_, rfl, ?_, ?_⟩
  · rw [hc.view, update_self]
  · rw [hc.exited]
    exact he
  · rw [hc.turns]
    exact hn

theorem Closed.table (hv : s.view p = some v) (hs : Table s) : Table t := by
  refine hs.congr (fun i u hu => ?_) hc.lastPid hc.exited hc.turns hc.reports
  rw [hc.view] at hu
  by_cases hi : i = p
  · subst hi
    rw [update_self] at hu
    cases hu
    exact .inr ⟨v, hv, rfl⟩
  · rw [update_of_ne hi] at hu
    exact .inr ⟨u, hu, rfl⟩

theorem Closed.view_of_open {u : View} (hu : t.view p' = some u) (hcl : u.closing = false) :
    p' ≠ p ∧ s.view p' = some u := by
  rw [hc.view] at hu
  by_cases hi : p' = p
  · subst hi
    rw [update_self] at hu
    cases hu
    cases hcl
  · rw [update_of_ne hi] at hu
    exact ⟨hi, hu⟩

theorem Closed.account (hv : s.view p = some v) (hs : Inv s l stale live) {live' : List ℕ} (hl : ∀ i ∈ live, i ≠ p → i ∈ live') :
    ∀ e ∈ t.exited, e.pid ∉ t.turns → e.pid ∉ t.closed → ∃ i ∈ live', ∃ u, t.view i = some u ∧ u.pid = e.pid := by
  intro e he hn hncl
  rw [hc.exited] at he
  rw [hc.turns] at hn
  rw [hc.closed, mem_append, mem_singleton, not_or] at hncl
  obtain ⟨i, hi, u, hu, hpid⟩ := hs.account e he hn hncl.1
  have hip : i ≠ p := by
    intro h
    rw [h, hv] at hu
    cases hu
    exact hncl.2 hpid.symm
  refine ⟨i, hl i hi hip, u, ?_, hpid⟩
  rw [hc.view, update_of_ne hip]
  exact hu

end Close

theorem not_mem_process (n : Node) (hn : n = .handles ∨ n = .pending) : n ∉ l.map Node.process := by
  intro h
  obtain ⟨i, -, rfl⟩ := mem_map.1 h
  rcases hn with h | h <;> cases h

theorem Place.nodup (hs : Place s l stale live) : l.Nodup :=
  List.Nodup.of_map _ (nodup_cons.1 hs.ring.nodup).2

theorem Inv.due_handle {i : ℕ} (hs : Inv s l stale live) (hi : i ∈ stale ++ live) : ∃ c, s.due i c := by
  rcases mem_append.1 hi with hi | hi
  · exact ⟨true, hs.stale_due i hi⟩
  · exact ⟨false, hs.live_due i hi⟩

theorem Inv.apart (hs : Inv s l stale live) {n : Node} (hn : n ∈ Node.pending :: (stale.map .process ++ live.map .process)) :
    n ≠ .handles ∧ n ∉ l.map Node.process := by
  rw [mem_cons, ← map_append] at hn
  rcases hn with rfl | hn
  · exact ⟨nofun, not_mem_process _ (.inr rfl)⟩
  · obtain ⟨i, hi, rfl⟩ := mem_map.1 hn
    refine ⟨nofun, ?_⟩
    rw [process_mem_map]
    obtain ⟨c, hc⟩ := hs.due_handle hi
    exact fun h => due_not_running hc ((hs.mem_l i).1 h)

theorem Inv.node_ne (hs : Inv s l stale live) (hp : ∀ c, ¬ s.due p c) {n : Node}
    (hn : n ∈ Node.pending :: (stale.map .process ++ live.map .process)) : n ≠ .process p := by
  rw [mem_cons, ← map_append] at hn
  rcases hn with rfl | hn
  · nofun
  · obtain ⟨i, hi, rfl⟩ := mem_map.1 hn
    obtain ⟨c, hd⟩ := hs.due_handle hi
    exact fun h => hp c (process_injective h ▸ hd)

theorem Inv.close_running (hs : Inv s l stale live) (hc : Closed p v s t) (hv : s.view p = some v)
    (hu : s.pc.isUser = true) (hp : p ∈ l) (hm : t.mem = Queue.remove s.mem (.process p)) :
    Inv t (l.erase p) stale live := by
  obtain ⟨hring, haway⟩ := remove_handles hs.ring hp
  have hne : ∀ {i}, i ∈ stale ++ live → i ≠ p := by
    intro i hi h
    obtain ⟨c, hd⟩ := hs.due_handle hi
    exact due_not_running hd ((hs.mem_l i).1 (h ▸ hp))
  rw [← hm] at hring haway
  refine ⟨hc.table hv hs.toTable, ⟨hring, fun i => ?_, fun i hi => ?_, fun i hi => ?_, fun i u hu ho hil hiv => ?_,
    hc.account hv hs fun i hi _ => hi, ?_⟩⟩
  · rw [hs.nodup.mem_erase_iff, hc.running_iff, hs.mem_l, and_comm]
  · exact (hc.due_of_ne (hne (mem_append_right _ hi))).2 (hs.live_due i hi)
  · exact (hc.due_of_ne (hne (mem_append_left _ hi))).2 (hs.stale_due i hi)
  · obtain ⟨hip, hu⟩ := hc.view_of_open hu ho
    have hil' : i ∉ l := fun h => hil ((hs.nodup.mem_erase_iff).2 ⟨hip, h⟩)
    obtain ⟨h1, h2⟩ := haway (.process i) nofun (by rwa [process_mem_map])
    rw [h1, h2]
    exact hs.alone i u hu ho hil' hiv
  · rw [hc.pc]
    rcases hs.user hu with ⟨hidle, h1, h2⟩ | ⟨q, hcall, hw⟩
    · rw [hidle]
      exact ⟨h1, h2⟩
    · rw [hcall]
      refine hw.congr (fun n hn => ?_) fun n hn => ?_
      · exact (haway n (hs.apart hn).1 (hs.apart hn).2).1
      · exact (haway n (hs.apart hn).1 (hs.apart hn).2).2

theorem Inv.apart' (hs : Inv s l stale live) {n : Node} (hn : n ∈ Node.handles :: l.map .process) :
    n ∉ Node.pending :: (stale.map .process ++ live.map .process) := by
  intro h
  obtain ⟨h1, h2⟩ := hs.apart h
  rcases mem_cons.1 hn with hn | hn
  · exact h1 hn
  · exact h2 hn

theorem Inv.close_pending (hs : Inv s l stale live) (hc : Closed p v s t) (hv : s.view p = some v)
    (hu : s.pc.isUser = true) (hp : p ∈ live) (hm : t.mem = Queue.remove s.mem (.process p)) :
    Inv t l (stale ++ if s.mem.prev (.process p) = .pending then [p] else []) (live.erase p) := by
  obtain ⟨-, -, h2⟩ | ⟨q, hcall, hw⟩ := hs.user hu
  · rw [h2] at hp
    cases hp
  have hpl := hs.live_notMem hp
  have hw' := hw.remove (process_mem_map.2 hp)
  have hnd : live.Nodup := List.Nodup.of_map _ (nodup_cons.1 hw.ring.nodup).2
  have haway : ∀ n, n ≠ .pending → n ∉ live.map Node.process → t.mem.next n = s.mem.next n ∧ t.mem.prev n = s.mem.prev n := by
    intro n hn hnl
    rw [hm]
    exact hw.remove_away (process_mem_map.2 hp) (by rw [mem_cons, not_or]; exact ⟨hn, hnl⟩)
  have hne : ∀ i ∈ stale, i ≠ p := by
    intro i hi h
    refine hw.disjoint (process_mem_map.2 hi) (mem_cons_of_mem _ (process_mem_map.2 hp)) (congrArg _ h)
  have hlive : ∀ {n}, n ∉ Node.pending :: (stale.map Node.process ++ live.map .process) →
      n ≠ .pending ∧ n ∉ live.map Node.process := by
    intro n hn
    rw [mem_cons, not_or, mem_append, not_or] at hn
    exact ⟨hn.1, hn.2.2⟩
  refine ⟨hc.table hv hs.toTable, ⟨?_, fun i => ?_, fun i hi => ?_, fun i hi => ?_, fun i u hu ho hil hiv => ?_,
    hc.account hv hs fun i hi hip => (hnd.mem_erase_iff).2 ⟨hip, hi⟩, ?_⟩⟩
  · refine hs.ring.congr (fun n hn => ?_) fun n hn => ?_
    · obtain ⟨h1, h2⟩ := hlive (hs.apart' hn)
      exact (haway n h1 h2).1
    · obtain ⟨h1, h2⟩ := hlive (hs.apart' hn)
      exact (haway n h1 h2).2
  · rw [hc.running_iff, ← hs.mem_l]
    exact ⟨fun h => ⟨h, fun e => hpl (e ▸ h)⟩, fun h => h.1⟩
  · obtain ⟨hip, hi⟩ := (hnd.mem_erase_iff).1 hi
    exact (hc.due_of_ne hip).2 (hs.live_due i hi)
  · rcases mem_append.1 hi with hi | hi
    · exact (hc.due_of_ne (hne i hi)).2 (hs.stale_due i hi)
    · have hip : i = p := by
        split at hi
        · exact mem_singleton.1 hi
        · cases hi
      rw [hip]
      exact hc.due_self hv (hs.live_due p hp)
  · obtain ⟨hip, hu⟩ := hc.view_of_open hu ho
    have hiv' : i ∉ live := fun h => hiv ((hnd.mem_erase_iff).2 ⟨hip, h⟩)
    obtain ⟨h1, h2⟩ := haway (.process i) nofun (by rwa [process_mem_map])
    rw [h1, h2]
    exact hs.alone i u hu ho hil hiv'
  · rw [hc.pc, hcall]
    have hmap : (live.map Node.process).erase (.process p) = (live.erase p).map .process :=
      (map_erase process_injective live).symm
    rw [hmap] at hw'
    rw [hm, map_append]
    split at hw'
    · rw [if_pos ‹_›]
      exact hw'
    · rw [if_neg ‹_›]
      exact hw'

theorem Inv.close_alone (hs : Inv s l stale live) (hc : Closed p v s t) (hv : s.view p = some v) (ho : v.closing = false)
    (hp : p ∉ l) (hp' : p ∉ live) (hm : t.mem = Queue.remove s.mem (.process p)) : Inv t l stale live := by
  obtain ⟨h1, h2⟩ := hs.alone p v hv ho hp hp'
  rw [remove_alone h1 h2] at hm
  have hne : ∀ i ∈ stale, i ≠ p := by
    intro i hi h
    obtain ⟨u, hu, hcl, -⟩ := hs.stale_due i hi
    rw [h, hv] at hu
    cases hu
    rw [ho] at hcl
    cases hcl
  refine ⟨hc.table hv hs.toTable, ⟨?_, fun i => ?_, fun i hi => ?_, fun i hi => ?_, fun i u hu ho hil hiv => ?_,
    hc.account hv hs fun i hi _ => hi, ?_⟩⟩
  · rw [hm]
    exact hs.ring
  · rw [hc.running_iff, ← hs.mem_l]
    exact ⟨fun h => ⟨h, fun e => hp (e ▸ h)⟩, fun h => h.1⟩
  · exact (hc.due_of_ne fun e => hp' (e ▸ hi)).2 (hs.live_due i hi)
  · exact (hc.due_of_ne (hne i hi)).2 (hs.stale_due i hi)
  · obtain ⟨-, hu⟩ := hc.view_of_open hu ho
    rw [hm]
    exact hs.alone i u hu ho hil hiv
  · rw [hc.pc, hm]
    exact hs.pc

theorem Inv.close (hs : Inv s l stale live) (hx : s.handle p = some x) (ho : x.flags.isClosing = false)
    (hu : s.pc.isUser = true) : ∃ t l' stale' live', s.close p = some t ∧ Inv t l' stale' live' ∧
      Closed p x.view s t ∧ ∀ i ∈ stale', i ∈ stale ∨ i = p ∧ s.mem.prev (.process p) = .pending := by
  have hv := view_of_handle hx
  obtain ⟨t, ht, hc, hm⟩ : ∃ t, s.close p = some t ∧ Closed p x.view s t ∧ t.mem = Queue.remove s.mem (.process p) := by
    refine ⟨_, s.close_eq hx, ⟨?_, rfl, rfl, rfl, rfl, rfl, rfl⟩, rfl⟩
    rw [view_update rfl]
    show update s.view p (some ⟨x.pid, x.status, x.exitCb, (handleStop _ _).1.isClosing⟩) = _
    rw [Handle.handleStop_isClosing]
    rfl
  by_cases hpl : p ∈ l
  · exact ⟨t, _, _, _, ht, hs.close_running hc hv hu hpl hm, hc, fun i hi => .inl hi⟩
  · by_cases hpv : p ∈ live
    · refine ⟨t, _, _, _, ht, hs.close_pending hc hv hu hpv hm, hc, fun i hi => ?_⟩
      rcases mem_append.1 hi with hi | hi
      · exact .inl hi
      · split at hi
        · exact .inr ⟨mem_singleton.1 hi, ‹_›⟩
        · cases hi
    · exact ⟨t, _, _, _, ht, hs.close_alone hc hv ho hpl hpv hm, hc, fun i hi => .inl hi⟩

theorem Inv.finishClose (hs : Inv s l stale live) (hx : s.handle p = some x) (ho : x.flags.isClosing = true)
    (hidle : s.pc = .idle) : ∃ t, s.finishClose p = some t ∧ Inv t l stale live ∧ t.reports = s.reports := by
  have hpc := hs.pc
  rw [hidle] at hpc
  obtain ⟨rfl, rfl⟩ := hpc
  let t : State := { s with
    handle := update s.handle p none
    activeHandles := (Handle.finishClose x.flags s.activeHandles).2 }
  have ht : s.finishClose p = some t := by
    unfold State.finishClose
    rw [hx]
    rfl
  have hsub : ∀ {i u}, t.view i = some u → i ≠ p ∧ s.view i = some u := by
    intro i u hu
    unfold State.view at hu ⊢
    by_cases hi : i = p
    · simp [t, hi] at hu
    · simp only [t, update_of_ne hi] at hu
      exact ⟨hi, hu⟩
  have hsame : ∀ {i}, i ≠ p → t.view i = s.view i := by
    intro i hi
    simp [State.view, t, update_of_ne hi]
  have hv := view_of_handle hx
  refine ⟨t, ht, ⟨hs.toTable.congr (fun i u hu => .inr ⟨u, (hsub hu).2, rfl⟩) rfl rfl rfl rfl, ⟨hs.ring, fun i => ?_, by simp,
    by simp, fun i u hu => hs.alone i u (hsub hu).2, fun e he h1 h2 => ?_, ?_⟩⟩, rfl⟩
  · rw [hs.mem_l]
    refine ⟨fun ⟨u, hu, hcl, hrest⟩ => ⟨u, ?_, hcl, hrest⟩, fun ⟨u, hu, hcl, hrest⟩ => ⟨u, (hsub hu).2, hcl, hrest⟩⟩
    rw [hsame ?_, hu]
    intro hi
    rw [hi, hv] at hu
    cases hu
    exact absurd hcl (by rw [show x.view.closing = true from ho]; nofun)
  · obtain ⟨i, hi, -⟩ := hs.account e he h1 h2
    cases hi
  · show match s.pc with | _ => _
    rw [hidle]
    exact ⟨rfl, rfl⟩

theorem Inv.noteExit (hs : Inv s l stale live) (hx : s.handle p = some x) :
    ∃ t, s.noteExit p = some t ∧ Inv t l stale live ∧ t.reports = s.reports ∧ t.view = s.view := by
  refine ⟨s.setHandle p { x with reap := true }, ?_, ?_, rfl, view_same hx rfl rfl⟩
  · unfold State.noteExit
    rw [hx]
    rfl
  · exact hs.congr rfl (view_same hx rfl rfl) rfl rfl rfl rfl rfl rfl

theorem view_none (h : s.handle p = none) : s.view p = none := by
  rw [State.view, h]
  rfl

theorem Inv.fresh (hs : Inv s l stale live) (hp : s.handle p = none) (hm : t.mem = Queue.init s.mem (.process p))
    (hh : t.handle = update s.handle p (some y)) (hy : y.pid = 0) (hpc : t.pc = s.pc)
    (hl : t.lastPid = s.lastPid) (he : t.exited = s.exited) (ht : t.turns = s.turns) (hr : t.reports = s.reports)
    (hc : t.closed = s.closed) : Inv t l stale live := by
  have hview := view_update hh
  have hnone := view_none hp
  have hsome : ∀ {i u}, s.view i = some u → i ≠ p ∧ t.view i = some u := by
    intro i u hu
    have hi : i ≠ p := by
      intro h
      rw [h, hnone] at hu
      cases hu
    refine ⟨hi, ?_⟩
    rw [hview, update_of_ne hi, hu]
  have hcase : ∀ {i u}, t.view i = some u → i = p ∧ u.pid = 0 ∨ i ≠ p ∧ s.view i = some u := by
    intro i u hu
    rw [hview] at hu
    by_cases hi : i = p
    · rw [hi, update_self] at hu
      cases hu
      exact .inl ⟨hi, hy⟩
    · rw [update_of_ne hi] at hu
      exact .inr ⟨hi, hu⟩
  have haway : ∀ n, n ≠ .process p → t.mem.next n = s.mem.next n ∧ t.mem.prev n = s.mem.prev n := by
    intro n hn
    rw [hm]
    exact init_away hn
  have hdue : ∀ {i c}, s.due i c → i ≠ p ∧ t.due i c := by
    intro i c ⟨u, hu, hcl, hex, hn⟩
    obtain ⟨h1, h2⟩ := hsome hu
    exact ⟨h1, u, h2, hcl, he ▸ hex, ht ▸ hn⟩
  have hrun : ∀ i, t.running i ↔ s.running i := by
    intro i
    unfold State.running
    rw [he]
    refine ⟨fun ⟨u, hu, hcl, hne, hn⟩ => ?_, fun ⟨u, hu, hrest⟩ => ⟨u, (hsome hu).2, hrest⟩⟩
    rcases hcase hu with ⟨-, h0⟩ | ⟨-, hu⟩
    · exact absurd h0 hne
    · exact ⟨u, hu, hcl, hne, hn⟩
  have hpl : ∀ i ∈ l, i ≠ p := by
    intro i hi
    obtain ⟨u, hu, -⟩ := (hs.mem_l i).1 hi
    exact (hsome hu).1
  have hnodes := fun n => hs.node_ne (fun c hd => (hdue hd).1 rfl) (n := n)
  have hring : ∀ n ∈ Node.handles :: l.map .process, n ≠ .process p := by
    intro n hn
    rcases mem_cons.1 hn with rfl | hn
    · nofun
    · obtain ⟨i, hi, rfl⟩ := mem_map.1 hn
      exact fun h => hpl i hi (process_injective h)
  have htable : Table t := by
    refine hs.toTable.congr (fun i u hu => ?_) hl he ht hr
    rcases hcase hu with ⟨-, h0⟩ | ⟨-, hu⟩
    · exact .inl h0
    · exact .inr ⟨u, hu, rfl⟩
  refine ⟨htable, ⟨?_, fun i => ?_, fun i hi => (hdue (hs.live_due i hi)).2, fun i hi => (hdue (hs.stale_due i hi)).2,
    fun i u hu ho hil hiv => ?_, fun e hex h1 h2 => ?_, ?_⟩⟩
  · exact hs.ring.congr (fun n hn => (haway n (hring n hn)).1) fun n hn => (haway n (hring n hn)).2
  · rw [hrun, hs.mem_l]
  · rcases hcase hu with ⟨rfl, -⟩ | ⟨hi, hu⟩
    · rw [hm]
      simp [Queue.init]
    · obtain ⟨h1, h2⟩ := haway (.process i) fun h => hi (process_injective h)
      rw [h1, h2]
      exact hs.alone i u hu ho hil hiv
  · rw [he] at hex
    rw [ht] at h1
    rw [hc] at h2
    obtain ⟨i, hi, u, hu, hpid⟩ := hs.account e hex h1 h2
    exact ⟨i, hi, u, (hsome hu).2, hpid⟩
  · have hwalk : ∀ q, Walk s.mem .pending q (stale.map .process) (live.map .process) →
        Walk t.mem .pending q (stale.map .process) (live.map .process) := by
      intro q hw
      exact hw.congr (fun n hn => (haway n (hnodes n hn)).1) fun n hn => (haway n (hnodes n hn)).2
    have := hs.pc
    rw [hpc]
    cases h : s.pc with
    | idle =>
      rw [h] at this
      exact this
    | walking q | calling q =>
      rw [h] at this
      exact hwalk q this
    | reaping q =>
      rw [h] at this
      obtain ⟨h1, h2, h3⟩ := this
      refine ⟨h1, h2.congr (fun n hn => (haway n (hnodes n ?_)).1) fun n hn => (haway n (hnodes n ?_)).2, h3⟩
      · simpa [h1] using hn
      · simpa [h1] using hn

theorem Inv.started (hs : Inv s l stale live) (hv : s.view p = some v) (h0 : v.pid = 0)
    (hu : s.pc.isUser = true) {w : View} (hview : t.view = update s.view p (some w))
    (hw : w.pid = s.lastPid + 1) (hwo : w.closing = false) (hm : t.mem = Queue.insertTail s.mem .handles (.process p))
    (hpc : t.pc = s.pc) (hl : t.lastPid = s.lastPid + 1) (he : t.exited = s.exited) (ht : t.turns = s.turns)
    (hr : t.reports = s.reports) (hc : t.closed = s.closed) : Inv t (l ++ [p]) stale live := by
  have hexit : ∀ {i c}, s.due i c → i ≠ p := by
    intro i c ⟨u, hui, _, hex, _⟩ h
    rw [h, hv] at hui
    cases hui
    exact (hs.exited_le _ hex).1 h0
  have hpl : p ∉ l := by
    intro h
    obtain ⟨u, hup, -, hne, -⟩ := (hs.mem_l p).1 h
    rw [hv] at hup
    cases hup
    exact hne h0
  have hnot : Node.process p ∉ Node.handles :: l.map .process := by
    rw [mem_cons, not_or, process_mem_map]
    exact ⟨nofun, hpl⟩
  have haway : ∀ n, n ≠ .process p → n ≠ .handles → n ∉ l.map Node.process →
      t.mem.next n = s.mem.next n ∧ t.mem.prev n = s.mem.prev n := by
    intro n h1 h2 h3
    rw [hm]
    exact Queue.insertTail_away hs.ring h1 (by rw [mem_cons, not_or]; exact ⟨h2, h3⟩)
  have hself : t.view p = some w := by rw [hview, update_self]
  have hother : ∀ {i}, i ≠ p → t.view i = s.view i := fun hi => by rw [hview, update_of_ne hi]
  have hdue : ∀ {i c}, s.due i c → t.due i c := by
    intro i c hd
    have hi := hexit hd
    obtain ⟨u, hu, hcl, hex, hn⟩ := hd
    exact ⟨u, (hother hi).trans hu, hcl, he ▸ hex, ht ▸ hn⟩
  have hnew : w.pid ∉ s.exited.map Exit.pid := by
    intro h
    obtain ⟨e, hex, hpid⟩ := mem_map.1 h
    have := (hs.exited_le e hex).2
    omega
  refine ⟨hs.toTable.started hview hw hl he ht hr, ⟨?_, fun i => ?_, fun i hi => hdue (hs.live_due i hi),
    fun i hi => hdue (hs.stale_due i hi), fun i u hu hio hil hiv => ?_, fun e hex h1 h2 => ?_, ?_⟩⟩
  · rw [hm, map_append]
    exact Queue.insertTail_ring hs.ring hnot
  · rw [mem_append, mem_singleton, hs.mem_l]
    unfold State.running
    rw [he]
    by_cases hi : i = p
    · subst hi
      refine ⟨fun _ => ⟨w, hself, hwo, ?_, hnew⟩, fun _ => .inr rfl⟩
      omega
    · rw [hother hi]
      exact ⟨fun h => h.resolve_right hi, .inl⟩
  · rw [mem_append, mem_singleton, not_or] at hil
    rw [hother hil.2] at hu
    obtain ⟨h1, h2⟩ := haway (.process i) (fun h => hil.2 (process_injective h)) nofun
      (by rw [process_mem_map]; exact hil.1)
    rw [h1, h2]
    exact hs.alone i u hu hio hil.1 hiv
  · rw [he] at hex
    rw [ht] at h1
    rw [hc] at h2
    obtain ⟨i, hi, u, hui, hpid⟩ := hs.account e hex h1 h2
    exact ⟨i, hi, u, (hother (hexit (hs.live_due i hi))).trans hui, hpid⟩
  · rw [hpc]
    rcases hs.user hu with ⟨hidle, h1, h2⟩ | ⟨q, hcall, hwalk⟩
    · rw [hidle]
      exact ⟨h1, h2⟩
    · rw [hcall]
      have hn := fun n => hs.node_ne (fun c hd => hexit hd rfl) (n := n)
      exact hwalk.congr (fun n h => (haway n (hn n h) (hs.apart h).1 (hs.apart h).2).1)
        fun n h => (haway n (hn n h) (hs.apart h).1 (hs.apart h).2).2

theorem view_spawn {sigchld stdio exec reap exitCb : Bool} {i : ℕ} (hi : i ≠ p) :
    (s.spawn sigchld p stdio exec reap exitCb).view i = s.view i := by
  unfold State.view State.spawn
  split
  · exact congrArg _ (update_of_ne hi _ _)
  · split
    · exact congrArg _ (update_of_ne hi _ _)
    · exact congrArg _ (update_of_ne hi _ _)

theorem Inv.spawn (hs : Inv s l stale live) (hp : s.handle p = none) (hu : s.pc.isUser = true)
    (sigchld stdio exec reap exitCb : Bool) :
    ∃ l', Inv (s.spawn sigchld p stdio exec reap exitCb) l' stale live ∧
      (s.spawn sigchld p stdio exec reap exitCb).reports = s.reports := by
  let x : UvProcess := ⟨handleInit, false, 0, .exited 0, false⟩
  let u : State := { s with mem := Queue.init s.mem (.process p), handle := update s.handle p (some x) }
  have hfresh : Inv u l stale live := hs.fresh hp rfl rfl rfl rfl rfl rfl rfl rfl rfl
  unfold State.spawn
  by_cases h1 : stdio = false
  · rw [if_pos h1]
    exact ⟨l, hs.fresh hp rfl rfl rfl rfl rfl rfl rfl rfl rfl, rfl⟩
  · by_cases h2 : exec = false
    · rw [if_neg h1, if_pos h2]
      exact ⟨l, hs.fresh hp rfl rfl rfl rfl rfl rfl rfl rfl rfl, rfl⟩
    · rw [if_neg h1, if_neg h2]
      have hview : u.view p = some x.view := view_of_handle (update_self p (some x) s.handle)
      refine ⟨l ++ [p], hfresh.started (w := ⟨s.lastPid + 1, .exited 0, exitCb, false⟩) hview rfl hu ?_ rfl rfl rfl
        rfl rfl rfl rfl rfl rfl, rfl⟩
      have hidem : ∀ y : UvProcess, update u.handle p (some y) = update s.handle p (some y) :=
        fun y => update_idem _ _ _
      let y : UvProcess :=
        ⟨(handleStart handleInit s.activeHandles).1, !sigchld && reap, s.lastPid + 1, .exited 0, exitCb⟩
      exact view_update (s := u) (y := y) (hidem y).symm

end Libuv.L2.Process
