import Libuv.L1Data.Queue
import Libuv.L2Loop.Handle

/-!
# Prepare, check and idle handles (`loop-watcher.c`)

`UV_LOOP_WATCHER_DEFINE`, read as one body (the comments inside it end the line
continuation in the file), for one of its three names: the handles of the kind, the
loop's `name_handles` queue, and the queue on the stack of `uv__run_name`, with every
store of `queue.h`. All handles are initialised and known by their number.

A step is one call of the API, or one iteration of the loop of `uv__run_name` up to the
callback, or the callback's return. `initial`, `called` and `stopped` are what an observer of
the pass writes down: which handles were active when it began, the callbacks it has run,
and the handles `uv_name_stop` or `uv_close` were called for.

* `run_pass`: whatever the callbacks do, a pass calls each handle that was active when it
  began and was not stopped before its turn, once, and no other; each iteration gets on, so
  that it ends after as many callbacks; outside of a pass the loop's queue holds the active
  handles, each once.
-/
namespace Libuv.L2.LoopWatcher

open List
open L1 (Queue.insertHead Queue.insertTail Queue.remove Queue.move Queue.empty Queue.head)
open Handle (Flags handleInit handleStart handleStop)

/-- The nodes of queues: the head in the loop, the head on the stack, a handle's node. -/
inductive Node
  | handles
  | queue
  | handle (i : ℕ)
  deriving DecidableEq

/-- Where `uv__run_name` is: not running, about to test the queue, in a callback. -/
inductive Pc
  | idle
  | looping
  | callback (i : ℕ)
  deriving DecidableEq

structure State where
  links : Links Node
  flags : ℕ → Flags
  activeHandles : ℕ
  pc : Pc
  initial : ℕ → Bool
  called : List ℕ
  stopped : List ℕ

namespace State
variable (s : State)

/-- `uv_name_start`; `cb` is whether there is a callback.
mirrors unix/loop-watcher.c:34-47 -/
def start (i : ℕ) (cb : Bool) : State :=
  if (s.flags i).active then s
  else if cb = false then s
  else
    let (f, n) := handleStart (s.flags i) s.activeHandles
    { s with
      links := Queue.insertHead s.links .handles (.handle i)
      flags := Function.update s.flags i f
      activeHandles := n }

/-- `uv_name_stop`.
mirrors unix/loop-watcher.c:49-57 -/
def stop (i : ℕ) : State :=
  let s := { s with stopped := s.stopped ++ [i] }
  if (s.flags i).active = false then s
  else
    let (f, n) := handleStop (s.flags i) s.activeHandles
    { s with
      links := Queue.remove s.links (.handle i)
      flags := Function.update s.flags i f
      activeHandles := n }

/-- `uv_close` up to `uv__make_close_pending`. -/
def close (i : ℕ) : Option State :=
  if (s.flags i).isClosing then none
  else some ({ s with flags := Function.update s.flags i { s.flags i with closing := true } }.stop i)

/-- `uv__run_name` up to its loop.
mirrors unix/loop-watcher.c:60-66 -/
def run : State :=
  { s with
    links := Queue.move s.links .handles .queue
    pc := .looping
    initial := fun i => (s.flags i).active
    called := []
    stopped := [] }

/-- One iteration of `uv__run_name`, up to the callback.
mirrors unix/loop-watcher.c:68-79 -/
def next : Option State :=
  if Queue.empty s.links .queue then some { s with pc := .idle }
  else
    match Queue.head s.links .queue with
    | .handle i =>
      let links := Queue.remove s.links (.handle i)
      some { s with
        links := Queue.insertTail links .handles (.handle i)
        pc := .callback i
        called := s.called ++ [i] }
    | _ => none

end State

inductive Label
  | start (i : ℕ) (cb : Bool)
  | stop (i : ℕ)
  | close (i : ℕ)
  | run
  | next
  | ret
  deriving DecidableEq

/-- The API is called between passes and from callbacks. -/
def step (s : State) : Label → Option State
  | .start i cb => if s.pc = .looping then none else some (s.start i cb)
  | .stop i => if s.pc = .looping then none else some (s.stop i)
  | .close i => if s.pc = .looping then none else s.close i
  | .run => if s.pc = .idle then some s.run else none
  | .next => if s.pc = .looping then s.next else none
  | .ret =>
    match s.pc with
    | .callback _ => some { s with pc := .looping }
    | _ => none

/-- `QUEUE_INIT` of the loop's queue by `uv_loop_init`, in any memory. -/
def system : LTS State Label where
  init s := ∃ m, s = ⟨L1.Queue.init m .handles, fun _ => handleInit, 0, .idle, fun _ => false, [], []⟩
  step s l t := step s l = some t

/-! ## The two queues -/

/-- The loop's queue holds `l`, the pass has `k` before it. -/
structure Holds (s : State) (l k : List ℕ) : Prop where
  loop : Ring s.links .handles (l.map .handle)
  queue : s.pc = .idle ∧ k = [] ∨ s.pc ≠ .idle ∧ Ring s.links .queue (k.map .handle)
  nodup : (l ++ k).Nodup
  active : ∀ i, (s.flags i).active = true ↔ i ∈ l ++ k

/-- What the pass has done, with `k` before it. -/
structure Passing (s : State) (k : List ℕ) : Prop where
  once : s.called.Nodup
  called : ∀ i ∈ s.called, s.initial i = true
  queue : ∀ i ∈ k, s.initial i = true ∧ i ∉ s.called ∧ i ∉ s.stopped
  covered : ∀ i, s.initial i = true → i ∈ s.called ∨ i ∈ s.stopped ∨ i ∈ k
  finite : ∃ all : List ℕ, ∀ i, s.initial i = true → i ∈ all

def Inv (s : State) : Prop := ∃ l k, Holds s l k ∧ (s.pc ≠ .idle → Passing s k)

variable {s t : State} {l k : List ℕ} {i : ℕ}

theorem mem_nodes {h : Node} {j : ℕ} (hh : ∀ j, h ≠ .handle j) : Node.handle j ∈ h :: l.map Node.handle ↔ j ∈ l := by
  have : Node.handle j ≠ h := fun e => hh j e.symm
  simp [this]

theorem apart (hn : (l ++ k).Nodup) : (∀ x ∈ Node.queue :: k.map Node.handle, x ∉ Node.handles :: l.map Node.handle) ∧
    ∀ x ∈ Node.handles :: l.map Node.handle, x ∉ Node.queue :: k.map Node.handle := by
  have hd := nodup_append.1 hn
  have key : ∀ x ∈ Node.queue :: k.map Node.handle, x ∉ Node.handles :: l.map Node.handle := by
    intro x hx hx'
    rcases mem_cons.1 hx with rfl | h
    · simp at hx'
    · obtain ⟨j, hj, rfl⟩ := mem_map.1 h
      exact hd.2.2 j ((mem_nodes (by simp)).1 hx') j hj rfl
  exact ⟨key, fun x hx hx' => key x hx' hx⟩

theorem Holds.insert (hs : Holds s l k) (hi : i ∉ l ++ k) {f : Flags} (hf : f.active = true) (n : ℕ) :
    Holds { s with
      links := Queue.insertHead s.links .handles (.handle i)
      flags := Function.update s.flags i f
      activeHandles := n } (i :: l) k := by
  simp only [mem_append, not_or] at hi
  have hil : Node.handle i ∉ Node.handles :: l.map Node.handle := by
    rw [mem_nodes (by simp)]
    exact hi.1
  refine ⟨L1.Queue.insertHead_ring hs.loop hil, ?_, ?_, fun j => ?_⟩
  · refine hs.queue.imp_right fun h => ⟨h.1, L1.Queue.insertHead_other hs.loop h.2 fun x hx => ⟨?_, ?_⟩⟩
    · rintro rfl
      exact hi.2 ((mem_nodes (by simp)).1 hx)
    · exact (apart hs.nodup).1 x hx
  · rw [cons_append, nodup_cons]
    exact ⟨by simpa using hi, hs.nodup⟩
  · by_cases hj : j = i
    · subst hj
      simp [hf]
    · simp [hj, hs.active j]

theorem Holds.remove (hs : Holds s l k) (hi : i ∈ l ++ k) {f : Flags} (hf : f.active = false) (n : ℕ) :
    ∃ l' k', Holds { s with
      links := Queue.remove s.links (.handle i)
      flags := Function.update s.flags i f
      activeHandles := n } l' k' ∧ (∀ j, j ∈ k' ↔ j ∈ k ∧ j ≠ i) := by
  have hd := hs.nodup
  have hflags : ∀ l' k' : List ℕ, (∀ j, j ∈ l' ++ k' ↔ j ∈ l ++ k ∧ j ≠ i) → ∀ j,
      ((Function.update s.flags i f) j).active = true ↔ j ∈ l' ++ k' := by
    intro l' k' h j
    rw [h]
    by_cases hj : j = i
    · subst hj
      simp [hf]
    · simp [hs.active j, hj]
  rcases mem_append.1 hi with h | h
  · obtain ⟨l1, l2, rfl⟩ := append_of_mem h
    have hi' : i ∉ l1 ++ l2 ++ k := by
      have : (i :: (l1 ++ l2 ++ k)).Nodup := by
        refine (List.Perm.nodup_iff ?_).1 hd
        simp
      exact (nodup_cons.1 this).1
    simp only [mem_append, not_or] at hi'
    have hloop : Ring s.links .handles (l1.map .handle ++ .handle i :: l2.map .handle) := by simpa using hs.loop
    refine ⟨l1 ++ l2, k, ⟨by simpa using L1.Queue.remove_ring hloop, ?_, hd.sublist (by simp), hflags _ _ ?_⟩, ?_⟩
    · refine hs.queue.imp_right fun h => ⟨h.1, L1.Queue.remove_other hloop h.2 fun x hx => ?_⟩
      simpa using (apart hd).1 x hx
    · intro j
      by_cases hj : j = i
      · simp [hj, hi']
      · simp [hj]
    · intro j
      by_cases hj : j = i
      · simp [hj, hi']
      · simp [hj]
  · obtain ⟨k1, k2, rfl⟩ := append_of_mem h
    have hi' : i ∉ l ++ (k1 ++ k2) := by
      have : (i :: (l ++ (k1 ++ k2))).Nodup := by
        refine (List.Perm.nodup_iff ?_).1 hd
        simp only [← append_assoc]
        exact perm_middle
      exact (nodup_cons.1 this).1
    simp only [mem_append, not_or] at hi'
    obtain ⟨hpc, hq⟩ := hs.queue.resolve_left (by simp)
    have hqueue : Ring s.links .queue (k1.map .handle ++ .handle i :: k2.map .handle) := by simpa using hq
    refine ⟨l, k1 ++ k2, ⟨?_, .inr ⟨hpc, by simpa using L1.Queue.remove_ring hqueue⟩, hd.sublist (by simp), hflags _ _ ?_⟩, ?_⟩
    · refine L1.Queue.remove_other hqueue hs.loop fun x hx => ?_
      simpa using (apart hd).2 x hx
    · intro j
      by_cases hj : j = i
      · simp [hj, hi']
      · simp [hj]
    · intro j
      by_cases hj : j = i
      · simp [hj, hi']
      · simp [hj]

/-! ## Steps -/

theorem State.stop_off (s : State) (i : ℕ) : i ∈ (s.stop i).stopped ∧ ((s.stop i).flags i).active = false := by
  unfold State.stop
  dsimp only
  split
  · next ha => exact ⟨mem_append_right _ (mem_singleton_self i), ha⟩
  · exact ⟨mem_append_right _ (mem_singleton_self i), by simp⟩

theorem Inv.start (hs : Inv s) (cb : Bool) : Inv (s.start i cb) := by
  obtain ⟨l, k, hh, hp⟩ := hs
  unfold State.start
  split
  · exact ⟨l, k, hh, hp⟩
  · next ha =>
    split
    · exact ⟨l, k, hh, hp⟩
    · refine ⟨i :: l, k, hh.insert (fun h => ha ((hh.active i).2 h)) (Handle.handleStart_active _ _) _, fun hpc => ?_⟩
      obtain ⟨h1, h2, h3, h4, h5⟩ := hp hpc
      exact ⟨h1, h2, h3, h4, h5⟩

theorem Passing.stop {k' : List ℕ} (hp : Passing s k) (hk : ∀ j, j ∈ k' ↔ j ∈ k ∧ j ≠ i) (hi : t.initial = s.initial)
    (hc : t.called = s.called) (hst : t.stopped = s.stopped ++ [i]) : Passing t k' := by
  refine ⟨hc ▸ hp.once, ?_, fun j hj => ?_, fun j hj => ?_, ?_⟩
  · rw [hc, hi]
    exact hp.called
  · obtain ⟨hj, hne⟩ := (hk j).1 hj
    obtain ⟨h1, h2, h3⟩ := hp.queue j hj
    rw [hi, hc, hst]
    exact ⟨h1, h2, by simp [h3, hne]⟩
  · rw [hi] at hj
    rw [hc, hst, hk]
    by_cases hne : j = i
    · simp [hne]
    · rcases hp.covered j hj with h | h | h
      · exact .inl h
      · exact .inr (.inl (by simp [h]))
      · exact .inr (.inr ⟨h, hne⟩)
  · rw [hi]
    exact hp.finite

theorem Inv.stop (hs : Inv s) : Inv (s.stop i) := by
  obtain ⟨l, k, hh, hp⟩ := hs
  unfold State.stop
  dsimp only
  split
  · next ha =>
    have hi : i ∉ l ++ k := fun h => by
      rw [(hh.active i).2 h] at ha
      cases ha
    refine ⟨l, k, ⟨hh.loop, hh.queue, hh.nodup, hh.active⟩, fun hpc => (hp hpc).stop (i := i) (fun j => ?_) rfl rfl rfl⟩
    refine ⟨fun h => ⟨h, ?_⟩, fun h => h.1⟩
    rintro rfl
    exact hi (mem_append_right _ h)
  · next ha =>
    have hi : i ∈ l ++ k := (hh.active i).1 (by simpa using ha)
    obtain ⟨l', k', hh', hk⟩ := hh.remove hi (f := (handleStop (s.flags i) s.activeHandles).1) (by simp)
      (handleStop (s.flags i) s.activeHandles).2
    exact ⟨l', k', ⟨hh'.loop, hh'.queue, hh'.nodup, hh'.active⟩, fun hpc => (hp hpc).stop hk rfl rfl rfl⟩

theorem Inv.close (hs : Inv s) (h : s.close i = some t) : Inv t := by
  unfold State.close at h
  split at h
  · cases h
  · cases h
    obtain ⟨l, k, hh, hp⟩ := hs
    refine Inv.stop ⟨l, k, ⟨hh.loop, hh.queue, hh.nodup, fun j => ?_⟩, fun hpc => ?_⟩
    · rw [← hh.active j]
      by_cases hj : j = i
      · simp [hj]
      · simp [hj]
    · obtain ⟨h1, h2, h3, h4, h5⟩ := hp hpc
      exact ⟨h1, h2, h3, h4, h5⟩

theorem Inv.run (hs : Inv s) (hpc : s.pc = .idle) : Inv s.run := by
  obtain ⟨l, k, hh, -⟩ := hs
  obtain rfl : k = [] := by
    rcases hh.queue with h | h
    · exact h.2
    · exact absurd hpc h.1
  obtain ⟨h1, h2⟩ := L1.Queue.move_ring hh.loop (n := .queue) (by simp)
  have hact := hh.active
  simp only [append_nil] at hact
  refine ⟨[], l, ⟨h1, .inr ⟨nofun, h2⟩, by simpa using hh.nodup, fun j => ?_⟩, fun _ => ?_⟩
  · exact hact j
  refine ⟨nodup_nil, nofun, fun j hj => ⟨(hact j).2 hj, by simp [State.run], by simp [State.run]⟩, fun j hj => ?_, l, fun j hj => ?_⟩
  · exact .inr (.inr ((hact j).1 hj))
  · exact (hact j).1 hj

theorem Inv.next (hs : Inv s) (hpc : s.pc = .looping) : ∃ t, s.next = some t ∧ Inv t ∧
    (t.pc = .idle ∧ (∀ i, s.initial i = true → i ∈ s.called ∨ i ∈ s.stopped) ∨
      ∃ i, t.pc = .callback i ∧ t.called = s.called ++ [i] ∧ s.initial i = true ∧ i ∉ s.called ∧ i ∉ s.stopped ∧
        (s.flags i).active = true) := by
  obtain ⟨l, k, hh, hp⟩ := hs
  have hp := hp (by rw [hpc]; simp)
  have hq : Ring s.links .queue (k.map .handle) := by
    rcases hh.queue with h | h
    · rw [hpc] at h
      cases h.1
    · exact h.2
  unfold State.next
  cases k with
  | nil =>
    rw [if_pos ((L1.Queue.empty_iff hq).2 rfl)]
    refine ⟨_, rfl, ⟨l, [], ⟨hh.loop, .inl ⟨rfl, rfl⟩, hh.nodup, hh.active⟩, fun h => absurd rfl h⟩, .inl ⟨rfl, ?_⟩⟩
    intro i hi
    simpa using hp.covered i hi
  | cons i k =>
    rw [if_neg (by simp [L1.Queue.empty_iff hq])]
    have hhead : Queue.head s.links .queue = .handle i := L1.Queue.head_eq hq
    rw [hhead]
    have hd := hh.nodup
    have hi : i ∉ l ++ k := by
      have : (i :: (l ++ k)).Nodup := perm_middle.nodup_iff.1 hd
      exact (nodup_cons.1 this).1
    have hd' : (l ++ k).Nodup := hd.sublist (by simp)
    obtain ⟨hini, hnc, hns⟩ := hp.queue i (by simp)
    have hrest : Ring (Queue.remove s.links (.handle i)) .queue (k.map .handle) :=
      L1.Queue.remove_ring (l := []) hq
    have hloop : Ring (Queue.remove s.links (.handle i)) .handles (l.map .handle) :=
      L1.Queue.remove_other (l := []) hq hh.loop fun x hx => by simpa using (apart hd).2 x hx
    simp only [mem_append, not_or] at hi
    refine ⟨_, rfl, ⟨l ++ [i], k, ⟨?_, .inr ⟨by simp, ?_⟩, ?_, fun j => ?_⟩, fun _ => ?_⟩, .inr ⟨i, rfl, rfl, hini, hnc, hns, ?_⟩⟩
    · have := L1.Queue.insertTail_ring hloop (q := .handle i) (by simpa using hi.1)
      simpa using this
    · refine L1.Queue.insertTail_other hloop hrest fun x hx => ⟨?_, (apart hd').1 x hx⟩
      rintro rfl
      exact hi.2 (by simpa using hx)
    · simpa using hd
    · rw [hh.active j]
      simp
    · refine ⟨?_, fun j hj => ?_, fun j hj => ?_, fun j hj => ?_, hp.finite⟩
      · rw [nodup_append]
        refine ⟨hp.once, by simp, fun a ha b hb e => hnc ?_⟩
        rw [← mem_singleton.1 hb, ← e]
        exact ha
      · rcases mem_append.1 hj with h | h
        · exact hp.called j h
        · rw [mem_singleton.1 h]
          exact hini
      · obtain ⟨h1, h2, h3⟩ := hp.queue j (mem_cons_of_mem _ hj)
        have hne : j ≠ i := fun e => hi.2 (e ▸ hj)
        exact ⟨h1, by simp [h2, hne], h3⟩
      · rcases hp.covered j hj with h | h | h
        · exact .inl (by simp [h])
        · exact .inr (.inl h)
        · rcases mem_cons.1 h with rfl | h
          · exact .inl (by simp)
          · exact .inr (.inr h)
    · exact (hh.active i).2 (by simp)

theorem inv_inductive : system.Inductive Inv where
  init := by
    intro s hs
    obtain ⟨m, rfl⟩ := hs
    refine ⟨[], [], ⟨L1.Queue.init_ring, .inl ⟨rfl, rfl⟩, nodup_nil, fun i => ?_⟩, fun h => absurd rfl h⟩
    simp [handleInit]
  step := by
    intro s lab t hs h
    cases lab with
    | start i cb =>
      obtain ⟨-, rfl⟩ : _ ∧ s.start i cb = t := by simpa [system, step] using h
      exact hs.start cb
    | stop i =>
      obtain ⟨-, rfl⟩ : _ ∧ s.stop i = t := by simpa [system, step] using h
      exact hs.stop
    | close i =>
      obtain ⟨-, h⟩ : _ ∧ s.close i = some t := by simpa [system, step] using h
      exact hs.close h
    | run =>
      obtain ⟨hpc, rfl⟩ : s.pc = .idle ∧ s.run = t := by simpa [system, step] using h
      exact hs.run hpc
    | next =>
      obtain ⟨hpc, h⟩ : s.pc = .looping ∧ s.next = some t := by simpa [system, step] using h
      obtain ⟨u, hu, hi, -⟩ := hs.next hpc
      rw [hu] at h
      cases h
      exact hi
    | ret =>
      simp only [system, step] at h
      split at h
      · next hpc =>
        cases h
        obtain ⟨l, k, hh, hp⟩ := hs
        have hp := hp (by rw [hpc]; nofun)
        have hq := hh.queue.resolve_left fun h => by rw [hpc] at h; cases h.1
        exact ⟨l, k, ⟨hh.loop, .inr ⟨nofun, hq.2⟩, hh.nodup, hh.active⟩, fun _ => ⟨hp.once, hp.called, hp.queue, hp.covered, hp.finite⟩⟩
      · cases h

/-- **A pass is safe under mutation.** Outside of a pass the loop's queue holds the active
handles, each once, and a pass can begin, with them before it. In a pass every handle is called at most once, and only if it was
active when the pass began, so there are at most as many callbacks as there were active
handles. Each iteration either ends the pass, when every handle that was active at its
beginning has been called or stopped, or calls one more handle, which has not been called
or stopped before and is active; when its callback is over the next iteration follows. -/
theorem run_pass (h : system.Reachable s) :
    (s.pc = .idle → ∃ l : List ℕ, Ring s.links .handles (l.map .handle) ∧ l.Nodup ∧
      ∀ i, i ∈ l ↔ (s.flags i).active = true) ∧
    (s.pc = .idle → ∃ t, step s .run = some t ∧ t.pc = .looping ∧ t.flags = s.flags ∧
      (∀ i, t.initial i = true ↔ (s.flags i).active = true) ∧ t.called = [] ∧ t.stopped = []) ∧
    (∀ i t, step s (.stop i) = some t ∨ step s (.close i) = some t → i ∈ t.stopped ∧ (t.flags i).active = false) ∧
    (s.pc ≠ .idle → s.called.Nodup ∧ (∀ i ∈ s.called, s.initial i = true) ∧
      ∃ all : Finset ℕ, (∀ i, i ∈ all ↔ s.initial i = true) ∧ s.called.length ≤ all.card) ∧
    (s.pc = .looping → ∃ t, step s .next = some t ∧
      (t.pc = .idle ∧ (∀ i, s.initial i = true → i ∈ s.called ∨ i ∈ s.stopped) ∨
        ∃ i, t.pc = .callback i ∧ t.called = s.called ++ [i] ∧ s.initial i = true ∧ i ∉ s.called ∧ i ∉ s.stopped ∧
          (s.flags i).active = true)) ∧
    ∀ i, s.pc = .callback i → step s .ret = some { s with pc := .looping } := by
  have hinv := inv_inductive.reachable h
  refine ⟨fun hpc => ?_, fun hpc => ⟨s.run, if_pos hpc, rfl, rfl, fun i => Iff.rfl, rfl, rfl⟩, fun i t ht => ?_, fun hpc => ?_,
    fun hpc => ?_, fun i hpc => by simp [step, hpc]⟩
  · obtain ⟨l, k, hh, -⟩ := hinv
    obtain rfl : k = [] := by
      rcases hh.queue with h | h
      · exact h.2
      · exact absurd hpc h.1
    refine ⟨l, hh.loop, by simpa using hh.nodup, fun i => ?_⟩
    rw [hh.active i, append_nil]
  · rcases ht with ht | ht
    · obtain ⟨-, rfl⟩ : _ ∧ s.stop i = t := by simpa [step] using ht
      exact State.stop_off s i
    · obtain ⟨-, ht⟩ : _ ∧ s.close i = some t := by simpa [step] using ht
      obtain ⟨-, ht⟩ := Option.ite_none_left_eq_some.1 ht
      cases ht
      exact State.stop_off _ i
  · obtain ⟨l, k, -, hp⟩ := hinv
    have hp := hp hpc
    obtain ⟨all, hall⟩ := hp.finite
    have hfin : ∀ i, i ∈ all.toFinset.filter (fun i => s.initial i = true) ↔ s.initial i = true := by
      intro i
      simp only [Finset.mem_filter, mem_toFinset, and_iff_right_iff_imp]
      exact hall i
    refine ⟨hp.once, hp.called, _, hfin, ?_⟩
    rw [← toFinset_card_of_nodup hp.once]
    refine Finset.card_le_card fun i hi => (hfin i).2 (hp.called i (mem_toFinset.1 hi))
  · obtain ⟨t, ht, -, hcase⟩ := hinv.next hpc
    exact ⟨t, by simp [step, hpc, ht], hcase⟩

/-- Two handles are active; the callback of one stops the other and starts it again: the pass
is over, with the other handle back in the loop's queue and not called. -/
theorem run_pass_two : ∃ s : State, s.pc = .looping ∧ s.called = [1] ∧ (s.flags 0).active = true ∧
    ∃ t, step s .next = some t ∧ t.pc = .idle := by
  obtain ⟨s, hs, hpc, hcalled, hact, hnext⟩ : ∃ s : State,
      [Label.start 0 true, .start 1 true, .run, .next, .stop 0, .start 0 true, .ret].foldlM step
        ⟨L1.Queue.init ⟨id, id⟩ .handles, fun _ => handleInit, 0, .idle, fun _ => false, [], []⟩ = some s ∧
      s.pc = .looping ∧ s.called = [1] ∧ (s.flags 0).active = true ∧ ∀ t, step s .next = some t → t.pc = .idle := by
    refine ⟨_, rfl, rfl, rfl, rfl, fun t ht => ?_⟩
    cases ht
    rfl
  have h : system.Reachable s :=
    (LTS.Reachable.init (T := system) ⟨⟨id, id⟩, rfl⟩).foldlM (fun _ _ _ h => h) hs
  obtain ⟨t, ht, -⟩ := (run_pass h).2.2.2.2.1 hpc
  exact ⟨s, hpc, hcalled, hact, t, ht, hnext t ht⟩

end Libuv.L2.LoopWatcher
