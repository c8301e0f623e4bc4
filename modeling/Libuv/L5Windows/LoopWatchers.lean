import Libuv.Core.LTS
import Libuv.L1Data.Queue

/-!
# Prepare, check and idle handles on Windows (`win/loop-watcher.c`)

`UV_LOOP_WATCHER_DEFINE`, for one of its three names: the active handles are in a list with a pointer each way, and
`next_name_handle` is the one that a pass calls next. With `NULL` for its head the list is a queue of `queue.h`. `initial`,
`called` and `stopped` are ghosts: what was active when the pass began, and what was called and stopped since.

* `invoke_pass`: whatever the callbacks do, a pass calls what was active when it began, once, in so far as it is not stopped
  before its turn, and nothing else.
-/
namespace Libuv.L5.LoopWatchers
open List Function
open L1 (Queue.insertHead Queue.remove)

inductive Pc
  | idle
  | invoking
  | callback
  deriving DecidableEq

structure State where
  handles : Option ℕ
  nextHandle : Option ℕ
  next : ℕ → Option ℕ
  prev : ℕ → Option ℕ
  active : ℕ → Bool
  pc : Pc
  initial : ℕ → Bool
  called : List ℕ
  stopped : List ℕ

/-- `if (p) p->field = v;` -/
def storeAt (field : ℕ → Option ℕ) (p v : Option ℕ) : ℕ → Option ℕ :=
  match p with
  | none => field
  | some i => update field i v

@[simp] theorem storeAt_apply {f : ℕ → Option ℕ} {p v : Option ℕ} {i : ℕ} :
    storeAt f p v i = if some i = p then v else f i := by
  cases p <;> simp [storeAt, update_apply]

namespace State
variable (s : State)

/-- mirrors win/loop-watcher.c:46-73 -/
def start (i : ℕ) (cb : Bool) : State :=
  if s.active i then s
  else if cb = false then s
  else
    { s with
      next := update s.next i s.handles
      prev := storeAt (update s.prev i none) s.handles (some i)
      handles := some i
      active := update s.active i true }

/-- mirrors win/loop-watcher.c:76-104 -/
def stop (i : ℕ) : State :=
  let s := { s with stopped := i :: s.stopped }
  if s.active i = false then s
  else
    let next := storeAt s.next (s.prev i) (s.next i)
    { s with
      handles := if s.handles = some i then s.next i else s.handles
      nextHandle := if s.nextHandle = some i then s.next i else s.nextHandle
      next := next
      prev := storeAt s.prev (next i) (s.prev i)
      active := update s.active i false }

/-- `uv__name_invoke` up to its loop.
mirrors win/loop-watcher.c:107-110 -/
def invoke : State :=
  { s with nextHandle := s.handles, pc := .invoking, initial := s.active, called := [], stopped := [] }

/-- One iteration, up to the callback.
mirrors win/loop-watcher.c:112-117 -/
def turn : State :=
  match s.nextHandle with
  | none => { s with pc := .idle }
  | some i => { s with nextHandle := s.next i, pc := .callback, called := i :: s.called }

end State

inductive Label
  | start (i : ℕ) (cb : Bool)
  | stop (i : ℕ)
  | invoke
  | turn
  | ret

/-- The API is called between passes and from callbacks. -/
def step (s : State) : Label → Option State
  | .start i cb => if s.pc = .invoking then none else some (s.start i cb)
  | .stop i => if s.pc = .invoking then none else some (s.stop i)
  | .invoke => if s.pc = .idle then some s.invoke else none
  | .turn => if s.pc = .invoking then some s.turn else none
  | .ret => if s.pc = .callback then some { s with pc := .invoking } else none

def system : LTS State Label where
  init s := ∃ next prev, s = ⟨none, none, next, prev, fun _ => false, .idle, fun _ => false, [], []⟩
  step s l t := step s l = some t

/-- The queue with `NULL` for its head; no pointer of the loop leads to the last handle. -/
def State.links (s : State) (last : Option ℕ) : Links (Option ℕ) where
  next o := o.elim s.handles s.next
  prev o := o.elim last s.prev

variable {s t : State} {last : Option ℕ} {i : ℕ} {a b d k : List ℕ}

theorem neighbours (hr : Ring (s.links last) none ((a ++ i :: b).map some)) :
    s.next i = b.head? ∧ (s.handles = some i ↔ s.prev i = none) := by
  have hfirst : s.handles = _ := hr.next_head
  have hnd := hr.nodup
  rw [map_append] at hr
  obtain ⟨pre, x, z, post, hx, hz, -, hpq, hnq, -⟩ := hr.around
  refine ⟨(show s.next i = z from hnq).trans ?_, ?_⟩
  · cases b <;> exact (cons.inj hz).1.symm
  · rw [show s.prev i = x from hpq]
    cases a with
    | nil =>
      cases pre <;> simp_all
    | cons c a =>
      have hmem : x ∈ (c :: a).map some := by
        cases pre <;> simp_all
      obtain ⟨p, -, rfl⟩ := mem_map.1 hmem
      simp_all

theorem links_start (last : Option ℕ) (ha : s.active i = false) :
    ∃ last', (s.start i true).links last' = Queue.insertHead (s.links last) none (some i) := by
  refine ⟨(Queue.insertHead (s.links last) none (some i)).prev none, ?_⟩
  simp only [State.links, State.start, ha, Queue.insertHead, L1.Queue.setNext, L1.Queue.setPrev]
  congr 1 <;> funext o <;> cases o <;> simp [update_apply]

theorem links_stop (ha : s.active i = true) (hr : Ring (s.links last) none ((a ++ i :: b).map some)) :
    ∃ last', (s.stop i).links last' = Queue.remove (s.links last) (some i) := by
  obtain ⟨hn, hh⟩ := neighbours hr
  refine ⟨(Queue.remove (s.links last) (some i)).prev none, ?_⟩
  simp only [State.links, State.stop, ha, Queue.remove, L1.Queue.setNext, L1.Queue.setPrev]
  congr 1 <;> funext o <;> cases o <;> simp [update_apply, hh, eq_comm]

/-- What the pass has done, with `k` before it. -/
structure Passing (s : State) (k : List ℕ) : Prop where
  once : s.called.Nodup
  called : ∀ i ∈ s.called, s.initial i = true
  coming : ∀ i ∈ k, s.initial i = true ∧ i ∉ s.called ∧ i ∉ s.stopped
  covered : ∀ i, s.initial i = true → i ∈ s.called ∨ i ∈ s.stopped ∨ i ∈ k

/-- The list is `d ++ k`, of which the pass has yet to call `k`. -/
structure Holds (s : State) (last : Option ℕ) (d k : List ℕ) : Prop where
  ring : Ring (s.links last) none ((d ++ k).map some)
  active : ∀ i, s.active i = true ↔ i ∈ d ++ k
  coming : s.nextHandle = k.head?
  idle : s.pc = .idle → k = []
  passing : Passing s k

def Inv (s : State) : Prop := ∃ last d k, Holds s last d k

theorem Inv.start (h : Inv s) (cb : Bool) : Inv (s.start i cb) := by
  obtain ⟨last, d, k, h⟩ := h
  cases ha : s.active i with
  | true => exact ⟨last, d, k, by rwa [State.start, if_pos ha]⟩
  | false =>
    cases cb with
    | false => exact ⟨last, d, k, by rwa [State.start, if_neg (by simp [ha]), if_pos rfl]⟩
    | true =>
      have hi : i ∉ d ++ k := by rw [← h.active, ha]; decide
      obtain ⟨last', hl⟩ := links_start last ha
      refine ⟨last', i :: d, k, ?_, ?_, ?_, ?_, ?_⟩
      · rw [hl]
        exact L1.Queue.insertHead_ring h.ring (by simpa using hi)
      · intro j
        simp only [State.start, ha, cons_append, mem_cons, ← h.active]
        by_cases hj : j = i <;> simp [hj]
      all_goals simp only [State.start, ha]
      · exact h.coming
      · exact h.idle
      · obtain ⟨h1, h2, h3, h4⟩ := h.passing
        exact ⟨h1, h2, h3, h4⟩

theorem Passing.stop {k' : List ℕ} (h : Passing s k) (hk : ∀ j, j ∈ k' ↔ j ∈ k ∧ j ≠ i) (hi : t.initial = s.initial)
    (hc : t.called = s.called) (hst : t.stopped = i :: s.stopped) : Passing t k' := by
  obtain ⟨h1, h2, h3, h4⟩ := h
  constructor <;> grind

theorem Inv.stop (h : Inv s) : Inv (s.stop i) := by
  obtain ⟨last, d, k, h⟩ := h
  cases ha : s.active i with
  | false =>
    have hi : i ∉ d ++ k := by rw [← h.active, ha]; decide
    have hs : s.stop i = { s with stopped := i :: s.stopped } := if_pos ha
    rw [hs]
    exact ⟨last, d, k, h.ring, h.active, h.coming, h.idle, h.passing.stop (i := i) (by grind) rfl rfl rfl⟩
  | true =>
    have hnd : (d ++ k).Nodup := (nodup_cons.1 h.ring.nodup).2.of_map
    obtain ⟨d', k', a, b, hsplit, hrest, hk, hnext⟩ : ∃ d' k' a b, d ++ k = a ++ i :: b ∧ d' ++ k' = a ++ b ∧
        (∀ j, j ∈ k' ↔ j ∈ k ∧ j ≠ i) ∧ (if k.head? = some i then b.head? else k.head?) = k'.head? := by
      rcases mem_append.1 ((h.active i).1 ha) with hi | hi
      · obtain ⟨d₁, d₂, rfl⟩ := append_of_mem hi
        have hk : i ∉ k := by grind
        exact ⟨d₁ ++ d₂, k, d₁, d₂ ++ k, by simp, by simp, by grind, if_neg fun hh => hk (mem_of_mem_head? hh)⟩
      · obtain ⟨k₁, k₂, rfl⟩ := append_of_mem hi
        exact ⟨d, k₁ ++ k₂, d ++ k₁, k₂, by simp, by simp, by grind, by cases k₁ <;> grind⟩
    have hr := h.ring
    rw [hsplit] at hr hnd
    obtain ⟨last', hl⟩ := links_stop ha hr
    have hn := (neighbours hr).1
    refine ⟨last', d', k', ?_, fun j => ?_, ?_, fun hpc => ?_, h.passing.stop hk ?_ ?_ ?_⟩
    · rw [hl, hrest, map_append]
      rw [map_append] at hr
      exact L1.Queue.remove_ring hr
    · have hj := h.active j
      simp only [State.stop, ha, hrest]
      grind
    · simp only [State.stop, ha, h.coming, hn]
      exact hnext
    · simp only [State.stop, ha] at hpc
      exact eq_nil_iff_forall_not_mem.2 fun j hj => by simpa [h.idle hpc] using (hk j).1 hj
    all_goals simp [State.stop, ha]

theorem Inv.invoke (h : Inv s) (hpc : s.pc = .idle) : Inv s.invoke := by
  obtain ⟨last, d, k, h⟩ := h
  obtain rfl := h.idle hpc
  have hr := h.ring
  rw [append_nil] at hr
  have hact : ∀ i, s.active i = true ↔ i ∈ d := by simpa using h.active
  refine ⟨last, [], d, hr, hact, (show s.handles = _ from hr.next_head).trans (by cases d <;> rfl), nofun, ?_⟩
  exact ⟨nodup_nil, nofun, fun j hj => ⟨(hact j).2 hj, not_mem_nil, not_mem_nil⟩, fun j hj => .inr (.inr ((hact j).1 hj))⟩

theorem Inv.turn (h : Inv s) : Inv s.turn := by
  obtain ⟨last, d, k, h⟩ := h
  obtain ⟨h1, h2, h3, h4⟩ := h.passing
  cases k with
  | nil =>
    have hs : s.turn = { s with pc := .idle } := by rw [State.turn, h.coming]; rfl
    rw [hs]
    exact ⟨last, d, [], h.ring, h.active, h.coming, fun _ => rfl, h1, h2, h3, h4⟩
  | cons i k =>
    have hs : s.turn = { s with nextHandle := s.next i, pc := .callback, called := i :: s.called } := by
      rw [State.turn, h.coming]
      rfl
    have hnd : (d ++ i :: k).Nodup := (nodup_cons.1 h.ring.nodup).2.of_map
    have hsplit : d ++ i :: k = (d ++ [i]) ++ k := by simp
    have hn := (neighbours h.ring).1
    have hr := h.ring
    have hact := h.active
    rw [hsplit] at hr hact
    rw [hs]
    refine ⟨last, d ++ [i], k, hr, hact, hn, nofun, ?_⟩
    constructor <;> grind

theorem Inv.ret (h : Inv s) : Inv { s with pc := .invoking } := by
  obtain ⟨last, d, k, h⟩ := h
  obtain ⟨h1, h2, h3, h4⟩ := h.passing
  exact ⟨last, d, k, h.ring, h.active, h.coming, nofun, h1, h2, h3, h4⟩

theorem inv_run : system.Inductive Inv where
  init := by
    rintro s ⟨next, prev, rfl⟩
    exact ⟨none, [], [], ⟨by simp [Linked, State.links], by simp⟩, by simp, rfl, fun _ => rfl, nodup_nil, by simp, by simp, by simp⟩
  step s l t h hs := by
    have hs : step s l = some t := hs
    unfold step at hs
    cases l with
    | start i cb => grind [Inv.start]
    | stop i => grind [Inv.stop]
    | invoke => grind [Inv.invoke]
    | turn => grind [Inv.turn]
    | ret => grind [Inv.ret]

/-- `1` and `0` are in the list; the callback of `1` stops `0`. -/
theorem stopping : ∃ s, system.Reachable s ∧ s.pc = .invoking ∧ s.called = [1] ∧ s.stopped = [0] ∧ s.nextHandle = none := by
  have h0 : system.Reachable ⟨none, none, fun _ => none, fun _ => none, fun _ => false, .idle, fun _ => false, [], []⟩ :=
    .init ⟨_, _, rfl⟩
  have h1 := h0.step (l := Label.start 0 true) rfl
  have h2 := h1.step (l := Label.start 1 true) rfl
  have h3 := h2.step (l := Label.invoke) rfl
  have h4 := h3.step (l := Label.turn) rfl
  have h5 := h4.step (l := Label.stop 0) rfl
  exact ⟨_, h5.step (l := Label.ret) rfl, rfl, rfl, rfl, rfl⟩

/-- **A pass.** What the callbacks start and stop does not matter: nothing is called twice or without having been active
when the pass began, a pass that is over has left out only what was stopped, and what comes next is active. -/
theorem invoke_pass (hr : system.Reachable s) : s.called.Nodup ∧ (∀ i ∈ s.called, s.initial i = true) ∧
    (s.pc = .idle → ∀ i, s.initial i = true → i ∈ s.called ∨ i ∈ s.stopped) ∧
    (s.pc = .invoking → ∀ i, s.nextHandle = some i →
      s.active i = true ∧ s.initial i = true ∧ i ∉ s.called ∧ i ∉ s.stopped) := by
  obtain ⟨last, d, k, h⟩ := inv_run.reachable hr
  obtain ⟨h1, h2, h3, h4⟩ := h.passing
  refine ⟨h1, h2, fun hpc i hi => ?_, fun _ i hi => ?_⟩
  · simpa [h.idle hpc] using h4 i hi
  · have hk : i ∈ k := mem_of_mem_head? (h.coming.symm.trans hi)
    exact ⟨(h.active i).2 (mem_append_right d hk), h3 i hk⟩

theorem invoke_pass_stopping : ∃ s : State, s.called = [1] ∧ s.stopped = [0] ∧ s.called.Nodup := by
  obtain ⟨s, hr, -, hc, hs, -⟩ := stopping
  exact ⟨s, hc, hs, (invoke_pass hr).1⟩

end Libuv.L5.LoopWatchers
