import Mathlib.Data.Fintype.Pi
import Mathlib.Tactic.FinCases
import Libuv.Core.CondVar
import Libuv.Core.LTS

/-!
# The custom semaphore (`unix/thread.c`)

`uv_sem_t` where the semaphore of the C library is not used: an `unsigned int`, a mutex and a condition variable.
Any number of threads post, wait and try to wait, in any order, and may stop doing so; a step is one critical
section. `uv_cond_signal` wakes at least one waiter, if there is one, and a waiter may also wake by itself.

`uv__custom_sem_post` signals only when it makes the value 1.

* `no_thread_stranded`: so the value is what was posted and not taken, and no thread sleeps beside a unit for ever.
* `overpost_strands`: any other post leads to a thread that does, by nothing but threads finishing their calls.
* `lost_wakeup`: two waiters, two posts.
-/
namespace Libuv.L4.Semaphore
open CondVar

/-- A thread outside `uv_cond_wait`: `finished` makes no more calls. -/
inductive Life
  | running | finished
  deriving DecidableEq

/-- `uv_semaphore_t`, with the threads that use it. The ghosts count the posts and the waits that have got a unit. -/
structure UvSemaphore (T : Type*) where
  value : UInt32
  threads : T → Thread Life
  initial : UInt32
  posts : ℕ
  completed : ℕ

def UV_EAGAIN : ℤ := -11

/-- `rc` is what `uv__malloc`, `uv_mutex_init` and `uv_cond_init` come to.
mirrors unix/thread.c:549-571 -/
def uvCustomSemInit (T : Type*) (value : UInt32) (rc : ℤ) : Except ℤ (UvSemaphore T) :=
  if rc ≠ 0 then .error rc
  else .ok { value, threads := fun _ => .awake .running, initial := value, posts := 0, completed := 0 }

namespace UvSemaphore
variable {T : Type*} (s : UvSemaphore T)

/-- mirrors unix/thread.c:584-593 -/
def post (woken : T → Bool) : UvSemaphore T :=
  let s := { s with value := s.value + 1, posts := s.posts + 1 }
  if s.value = 1 then { s with threads := signal s.threads woken } else s

/-- `sem->value--` -/
def take : UvSemaphore T :=
  { s with value := s.value - 1, completed := s.completed + 1 }

/-- mirrors unix/thread.c:608-624 -/
def tryWait (locked : Bool) : UvSemaphore T × ℤ :=
  if locked then (s, UV_EAGAIN)
  else if s.value = 0 then (s, UV_EAGAIN)
  else (s.take, 0)

variable [DecidableEq T]

def setThread (w : T) (st : Thread Life) : UvSemaphore T :=
  { s with threads := Function.update s.threads w st }

/-- From the mutex to `uv_cond_wait` or the end of the call, at its beginning and whenever the thread wakes up.
mirrors unix/thread.c:602-605 -/
def wait (w : T) : UvSemaphore T :=
  if s.value = 0 then s.setThread w .waiting
  else s.take.setThread w (.awake .running)

end UvSemaphore

variable {T : Type*} [DecidableEq T]

/-- `tryWait w true` finds the mutex locked; `finish` is a thread that makes no more calls, `wake` a wakeup without
a signal. -/
inductive Label (T : Type*)
  | post (w : T) (woken : T → Bool)
  | wait (w : T)
  | resume (w : T)
  | tryWait (w : T) (locked : Bool)
  | finish (w : T)
  | wake (w : T)

/-- The thread that takes the step; a wakeup happens to a thread. -/
def Label.thread : Label T → Option T
  | .post w _ | .wait w | .resume w | .tryWait w _ | .finish w => some w
  | .wake _ => none

inductive Step (s : UvSemaphore T) : Label T → UvSemaphore T → Prop
  | post {w : T} {woken : T → Bool} (h : s.threads w = .awake .running) (hw : Wakes s.threads woken) :
      Step s (.post w woken) (s.post woken)
  | wait {w : T} (h : s.threads w = .awake .running) : Step s (.wait w) (s.wait w)
  | resume {w : T} (h : s.threads w = .signalled) : Step s (.resume w) (s.wait w)
  | tryWait {w : T} (locked : Bool) (h : s.threads w = .awake .running) :
      Step s (.tryWait w locked) (s.tryWait locked).1
  | finish {w : T} (h : s.threads w = .awake .running) : Step s (.finish w) (s.setThread w (.awake .finished))
  | wake {w : T} (h : s.threads w = .waiting) : Step s (.wake w) (s.setThread w .signalled)

def system (T : Type*) [DecidableEq T] : LTS (UvSemaphore T) (Label T) where
  init s := ∃ value, uvCustomSemInit T value 0 = .ok s
  step := Step

def CanStep (s : UvSemaphore T) (w : T) : Prop := ∃ l t, l.thread = some w ∧ Step s l t

/-- A thread sleeps beside a unit, unsignalled, and no other thread is able to take a step. -/
def Stranded (s : UvSemaphore T) : Prop :=
  s.value > 0 ∧ ∃ w, s.threads w = .waiting ∧ ∀ v, v ≠ w → ¬ CanStep s v

theorem canStep_iff {s : UvSemaphore T} {w : T} :
    CanStep s w ↔ s.threads w = .awake .running ∨ s.threads w = .signalled := by
  constructor
  · rintro ⟨l, t, hl, hs⟩
    cases hs with
    | post h | wait h | tryWait _ h | finish h =>
      cases hl
      exact .inl h
    | resume h =>
      cases hl
      exact .inr h
    | wake h => cases hl
  · rintro (h | h)
    · exact ⟨.wait w, _, rfl, .wait h⟩
    · exact ⟨.resume w, _, rfl, .resume h⟩

variable [Fintype T]

/-- A post keeps below `UINT_MAX`; and if the value is not 0 and a thread sleeps unsignalled, there are more woken
threads than units. -/
def PostsCovered (s : UvSemaphore T) : Label T → Prop
  | .post _ _ => s.value.toNat + 1 < 2 ^ 32 ∧
      (s.value > 0 → (∃ w, s.threads w = .waiting) → s.value.toNat < count Thread.isSignalled s.threads)
  | .wait _ | .resume _ | .tryWait _ _ | .finish _ | .wake _ => True

/-! ## The ledger of the units, and a woken thread for each -/

structure Covered (s : UvSemaphore T) : Prop where
  ledger : s.value.toNat + s.completed = s.initial.toNat + s.posts
  covered : (∃ w, s.threads w = .waiting) → s.value.toNat ≤ count Thread.isSignalled s.threads

theorem toNat_pos {v : UInt32} : 0 < v.toNat ↔ v ≠ 0 :=
  UInt32.lt_iff_toNat_lt.symm.trans UInt32.pos_iff_ne_zero

theorem toNat_pred {v : UInt32} (h : v ≠ 0) : (v - 1).toNat = v.toNat - 1 :=
  UInt32.toNat_sub_of_le _ _ (UInt32.le_iff_toNat_le.2 (toNat_pos.2 h))

theorem toNat_succ {v : UInt32} (h : v.toNat + 1 < 2 ^ 32) : (v + 1).toNat = v.toNat + 1 := by
  rw [UInt32.toNat_add, UInt32.toNat_one, Nat.mod_eq_of_lt h]

theorem toNat_succ_eq_one {v : UInt32} : v + 1 = 1 ↔ v = 0 := by
  refine ⟨fun h => ?_, fun h => by rw [h]; rfl⟩
  rw [← UInt32.add_sub_cancel v 1, h]
  rfl

omit [Fintype T] in
theorem waits_of_update {f : T → Thread Life} {w : T} {st : Thread Life} (hst : st ≠ .waiting)
    (h : ∃ v, Function.update f w st v = .waiting) : ∃ v, f v = .waiting := by
  obtain ⟨v, hv⟩ := h
  by_cases e : v = w
  · subst e
    rw [Function.update_self] at hv
    exact absurd hv hst
  · exact ⟨v, by rwa [Function.update_of_ne e] at hv⟩

namespace Covered
variable {s : UvSemaphore T} (h : Covered s)
include h

theorem take {w : T} {a : Life} (hne : s.value ≠ 0) : Covered (s.take.setThread w (.awake a)) where
  ledger := by
    have := h.ledger
    have hp := toNat_pred hne
    have := toNat_pos.2 hne
    simp only [UvSemaphore.take, UvSemaphore.setThread]
    omega
  covered hw := by
    have hu := count_update Thread.isSignalled s.threads w (.awake a)
    have hb := Bool.toNat_le (s.threads w).isSignalled
    have hle := h.covered (waits_of_update (by simp) hw)
    have hp := toNat_pred hne
    simp only [UvSemaphore.take, UvSemaphore.setThread, Thread.isSignalled_awake, Bool.toNat_false] at hu ⊢
    omega

theorem wait (w : T) : Covered (s.wait w) := by
  unfold UvSemaphore.wait
  split
  · next hz =>
    refine ⟨h.ledger, fun _ => ?_⟩
    simp [UvSemaphore.setThread, hz]
  · next hne => exact h.take hne

theorem tryWait {w : T} (locked : Bool) (hw : s.threads w = .awake .running) : Covered (s.tryWait locked).1 := by
  unfold UvSemaphore.tryWait
  split
  · exact h
  · split
    · exact h
    · next hne =>
      have ht := h.take (w := w) (a := .running) hne
      rwa [UvSemaphore.setThread, ← hw, show s.threads w = s.take.threads w from rfl, Function.update_eq_self] at ht

theorem setThread {w : T} {st : Thread Life} (hst : st ≠ .waiting)
    (hle : (s.threads w).isSignalled.toNat ≤ st.isSignalled.toNat) : Covered (s.setThread w st) where
  ledger := h.ledger
  covered hw := by
    have hu := count_update Thread.isSignalled s.threads w st
    have := h.covered (waits_of_update hst hw)
    simp only [UvSemaphore.setThread]
    omega

omit [DecidableEq T] in
theorem post {w : T} {woken : T → Bool} (hp : PostsCovered s (.post w woken)) (hw : Wakes s.threads woken) :
    Covered (s.post woken) := by
  obtain ⟨hmax, hcov⟩ := hp
  have hl := h.ledger
  have hs := toNat_succ hmax
  unfold UvSemaphore.post
  dsimp only
  split
  · next hone =>
    refine ⟨by dsimp only; omega, fun ⟨v, hv⟩ => ?_⟩
    have := hw.card_signalled (waiting_of_signal _ _ hv)
    simp only [hone, UInt32.toNat_one]
    omega
  · next hone =>
    have hpos : s.value ≠ 0 := fun e => hone (toNat_succ_eq_one.2 e)
    refine ⟨by dsimp only; omega, fun hv => ?_⟩
    have := hcov (UInt32.pos_iff_ne_zero.2 hpos) hv
    dsimp only
    omega

end Covered

theorem covered_step {s t : UvSemaphore T} {l : Label T} (h : Covered s) (hp : PostsCovered s l) (hs : Step s l t) :
    Covered t := by
  cases hs with
  | post _ hw => exact h.post hp hw
  | wait _ | resume _ => exact h.wait _
  | tryWait locked hw => exact h.tryWait locked hw
  | finish hw | wake hw => exact h.setThread (by simp) (by simp [hw])

theorem covered_inductive (T : Type*) [DecidableEq T] [Fintype T] :
    ((system T).restrict PostsCovered).Inductive Covered where
  init := by
    rintro s ⟨v, hv⟩
    cases hv
    exact ⟨by simp, by simp⟩
  step _ _ _ h hs := covered_step h hs.1 hs.2

/-- **No wakeup is lost while the posts are covered**: in every run whose posts all meet `PostsCovered`, no more waits
nobody able to take a step. -/
theorem no_thread_stranded {s : UvSemaphore T} (h : ((system T).restrict PostsCovered).Reachable s) :
    s.completed ≤ s.initial.toNat + s.posts ∧ s.value.toNat = s.initial.toNat + s.posts - s.completed ∧
      ¬ Stranded s := by
  have hc := (covered_inductive T).reachable h
  have hl := hc.ledger
  refine ⟨by omega, by omega, fun ⟨hpos, w, hw, hstuck⟩ => ?_⟩
  have hle := hc.covered ⟨w, hw⟩
  have hp := toNat_pos.2 (UInt32.pos_iff_ne_zero.1 hpos)
  obtain ⟨v, hv⟩ := exists_of_count_pos Thread.isSignalled s.threads (by omega)
  rw [Thread.isSignalled_iff] at hv
  refine hstuck v ?_ (canStep_iff.2 (.inr hv))
  rintro rfl
  rw [hw] at hv
  cases hv

/-- Two waiters and a post: one of them is woken, and has not run yet. -/
theorem no_thread_stranded_two : ∃ s : UvSemaphore (Fin 3), ((system (Fin 3)).restrict PostsCovered).Reachable s ∧
    s.value = 1 ∧ s.threads 1 = .waiting ∧ ¬ Stranded s := by
  have h0 : ((system (Fin 3)).restrict PostsCovered).Reachable ⟨0, fun _ => .awake .running, 0, 0, 0⟩ :=
    .init ⟨0, rfl⟩
  have h1 := h0.step (l := Label.wait 0) ⟨trivial, .wait rfl⟩
  have h2 := h1.step (l := Label.wait 1) ⟨trivial, .wait rfl⟩
  have h3 := h2.step (l := Label.post 2 ![true, false, false])
    ⟨⟨by decide, fun hpos => absurd hpos (by decide)⟩, .post rfl fun _ => ⟨0, rfl, rfl⟩⟩
  exact ⟨_, h3, rfl, rfl, (no_thread_stranded h3).2.2⟩

/-! ## A post that is not covered -/

/-- With one unit more than there are woken threads, the woken threads leave a unit beside the waiter. -/
theorem drains {s : UvSemaphore T} {w : T} (hw : s.threads w = .waiting)
    (hv : s.value.toNat = count Thread.isSignalled s.threads + 1) :
    ∃ ls t, (system T).Run s ls t ∧ Stranded t ∧ ∀ l ∈ ls, ∃ v, l = .resume v ∨ l = .finish v := by
  generalize hm : 2 * count Thread.isSignalled s.threads + count (fun st => decide (st = .awake .running)) s.threads = m
  induction m using Nat.strong_induction_on generalizing s with
  | _ m ih =>
    have hne : s.value ≠ 0 := toNat_pos.1 (by omega)
    by_cases hstep : ∃ v, CanStep s v
    · obtain ⟨v, hcan⟩ := hstep
      have hwv : w ≠ v := by
        rintro rfl
        rw [canStep_iff, hw] at hcan
        simp at hcan
      rcases canStep_iff.1 hcan with hr | hsig
      · have hu := count_update Thread.isSignalled s.threads v (.awake .finished)
        have hu' := count_update (fun st => decide (st = .awake .running)) s.threads v (.awake .finished)
        simp only [hr, Thread.isSignalled_awake, Bool.toNat_false, decide_true, Bool.toNat_true,
          Thread.awake.injEq, reduceCtorEq, decide_false] at hu hu'
        obtain ⟨ls, t, hrun, hstr, hls⟩ := ih _ (by simp only [UvSemaphore.setThread]; omega)
          (s := s.setThread v (.awake .finished)) (by simpa [UvSemaphore.setThread, Function.update_of_ne hwv] using hw)
          (by simp only [UvSemaphore.setThread]; omega) rfl
        exact ⟨_, t, (LTS.Run.snoc (T := system T) (.nil s) (.finish hr)).append hrun, hstr, by simpa using hls⟩
      · have hwait : s.wait v = s.take.setThread v (.awake .running) := if_neg hne
        have hp := toNat_pred hne
        have hu := count_update_loss (p := Thread.isSignalled) (f := s.threads) (s := .awake .running)
          (by rw [hsig]; rfl) rfl
        have hu' := count_update_gain (p := fun st => decide (st = .awake .running)) (f := s.threads)
          (s := .awake .running) (by rw [hsig]; rfl) rfl
        obtain ⟨ls, t, hrun, hstr, hls⟩ := ih _ (by simp only [UvSemaphore.setThread, UvSemaphore.take]; omega)
          (s := s.take.setThread v (.awake .running))
          (by simpa [UvSemaphore.setThread, UvSemaphore.take, Function.update_of_ne hwv] using hw)
          (by simp only [UvSemaphore.setThread, UvSemaphore.take]; omega) rfl
        refine ⟨_, t, (LTS.Run.snoc (T := system T) (.nil s) (.resume hsig)).append (hwait ▸ hrun), hstr, by simpa using hls⟩
    · exact ⟨[], s, .nil s, ⟨UInt32.pos_iff_ne_zero.2 hne, w, hw, fun v _ hcan => hstep ⟨v, hcan⟩⟩, nofun⟩

/-- **A post that is not covered strands a thread**, when the threads that are awake finish their calls and make no
more. -/
theorem overpost_strands {s t : UvSemaphore T} {w : T} {woken : T → Bool}
    (h : ((system T).restrict PostsCovered).Reachable s) (hmax : s.value.toNat + 1 < 2 ^ 32)
    (hp : ¬ PostsCovered s (.post w woken)) (hs : Step s (.post w woken) t) :
    ∃ ls u, (system T).Run t ls u ∧ Stranded u ∧ ∀ l ∈ ls, ∃ v, l = .resume v ∨ l = .finish v := by
  have hc := (covered_inductive T).reachable h
  simp only [PostsCovered, hmax, true_and, Classical.not_imp, not_lt] at hp
  obtain ⟨hpos, ⟨v, hv⟩, hle⟩ := hp
  have heq := le_antisymm (hc.covered ⟨v, hv⟩) hle
  have hone : s.value + 1 ≠ 1 := fun e => UInt32.pos_iff_ne_zero.1 hpos (toNat_succ_eq_one.1 e)
  cases hs
  rw [show s.post woken = { s with value := s.value + 1, posts := s.posts + 1 } from if_neg hone]
  exact drains hv ((toNat_succ hmax).trans (congrArg (· + 1) heq))

theorem overpost_strands_two : ∃ s u : UvSemaphore (Fin 3), ∃ ls, (system (Fin 3)).Run s ls u ∧ Stranded u := by
  have h0 : ((system (Fin 3)).restrict PostsCovered).Reachable ⟨0, fun _ => .awake .running, 0, 0, 0⟩ :=
    .init ⟨0, rfl⟩
  have h1 := h0.step (l := Label.wait 0) ⟨trivial, .wait rfl⟩
  have h2 := h1.step (l := Label.wait 1) ⟨trivial, .wait rfl⟩
  have h3 := h2.step (l := Label.post 2 ![true, false, false])
    ⟨⟨by decide, fun hpos => absurd hpos (by decide)⟩, .post rfl fun _ => ⟨0, rfl, rfl⟩⟩
  obtain ⟨ls, u, hrun, hu, -⟩ := overpost_strands h3 (by decide)
    (fun hp => absurd (hp.2 (by decide) ⟨1, rfl⟩) (by decide))
    (.post rfl fun _ => ⟨1, rfl, rfl⟩ : Step _ (.post 2 ![false, true, false]) _)
  exact ⟨_, u, ls, hrun, hu⟩

/-- Two threads sleep, a third one posts twice before the woken one has run. -/
theorem lost_wakeup : ∃ s : UvSemaphore (Fin 3), (system (Fin 3)).Reachable s ∧ Stranded s := by
  have h0 : (system (Fin 3)).Reachable ⟨0, fun _ => .awake .running, 0, 0, 0⟩ := .init ⟨0, rfl⟩
  have h1 := h0.step (.wait (w := 0) rfl)
  have h2 := h1.step (.wait (w := 1) rfl)
  have h3 := h2.step (l := Label.post 2 ![true, false, false]) (.post rfl fun _ => ⟨0, rfl, rfl⟩)
  have h4 := h3.step (l := Label.post 2 ![false, true, false]) (.post rfl fun _ => ⟨1, rfl, rfl⟩)
  have h5 := h4.step (.resume (w := 0) rfl)
  have h6 := h5.step (.finish (w := 0) rfl)
  have h7 := h6.step (.finish (w := 2) rfl)
  refine ⟨_, h7, by decide, 1, rfl, fun v hv hcan => ?_⟩
  rw [canStep_iff] at hcan
  fin_cases v <;> simp_all <;> rcases hcan with h | h <;> cases h

end Libuv.L4.Semaphore
