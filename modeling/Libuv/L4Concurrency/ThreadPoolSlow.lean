import Libuv.L4Concurrency.ThreadPoolWake

/-!
# Slow I/O in the thread pool

Slow requests wait in `slow_io_pending_wq` behind one message in `wq`. `Slow` is what every step keeps: the
message is there at most once, it is there while a request is pending, and no more slow requests run than half of
the threads. A cancel may take the last pending request away; the message stays, and the worker that finds it
drops it.

* `slow_io`: so it does for the number of slow workers, which `slow_io_work_running` counts.
-/
namespace Libuv.L4.ThreadPool

variable {n : ℕ} {R L : Type*} [DecidableEq R]

structure Slow (s : Pool n R L) : Prop where
  bound : s.slowIoWorkRunning ≤ slowWorkThreadThreshold n
  once : s.wq.count .runSlowWorkMessage ≤ 1
  present : s.slowIoPendingWq ≠ [] → .runSlowWorkMessage ∈ s.wq

theorem enqueue_slowIoPendingWq (s : Pool n R L) (q : Node R) (woken : Fin n → Bool) :
    (s.enqueue q woken).slowIoPendingWq = s.slowIoPendingWq := by
  unfold Pool.enqueue Pool.signalIfIdle
  split <;> rfl

namespace Slow
variable {s t : Pool n R L} (h : Slow s)
include h

theorem same (hc : t.slowIoWorkRunning = s.slowIoWorkRunning) (hw : t.wq = s.wq)
    (hp : t.slowIoPendingWq = s.slowIoPendingWq) : Slow t :=
  ⟨hc ▸ h.bound, hw ▸ h.once, hp ▸ hw ▸ h.present⟩

theorem others (hc : t.slowIoWorkRunning = s.slowIoWorkRunning)
    (hw : t.wq.count .runSlowWorkMessage = s.wq.count .runSlowWorkMessage)
    (hp : t.slowIoPendingWq ≠ [] → s.slowIoPendingWq ≠ []) : Slow t := by
  refine ⟨hc ▸ h.bound, hw ▸ h.once, fun hne => List.count_pos_iff.1 ?_⟩
  rw [hw]
  exact List.count_pos_iff.2 (h.present (hp hne))

theorem enqueue {q : Node R} (hq : q ≠ .runSlowWorkMessage) (woken : Fin n → Bool) : Slow (s.enqueue q woken) := by
  refine h.others (Pool.enqueue_slowIoWorkRunning ..) ?_ (by rw [enqueue_slowIoPendingWq]; exact id)
  simp [hq]

omit h in
theorem enqueue_message (hb : s.slowIoWorkRunning ≤ slowWorkThreadThreshold n) (hno : .runSlowWorkMessage ∉ s.wq)
    (woken : Fin n → Bool) : Slow (s.enqueue .runSlowWorkMessage woken) := by
  refine ⟨by rw [Pool.enqueue_slowIoWorkRunning]; exact hb, ?_, fun _ => by simp [Pool.enqueue_wq]⟩
  rw [Pool.enqueue_wq, List.count_append, List.count_eq_zero.2 hno]
  simp

theorem submit (r : R) (l : L) (kind : WorkKind) (woken : Fin n → Bool) : Slow (s.submit r l kind woken) := by
  unfold Pool.submit Pool.post
  set s1 : Pool n R L :=
    { s with reqs := Function.update s.reqs r (some ⟨l, .work, false⟩) }.modify r fun k => { k with linked := true }
  have h1 : Slow s1 := h.same rfl rfl rfl
  cases kind with
  | slowIo =>
    dsimp only
    split
    · next hin => exact ⟨h1.bound, h1.once, fun _ => hin⟩
    · next hno => exact enqueue_message (s := { s1 with slowIoPendingWq := s1.slowIoPendingWq ++ [r] }) h1.bound hno woken
  | cpu | fastIo => exact h1.enqueue (q := .work r) nofun woken

theorem lock {w : Fin n} (hl : s.lock w = some t) : Slow t := by
  unfold Pool.lock at hl
  split at hl
  · cases hl
    exact h.same rfl rfl rfl
  · cases hl
    exact h.same rfl rfl rfl
  · cases hl
    exact ⟨(Nat.sub_le _ _).trans h.bound, h.once, h.present⟩
  · cases hl

theorem message_head {rest : List (Node R)} (hwq : s.wq = .runSlowWorkMessage :: rest) : .runSlowWorkMessage ∉ rest := by
  have := h.once
  rw [hwq, List.count_cons_self] at this
  exact List.count_eq_zero.1 (by omega)

theorem iterate (w : Fin n) (woken : Fin n → Bool) : Slow (s.workerLoop w woken) := by
  unfold Pool.workerLoop
  split
  · exact h.same rfl rfl rfl
  · split
    · exact h
    · exact h.same rfl rfl rfl
    · next r rest hwq =>
      refine h.others rfl ?_ id
      rw [hwq]
      rfl
    · next rest hwq =>
      have hno := h.message_head hwq
      split
      · -- at the threshold the message goes behind the others
        refine ⟨h.bound, ?_, fun _ => by simp⟩
        rw [List.count_append, List.count_eq_zero.2 hno]
        simp
      · next hlt =>
        split
        · next hp => exact ⟨h.bound, by rw [List.count_eq_zero.2 hno]; exact Nat.zero_le 1, fun hne => absurd hp hne⟩
        · next r pending hp =>
          split
          · next he =>
            refine ⟨Nat.not_le.1 hlt, ?_, fun hne => absurd he hne⟩
            show rest.count _ ≤ 1
            rw [List.count_eq_zero.2 hno]
            exact Nat.zero_le 1
          · set s1 : Pool n R L :=
              { s with wq := rest, slowIoPendingWq := pending, slowIoWorkRunning := s.slowIoWorkRunning + 1 }
            have h1 : Slow (s1.enqueue .runSlowWorkMessage woken) :=
              enqueue_message (s := s1) (Nat.not_le.1 hlt) hno woken
            exact h1.same rfl rfl rfl

theorem unlink [DecidableEq L] (r : R) : Slow (s.unlink r) := by
  refine h.others rfl (List.count_erase_of_ne (by simp)) fun hne he => hne ?_
  show s.slowIoPendingWq.erase r = []
  rw [he]
  rfl

end Slow

variable [DecidableEq L]

theorem slow_step {s t : Pool n R L} {l : Label n R L} (h : Slow s) (hs : Step s l t) : Slow t := by
  cases hs with
  | lock _ hl => exact h.lock hl
  | iterate _ _ => exact h.iterate _ _
  | submit _ _ _ _ _ _ _ => exact h.submit _ _ _ _
  | postExit _ _ _ => exact (h.same (t := { s with exitPosted := true }) rfl rfl rfl).enqueue (q := .exitMessage) nofun _
  | cancelHit _ _ _ => exact (h.unlink _).same rfl rfl rfl
  | cancelBusy _ _ _ => exact h
  | wake _ | workStart _ | workReturn _ | relink _ _ | cancelOk _ | workDone _ _ | done _ _ _ => exact h.same rfl rfl rfl

theorem slow_run : (system n R L).Inductive Slow where
  init := by
    rintro s rfl
    exact ⟨Nat.zero_le _, Nat.zero_le _, fun hne => absurd rfl hne⟩
  step _ _ _ h hs := slow_step h hs

/-- **Slow I/O cannot starve the pool**: in every reachable state `slow_io_work_running` is the number of the workers
with `is_slow_work` set, and at most half of the threads, rounded up; the message is in `wq` at most once, and while
`mutex` is free and a slow request is pending it is there. -/
theorem slow_io {s : Pool n R L} (hr : (system n R L).Reachable s) :
    s.slowIoWorkRunning = (slowWorkers s).card ∧ s.slowIoWorkRunning ≤ (n + 1) / 2 ∧
      s.wq.count .runSlowWorkMessage ≤ 1 ∧ (s.mutex = none → s.slowIoPendingWq ≠ [] → .runSlowWorkMessage ∈ s.wq) := by
  have h := slow_run.reachable hr
  exact ⟨(served_run.reachable hr).slow, h.bound, h.once, fun _ => h.present⟩

/-- Two threads: one runs a slow request, another one is pending. -/
theorem slow_io_two : ∃ s : Pool 2 ℕ Unit, (system 2 ℕ Unit).Reachable s ∧ s.slowIoPendingWq = [1] ∧ s.mutex = none ∧
    s.slowIoWorkRunning = (slowWorkers s).card ∧ .runSlowWorkMessage ∈ s.wq := by
  have hw : ∀ s : Pool 2 ℕ Unit, s.Wakes fun _ => true := fun _ ⟨w, h⟩ => ⟨w, h, rfl⟩
  have h1 := (LTS.History.nil (T := system 2 ℕ Unit) rfl).snoc (.submit 0 () .slowIo (fun _ => true) rfl rfl (hw _))
  have h2 := h1.snoc (.submit 1 () .slowIo (fun _ => true) rfl rfl (hw _))
  have h3 := h2.snoc (.lock (w := 0) rfl rfl)
  have h4 := h3.snoc (.iterate (w := 0) rfl (hw _))
  have h := slow_io ⟨_, h4⟩
  exact ⟨_, ⟨_, h4⟩, rfl, rfl, h.1, h.2.2.2 rfl (by decide)⟩

end Libuv.L4.ThreadPool
