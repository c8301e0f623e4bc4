import Libuv.L4Concurrency.ThreadPool

/-!
# The thread pool loses no wakeup

`post` signals only when `idle_threads` is not 0, once; a worker that puts
`run_slow_work_message` back signals nobody, and neither does a `post` that finds the
message in `wq` already. The invariant that makes this enough is `Served`: while
anything at all is in `wq` and some worker has not left, a worker is awake, that is
neither in `uv_cond_wait` unsignalled nor gone. A worker only goes to sleep on an empty
queue, or on the lone message while the slow workers that keep it from running it are
themselves awake (`slow_io_work_running` counts them); and whoever links something into
an empty queue wakes a waiter or finds that there is none (`idle_threads` counts them).

* `no_lost_wakeup`: the two consequences, for runnable work and for the exit message.
-/
namespace Libuv.L4.ThreadPool

open Function

variable {n : ℕ} {R L : Type*} [DecidableEq R]

/-- Something in `wq` can be run: an item that is not `run_slow_work_message`, or that
message with a slow request pending and the slow workers below their threshold. -/
def Runnable (s : Pool n R L) : Prop :=
  (∃ q ∈ s.wq, q ≠ .runSlowWorkMessage) ∨ (.runSlowWorkMessage ∈ s.wq ∧ s.slowIoPendingWq ≠ [] ∧
      s.slowIoWorkRunning < slowWorkThreadThreshold n)

/-- Neither blocked in `uv_cond_wait` nor gone. -/
def Awake (s : Pool n R L) (w : Fin n) : Prop := s.workers w ≠ .waiting ∧ s.workers w ≠ .exited

/-- The workers inside `uv_cond_wait`, signalled or not. -/
def idlers (s : Pool n R L) : Finset (Fin n) :=
  Finset.univ.filter fun w => s.workers w = .waiting ∨ s.workers w = .signalled

theorem mem_idlers {s : Pool n R L} {w : Fin n} :
    w ∈ idlers s ↔ s.workers w = .waiting ∨ s.workers w = .signalled := by simp [idlers]

/-- `is_slow_work` of a worker that has taken a request and not counted it off. -/
def WorkerState.isSlow : WorkerState R → Bool
  | .busy _ _ slow => slow
  | .relinked slow => slow
  | _ => false

def slowWorkers (s : Pool n R L) : Finset (Fin n) :=
  Finset.univ.filter fun w => (s.workers w).isSlow = true

omit [DecidableEq R] in
theorem mem_slowWorkers {s : Pool n R L} {w : Fin n} :
    w ∈ slowWorkers s ↔ (s.workers w).isSlow = true := by simp [slowWorkers]

structure Served (s : Pool n R L) : Prop where
  mutex : ∀ w, s.mutex = some w ↔ s.workers w = .looping
  idle : s.idleThreads = (idlers s).card
  slow : s.slowIoWorkRunning = (slowWorkers s).card
  exit : s.exitPosted = true → .exitMessage ∈ s.wq
  awake : s.wq ≠ [] → (∃ w, s.workers w ≠ .exited) → ∃ w, Awake s w

/-! ## Signals -/

section Signal
variable {s : Pool n R L} {woken : Fin n → Bool} {w : Fin n}

theorem condSignal_workers : (s.condSignal woken).workers w =
    if s.workers w = .waiting ∧ woken w = true then .signalled else s.workers w := rfl

theorem signalIfIdle_workers : (s.signalIfIdle woken).workers w = s.workers w ∨
    s.workers w = .waiting ∧ (s.signalIfIdle woken).workers w = .signalled := by
  unfold Pool.signalIfIdle
  split
  · rw [condSignal_workers]
    split
    · next h => exact .inr ⟨h.1, rfl⟩
    · exact .inl rfl
  · exact .inl rfl

theorem idlers_eq {t : Pool n R L} (h : ∀ w, t.workers w = s.workers w ∨
    s.workers w = .waiting ∧ t.workers w = .signalled) : idlers t = idlers s := by
  ext w
  rw [mem_idlers, mem_idlers]
  rcases h w with e | ⟨e1, e2⟩
  · rw [e]
  · simp [e1, e2]

omit [DecidableEq R] in
theorem slowWorkers_eq {t : Pool n R L} (h : ∀ w, t.workers w = s.workers w ∨
    s.workers w = .waiting ∧ t.workers w = .signalled) : slowWorkers t = slowWorkers s := by
  ext w
  rw [mem_slowWorkers, mem_slowWorkers]
  rcases h w with e | ⟨e1, e2⟩
  · rw [e]
  · simp [e1, e2, WorkerState.isSlow]

theorem idlers_setWorker {st : WorkerState R}
    (hs : st = .waiting ∨ st = .signalled ↔ s.workers w = .waiting ∨ s.workers w = .signalled) :
    idlers (s.setWorker w st) = idlers s := by
  ext w'
  rw [mem_idlers, mem_idlers]
  simp only [Pool.setWorker, update_apply]
  split
  · next e => rw [e, hs]
  · rfl

omit [DecidableEq R] in
theorem slowWorkers_setWorker {st : WorkerState R} (hs : st.isSlow = (s.workers w).isSlow) :
    slowWorkers (s.setWorker w st) = slowWorkers s := by
  ext w'
  rw [mem_slowWorkers, mem_slowWorkers]
  simp only [Pool.setWorker, update_apply]
  split
  · next e => rw [e, hs]
  · rfl

theorem awake_condSignal (hw : s.Wakes woken) (hl : s.workers w ≠ .exited) :
    ∃ w', Awake (s.condSignal woken) w' := by
  by_cases hx : ∃ w', s.workers w' = .waiting
  · obtain ⟨w', h1, h2⟩ := hw hx
    refine ⟨w', ?_⟩
    simp [Awake, condSignal_workers, h1, h2]
  · refine ⟨w, ?_⟩
    have : s.workers w ≠ .waiting := fun e => hx ⟨w, e⟩
    simp [Awake, condSignal_workers, this, hl]

theorem awake_signalIfIdle (hi : s.idleThreads = (idlers s).card) (hw : s.Wakes woken)
    (hl : s.workers w ≠ .exited) : ∃ w', Awake (s.signalIfIdle woken) w' := by
  unfold Pool.signalIfIdle
  split
  · exact awake_condSignal hw hl
  · next h0 =>
    -- nobody is inside `uv_cond_wait`
    have hempty : idlers s = ∅ := Finset.card_eq_zero.mp (by omega)
    refine ⟨w, fun e => ?_, hl⟩
    have : w ∈ idlers s := mem_idlers.mpr (.inl e)
    rw [hempty] at this
    exact absurd this (Finset.notMem_empty w)

theorem enqueue_workers {q : Node R} (h : s.workers w ≠ .waiting) :
    (s.enqueue q woken).workers w = s.workers w := by
  rcases signalIfIdle_workers (s := { s with wq := s.wq ++ [q] }) (w := w) with e | ⟨e, -⟩
  · exact e
  · exact absurd e h

theorem enqueue_counted {q : Node R} (k : ℕ) : Pool.enqueue { s with slowIoWorkRunning := k } q woken =
    { s.enqueue q woken with slowIoWorkRunning := k } := by
  unfold Pool.enqueue Pool.signalIfIdle
  split <;> rfl

end Signal

/-! ## Steps -/

namespace Served
variable {s t : Pool n R L} (h : Served s)
include h

theorem same (hm : t.mutex = s.mutex) (hi : t.idleThreads = s.idleThreads)
    (hs : t.slowIoWorkRunning = s.slowIoWorkRunning) (hw : t.workers = s.workers)
    (hx : t.exitPosted = true → .exitMessage ∈ t.wq) (hr : t.wq ≠ [] → s.wq ≠ []) : Served t where
  mutex w := by rw [hm, hw]; exact h.mutex w
  idle := by rw [hi, h.idle]; unfold idlers; rw [hw]
  slow := by rw [hs, h.slow]; unfold slowWorkers; rw [hw]
  exit := hx
  awake h1 h2 := by
    rw [hw] at h2
    obtain ⟨w, h3⟩ := h.awake (hr h1) h2
    exact ⟨w, by unfold Awake; rw [hw]; exact h3⟩

variable {w : Fin n} {woken : Fin n → Bool}

theorem busy {st : WorkerState R} (h1 : s.workers w ≠ .looping)
    (h2 : s.workers w ≠ .signalled) (h3 : s.workers w ≠ .waiting) (h4 : st ≠ .looping)
    (h5 : st ≠ .waiting) (h6 : st ≠ .signalled) (h7 : st ≠ .exited)
    (hs : st.isSlow = (s.workers w).isSlow) : Served (s.setWorker w st) where
  mutex w' := by
    simp only [Pool.setWorker, update_apply]
    split
    · next e => rw [e, h.mutex w]; simp [h1, h4]
    · exact h.mutex w'
  idle := h.idle.trans (congrArg _ (idlers_setWorker (by simp [h2, h3, h5, h6])).symm)
  slow := h.slow.trans (congrArg _ (slowWorkers_setWorker hs).symm)
  exit := h.exit
  awake _ _ := ⟨w, by simp [Awake, Pool.setWorker, h5, h7]⟩

theorem enqueue {q : Node R} (hw : s.Wakes woken) : Served (s.enqueue q woken) := by
  have hworkers : ∀ w, (s.enqueue q woken).workers w = s.workers w ∨
      s.workers w = .waiting ∧ (s.enqueue q woken).workers w = .signalled := fun w =>
    signalIfIdle_workers (s := { s with wq := s.wq ++ [q] })
  refine ⟨fun w => ?_, ?_, ?_, fun he => ?_, fun _ hl => ?_⟩
  · rw [Pool.enqueue_mutex, h.mutex]
    rcases hworkers w with e | ⟨e1, e2⟩
    · rw [e]
    · simp [e1, e2]
  · rw [Pool.enqueue_idleThreads, idlers_eq hworkers, h.idle]
  · rw [Pool.enqueue_slowIoWorkRunning, slowWorkers_eq hworkers, h.slow]
  · rw [Pool.enqueue_exitPosted] at he
    rw [Pool.enqueue_wq]
    exact List.mem_append_left _ (h.exit he)
  · obtain ⟨w, hl⟩ := hl
    refine awake_signalIfIdle (s := { s with wq := s.wq ++ [q] }) h.idle hw (w := w) fun e => hl ?_
    rcases hworkers w with e' | ⟨e1, -⟩
    · exact e'.trans e
    · exact absurd (e1.symm.trans e) (by simp)

theorem postExit (hw : s.Wakes woken) : Served (s.postExit woken) := by
  have he : s.postExit woken = { s.enqueue .exitMessage woken with exitPosted := true } := by
    unfold Pool.postExit Pool.enqueue Pool.signalIfIdle
    split <;> rfl
  rw [he]
  exact (h.enqueue hw).same rfl rfl rfl rfl (fun _ => by simp) id

theorem submit {r : R} {l : L} {kind : WorkKind} (hw : s.Wakes woken) :
    Served (s.submit r l kind woken) := by
  unfold Pool.submit Pool.post
  set s1 : Pool n R L :=
    { s with reqs := Function.update s.reqs r (some ⟨l, .work, false⟩) }.modify r
      fun k => { k with linked := true }
  have h1 : Served s1 := h.same rfl rfl rfl rfl h.exit id
  cases kind with
  | slowIo =>
    have h2 : Served { s1 with slowIoPendingWq := s1.slowIoPendingWq ++ [r] } :=
      h1.same rfl rfl rfl rfl h1.exit id
    simp only
    split
    · exact h2
    · exact h2.enqueue hw
  | cpu | fastIo => exact h1.enqueue hw

theorem take {r : R} (hw : s.workers w = .looping) (slow : Bool) :
    Served { s.take w r slow with
      slowIoWorkRunning := s.slowIoWorkRunning + if slow then 1 else 0 } where
  mutex w' := by
    simp only [Pool.take, Pool.modify, Pool.setWorker, update_apply]
    split
    · simp
    · next e =>
      rw [← h.mutex w', (h.mutex w).mpr hw]
      simp [Ne.symm e]
  idle := by
    refine h.idle.trans (congrArg _ ?_)
    ext w'
    simp only [mem_idlers, Pool.take, Pool.modify, Pool.setWorker, update_apply]
    split
    · next e => simp [e, hw]
    · rfl
  slow := by
    have hn : w ∉ slowWorkers s := by simp [mem_slowWorkers, hw, WorkerState.isSlow]
    simp only [h.slow]
    cases slow with
    | true =>
      rw [if_pos rfl, ← Finset.card_insert_of_notMem hn]
      refine congrArg _ ?_
      ext w'
      rw [Finset.mem_insert, mem_slowWorkers, mem_slowWorkers]
      simp only [Pool.take, Pool.modify, Pool.setWorker, update_apply]
      split
      · next e => simp [e, WorkerState.isSlow]
      · next e => simp [e]
    | false =>
      rw [if_neg (by simp), Nat.add_zero]
      refine congrArg _ ?_
      ext w'
      rw [mem_slowWorkers, mem_slowWorkers]
      simp only [Pool.take, Pool.modify, Pool.setWorker, update_apply]
      split
      · next e => simp [e, hw, WorkerState.isSlow]
      · rfl
  exit := h.exit
  awake _ _ := ⟨w, by simp [Awake, Pool.take, Pool.setWorker]⟩

theorem wait (hw : s.workers w = .looping) (hm : s.mustWait = true) :
    Served { s.setWorker w .waiting with idleThreads := s.idleThreads + 1, mutex := none } where
  mutex w' := by
    simp only [Pool.setWorker, update_apply]
    split
    · simp
    · next e =>
      rw [← h.mutex w', (h.mutex w).mpr hw]
      simp [Ne.symm e]
  idle := by
    have hn : w ∉ idlers s := by simp [mem_idlers, hw]
    simp only [h.idle]
    rw [← Finset.card_insert_of_notMem hn]
    refine congrArg _ ?_
    ext w'
    rw [Finset.mem_insert, mem_idlers, mem_idlers]
    simp only [Pool.setWorker, update_apply]
    split
    · next e => simp [e]
    · next e => simp [e]
  slow := h.slow.trans (congrArg _ (slowWorkers_setWorker (by rw [hw]; rfl)).symm)
  exit := h.exit
  awake hne _ := by
    simp only [Pool.mustWait, Bool.or_eq_true, List.isEmpty_iff, Bool.and_eq_true, decide_eq_true_eq] at hm
    rcases hm with hm | ⟨-, hm⟩
    · exact absurd hm hne
    · -- the threshold is at least one, so some slow worker is counted
      have hn : 0 < n := w.pos
      have hpos : 0 < (slowWorkers s).card := by
        rw [← h.slow]
        simp only [slowWorkThreadThreshold] at hm
        omega
      obtain ⟨w', hw'⟩ := Finset.card_pos.mp hpos
      rw [mem_slowWorkers] at hw'
      have hne' : w' ≠ w := by
        rintro rfl
        rw [hw] at hw'; cases hw'
      refine ⟨w', ?_⟩
      simp only [Awake, Pool.setWorker, update_of_ne hne']
      constructor <;> intro e <;> rw [e] at hw' <;> cases hw'

theorem exit_tail {q : Node R} {rest : List (Node R)} (hwq : s.wq = q :: rest) (hq : .exitMessage ≠ q) :
    s.exitPosted = true → Node.exitMessage ∈ rest := by
  intro e
  have hmem := h.exit e
  rw [hwq] at hmem
  exact (List.mem_cons.1 hmem).resolve_left hq

theorem leave (hw : s.workers w = .looping) (hs : s.Wakes woken) :
    Served { (s.condSignal woken).setWorker w .exited with mutex := none } where
  mutex w' := by
    simp only [Pool.setWorker, update_apply, condSignal_workers]
    split
    · simp
    · next e =>
      have := h.mutex w'
      rw [(h.mutex w).mpr hw] at this
      split <;> simp_all [Ne.symm e]
  idle := by
    refine h.idle.trans (congrArg _ ?_)
    ext w'
    simp only [mem_idlers, Pool.setWorker, update_apply, condSignal_workers]
    split
    · next e => simp [e, hw]
    · split <;> simp_all
  slow := by
    refine h.slow.trans (congrArg _ ?_)
    ext w'
    simp only [mem_slowWorkers, Pool.setWorker, update_apply, condSignal_workers]
    split
    · next e => simp [e, hw, WorkerState.isSlow]
    · split <;> simp_all [WorkerState.isSlow]
  exit := h.exit
  awake _ hl := by
    obtain ⟨w', hl⟩ := hl
    have hne : w' ≠ w := by rintro rfl; simp [Pool.setWorker] at hl
    simp only [Pool.setWorker, update_of_ne hne, condSignal_workers] at hl
    by_cases hx : ∃ w'', s.workers w'' = .waiting
    · obtain ⟨w'', h1, h2⟩ := hs hx
      have hne' : w'' ≠ w := by rintro rfl; rw [hw] at h1; cases h1
      exact ⟨w'', by simp [Awake, Pool.setWorker, hne', condSignal_workers, h1, h2]⟩
    · have hnw : s.workers w' ≠ .waiting := fun e => hx ⟨w', e⟩
      rw [if_neg (fun e => hnw e.1)] at hl
      exact ⟨w', by simp [Awake, Pool.setWorker, hne, condSignal_workers, hnw, hl]⟩

theorem iterate (hw : s.workers w = .looping) (hs : s.Wakes woken) :
    Served (s.workerLoop w woken) := by
  unfold Pool.workerLoop
  split
  · next hm => exact h.wait hw hm
  · split
    · exact h
    · exact h.leave hw hs
    · next r rest hwq =>
      have hx := h.exit_tail hwq nofun
      have h1 : Served { s with wq := rest } := h.same rfl rfl rfl rfl hx (by simp [hwq])
      exact h1.take hw false
    · next rest hwq =>
      have hx := h.exit_tail hwq nofun
      split
      · exact h.same rfl rfl rfl rfl (fun e => List.mem_append_left _ (hx e)) (by simp [hwq])
      · split
        · exact h.same rfl rfl rfl rfl hx (by simp [hwq])
        · next r pending _ =>
          have h1 : Served { s with wq := rest, slowIoPendingWq := pending } :=
            h.same rfl rfl rfl rfl hx (by simp [hwq])
          split
          · exact h1.take hw true
          · -- the count and the message's insertion in the other order
            have hw' : ({ s with wq := rest, slowIoPendingWq := pending }.enqueue
                .runSlowWorkMessage woken).workers w = .looping := by
              rw [enqueue_workers (by simp [hw])]; exact hw
            have h2 := (h1.enqueue (q := .runSlowWorkMessage) hs).take (r := r) hw' true
            rw [Pool.enqueue_slowIoWorkRunning] at h2
            let u : Pool n R L := { s with wq := rest, slowIoPendingWq := pending }
            have hc := @enqueue_counted _ _ _ _ u woken .runSlowWorkMessage (s.slowIoWorkRunning + 1)
            simp only
            rw [hc]
            exact h2

theorem lock (hf : s.mutex = none) (hl : s.lock w = some t) : Served t := by
  have hmutex : ∀ w', some w = some w' ↔ (s.setWorker w .looping).workers w' = .looping := by
    intro w'
    simp only [Pool.setWorker, update_apply]
    split
    · next e => simp [e]
    · next e =>
      rw [← h.mutex w', hf]
      simp [Ne.symm e]
  have hslow (hs : (s.workers w).isSlow = false) : slowWorkers (s.setWorker w .looping) = slowWorkers s :=
    slowWorkers_setWorker hs.symm
  have hawake : Awake (s.setWorker w .looping) w := by simp [Awake, Pool.setWorker]
  unfold Pool.lock at hl
  split at hl
  · next hw =>
    cases hl
    refine ⟨hmutex, h.idle.trans (congrArg _ ?_), h.slow.trans (congrArg _ ?_), h.exit, fun _ _ => ⟨w, hawake⟩⟩
    · exact (idlers_setWorker (by simp [hw])).symm
    · exact (hslow (by rw [hw]; rfl)).symm
  · next hw =>
    cases hl
    refine ⟨hmutex, ?_, h.slow.trans (congrArg _ ?_), h.exit, fun _ _ => ⟨w, hawake⟩⟩
    · -- one idler less
      have hm : w ∈ idlers s := mem_idlers.mpr (.inr hw)
      simp only [h.idle]
      rw [← Finset.card_erase_of_mem hm]
      refine congrArg _ ?_
      ext w'
      rw [Finset.mem_erase, mem_idlers, mem_idlers]
      simp only [Pool.setWorker, update_apply]
      split
      · next e => simp [e]
      · next e => simp [e]
    · exact (hslow (by rw [hw]; rfl)).symm
  · next slow hw =>
    cases hl
    refine ⟨hmutex, h.idle.trans (congrArg _ ?_), ?_, h.exit, fun _ _ => ⟨w, hawake⟩⟩
    · exact (idlers_setWorker (by simp [hw])).symm
    · simp only [h.slow]
      cases slow with
      | false =>
        rw [if_neg (by simp), Nat.sub_zero]
        exact congrArg _ (hslow (by rw [hw]; rfl)).symm
      | true =>
        have hm : w ∈ slowWorkers s := by simp [mem_slowWorkers, hw, WorkerState.isSlow]
        rw [if_pos rfl, ← Finset.card_erase_of_mem hm]
        refine congrArg _ ?_
        ext w'
        rw [Finset.mem_erase, mem_slowWorkers, mem_slowWorkers]
        simp only [Pool.setWorker, update_apply]
        split
        · next e => simp [e, WorkerState.isSlow]
        · next e => simp [e]
  · cases hl

theorem wake (hw : s.workers w = .waiting) : Served (s.setWorker w .signalled) where
  mutex w' := by
    simp only [Pool.setWorker, update_apply]
    split
    · next e => rw [e, h.mutex w]; simp [hw]
    · exact h.mutex w'
  idle := h.idle.trans (congrArg _ (idlers_setWorker (by simp [hw])).symm)
  slow := h.slow.trans (congrArg _ (slowWorkers_setWorker (by rw [hw]; rfl)).symm)
  exit := h.exit
  awake _ _ := ⟨w, by simp [Awake, Pool.setWorker]⟩

end Served

variable [DecidableEq L]

theorem served_step {s t : Pool n R L} {l : Label n R L} (h : Served s) (hs : Step s l t) :
    Served t := by
  cases hs with
  | lock hf hl => exact h.lock hf hl
  | iterate hw hs => exact h.iterate hw hs
  | wake hw => exact h.wake hw
  | workStart hw | workReturn hw =>
    exact h.busy (by simp [hw]) (by simp [hw]) (by simp [hw]) (by simp) (by simp) (by simp) (by simp)
      (by simp [hw, WorkerState.isSlow])
  | @relink w r slow k hw _ =>
    have h1 : Served (s.setWorker w (.relinked slow)) :=
      h.busy (by simp [hw]) (by simp [hw]) (by simp [hw]) (by simp) (by simp) (by simp) (by simp)
        (by simp [hw, WorkerState.isSlow])
    exact h1.same rfl rfl rfl rfl h1.exit id
  | submit _ _ _ _ _ _ hs => exact h.submit hs
  | postExit _ _ hs => exact h.postExit hs
  | cancelBusy _ _ _ => exact h
  | cancelHit _ _ _ =>
    -- a request leaves a queue, the exit message does not
    refine h.same rfl rfl rfl rfl (fun e => ?_) fun hne e => hne ?_
    · exact (List.mem_erase_of_ne (by simp)).mpr (h.exit e)
    · simp [Pool.cancelRemove, Pool.unlink, e]
  | cancelOk _ | workDone _ _ | done _ _ _ => exact h.same rfl rfl rfl rfl h.exit id

theorem served_run : (system n R L).Inductive Served where
  init := by
    rintro s rfl
    refine ⟨?_, ?_, ?_, ?_, ?_⟩ <;> simp [Pool.initThreads, idlers, slowWorkers, WorkerState.isSlow]
  step _ _ _ h hs := served_step h hs

/-- **No lost wakeup.** In no reachable state are all workers that have not left blocked
in `uv_cond_wait`, none of them signalled, while something can be run; and once the exit
message is posted, never is some worker blocked there while every other one has left or
is blocked too. -/
theorem no_lost_wakeup {s : Pool n R L} (hr : (system n R L).Reachable s) :
    ¬ ((∃ w, s.workers w ≠ .exited) ∧ (∀ w, s.workers w ≠ .exited → s.workers w = .waiting) ∧ Runnable s) ∧
      (s.exitPosted = true → ¬ ∃ w, s.workers w = .waiting ∧
        ∀ w', w' ≠ w → s.workers w' = .exited ∨ s.workers w' = .waiting) := by
  have h := served_run.reachable hr
  refine ⟨?_, fun he => ?_⟩
  · rintro ⟨hl, hall, hrun⟩
    have hne : s.wq ≠ [] := by
      rcases hrun with ⟨q, hq, -⟩ | ⟨hq, -⟩ <;> exact List.ne_nil_of_mem hq
    obtain ⟨w, h1, h2⟩ := h.awake hne hl
    exact h1 (hall w h2)
  · rintro ⟨w, hw, hall⟩
    obtain ⟨w', h1, h2⟩ := h.awake (List.ne_nil_of_mem (h.exit he)) ⟨w, by simp [hw]⟩
    by_cases e : w' = w
    · exact h1 (e ▸ hw)
    · rcases hall w' e with e | e
      · exact h2 e
      · exact h1 e

/-- A request posted while the only worker sleeps. -/
theorem no_lost_wakeup_one : ∃ s : Pool 1 ℕ Unit, (system 1 ℕ Unit).Reachable s ∧ Runnable s ∧
    s.idleThreads = 1 ∧ ¬ ∀ w, s.workers w ≠ .exited → s.workers w = .waiting := by
  have hw : ∀ s : Pool 1 ℕ Unit, s.Wakes fun _ => true := fun _ ⟨w, h⟩ => ⟨w, h, rfl⟩
  have h1 := (LTS.History.nil (T := system 1 ℕ Unit) rfl).snoc (.lock (w := 0) rfl rfl)
  have h2 := h1.snoc (.iterate (w := 0) rfl (hw _))
  have h3 := h2.snoc (.submit 0 () .cpu (fun _ => true) rfl rfl (hw _))
  refine ⟨_, ⟨_, h3⟩, .inl ⟨.work 0, ?_, by simp⟩, rfl, fun hall => ?_⟩
  · exact List.mem_singleton.mpr rfl
  · exact (no_lost_wakeup ⟨_, h3⟩).1 ⟨⟨0, fun e => nomatch e⟩, hall,
      .inl ⟨.work 0, List.mem_singleton.mpr rfl, by simp⟩⟩

end Libuv.L4.ThreadPool
