import Libuv.L4Concurrency.ThreadPool

/-!
# The life of a request in the thread pool

`Occupies s r pl` says that the state has request `r` at place `pl`: a queue, a worker,
or the hands of `uv__work_cancel`. `Phase` is what has become of a request, and
`Tracked` that the phases agree with the places, with the fields of the requests and
with what has happened to each request so far (`tally`). A step moves one request to
its next phase (`Moves`), except for `uv__work_done`, which moves a whole queue.

* `exactly_once`: work and `done` run at most once and in order, `UV_ECANCELED` goes
  with a successful cancel, and a request is always in exactly one place.
* `cancel_window`: between the two sections of `uv__work_cancel` that place is none
  of the queues.
-/
namespace Libuv.L4.ThreadPool

open List Function

/-! ## Places -/

inductive Place (n : ℕ) (L : Type*)
  | wq
  | slowIoPendingWq
  | executing (w : Fin n) (at_ : Stage) (slow : Bool)
  | loopWq (l : L)
  | dispatch (l : L)
  | cancelling (l : L)

variable {n : ℕ} {R L : Type*}

def Occupies (s : Pool n R L) (r : R) : Place n L → Prop
  | .wq => Node.work r ∈ s.wq
  | .slowIoPendingWq => r ∈ s.slowIoPendingWq
  | .executing w st slow => s.workers w = .busy st r slow
  | .loopWq l => r ∈ s.loopWq l
  | .dispatch l => r ∈ s.dispatch l
  | .cancelling l => s.cancelling l = some r

variable [DecidableEq R]

structure Once (s : Pool n R L) : Prop where
  wq : ∀ r, s.wq.count (.work r) ≤ 1
  pending : s.slowIoPendingWq.Nodup
  loopWq : ∀ l, (s.loopWq l).Nodup
  dispatch : ∀ l, (s.dispatch l).Nodup

/-- From `s` to `t` request `r` goes to `pl` and nothing else moves. -/
structure Moves (s : Pool n R L) (r : R) (pl : Option (Place n L)) (t : Pool n R L) : Prop where
  occupies : ∀ r' x, Occupies t r' x ↔ if r' = r then pl = some x else Occupies s r' x
  once : Once t

/-- `r` is at `pl` and nowhere else. -/
def OnlyAt (s : Pool n R L) (r : R) (pl : Option (Place n L)) : Prop :=
  ∀ x, Occupies s r x ↔ pl = some x

/-- What holds of the places still holds when the queues are the same and the busy
workers are. -/
structure SamePlaces (s t : Pool n R L) : Prop where
  wq : ∀ r, t.wq.count (.work r) = s.wq.count (.work r)
  pending : t.slowIoPendingWq = s.slowIoPendingWq
  busy : ∀ w st r slow, t.workers w = .busy st r slow ↔ s.workers w = .busy st r slow
  loopWq : t.loopWq = s.loopWq
  dispatch : t.dispatch = s.dispatch
  cancelling : t.cancelling = s.cancelling

namespace SamePlaces
variable {s t u : Pool n R L}

theorem occupies (h : SamePlaces s t) (r : R) (pl : Place n L) : Occupies t r pl ↔ Occupies s r pl := by
  cases pl with
  | wq => simp [Occupies, ← count_pos_iff, h.wq]
  | slowIoPendingWq => simp [Occupies, h.pending]
  | executing w st slow => exact h.busy w st r slow
  | loopWq l => simp [Occupies, h.loopWq]
  | dispatch l => simp [Occupies, h.dispatch]
  | cancelling l => simp [Occupies, h.cancelling]

theorem once (h : SamePlaces s t) (ho : Once s) : Once t where
  wq r := by rw [h.wq]; exact ho.wq r
  pending := by rw [h.pending]; exact ho.pending
  loopWq l := by rw [h.loopWq]; exact ho.loopWq l
  dispatch l := by rw [h.dispatch]; exact ho.dispatch l

theorem trans (h : SamePlaces s t) (h' : SamePlaces t u) : SamePlaces s u where
  wq r := (h'.wq r).trans (h.wq r)
  pending := h'.pending.trans h.pending
  busy w st r slow := (h'.busy w st r slow).trans (h.busy w st r slow)
  loopWq := h'.loopWq.trans h.loopWq
  dispatch := h'.dispatch.trans h.dispatch
  cancelling := h'.cancelling.trans h.cancelling

theorem condSignal (s : Pool n R L) (woken : Fin n → Bool) : SamePlaces s (s.condSignal woken) where
  wq _ := rfl
  pending := rfl
  busy w st r slow := by
    simp only [Pool.condSignal]
    split
    · next h => simp [h.1]
    · rfl
  loopWq := rfl
  dispatch := rfl
  cancelling := rfl

theorem signalIfIdle (s : Pool n R L) (woken : Fin n → Bool) :
    SamePlaces s (s.signalIfIdle woken) := by
  unfold Pool.signalIfIdle
  split
  · exact condSignal s woken
  · exact ⟨fun _ => rfl, rfl, fun _ _ _ _ => Iff.rfl, rfl, rfl, rfl⟩

theorem setWorker {w : Fin n} {st : WorkerState R} (hs : ∀ a r slow, s.workers w ≠ .busy a r slow)
    (ht : ∀ a r slow, st ≠ .busy a r slow) : SamePlaces s (s.setWorker w st) where
  wq _ := rfl
  pending := rfl
  busy w' a r slow := by
    simp only [Pool.setWorker, update_apply]
    split
    · next e => subst e; simp [hs, ht]
    · rfl
  loopWq := rfl
  dispatch := rfl
  cancelling := rfl

theorem enqueue (s : Pool n R L) {q : Node R} (hq : ∀ r, q ≠ .work r) (woken : Fin n → Bool) :
    SamePlaces s (s.enqueue q woken) := by
  have h1 : SamePlaces s { s with wq := s.wq ++ [q] } :=
    ⟨fun r => by simp [count_append, hq], rfl, fun _ _ _ _ => Iff.rfl, rfl, rfl, rfl⟩
  exact h1.trans (signalIfIdle _ woken)

end SamePlaces

/-! ## What each operation moves -/

variable {s t : Pool n R L} {r : R} {a : Option (Place n L)}

theorem Moves.trans {u : Pool n R L} {b : Option (Place n L)} (h : Moves s r a t)
    (h' : Moves t r b u) : Moves s r b u := by
  refine ⟨fun r' x => ?_, h'.once⟩
  rw [h'.occupies r' x]
  split
  · rfl
  · next e => rw [h.occupies r' x, if_neg e]

theorem Moves.right {u : Pool n R L} {pl : Option (Place n L)} (h : Moves s r pl t)
    (h' : SamePlaces t u) : Moves s r pl u :=
  ⟨fun r' x => (h'.occupies r' x).trans (h.occupies r' x), h'.once h.once⟩

theorem Moves.only (h : Moves s r a t) :
    OnlyAt t r a := fun x => by rw [h.occupies r x, if_pos rfl]

theorem Moves.of_same (h : SamePlaces s t)
    (ho : Once s) (hr : OnlyAt s r a) : Moves s r a t := by
  refine ⟨fun r' x => (h.occupies r' x).trans ?_, h.once ho⟩
  split
  · next e => rw [e]; exact hr x
  · rfl

section Moving
variable {s : Pool n R L} {r : R} {w : Fin n} {st st' : Stage} {slow : Bool} (ho : Once s)
include ho

theorem moves_take (hw : ∀ a r slow, s.workers w ≠ .busy a r slow) (hr : OnlyAt s r none) :
    Moves s r (some (.executing w .picked slow)) (s.take w r slow) := by
  refine ⟨fun r' x => ?_, ho.wq, ho.pending, ho.loopWq, ho.dispatch⟩
  have hr := hr x
  cases x <;>
    simp only [Occupies, Pool.take, Pool.modify, Pool.setWorker, update_apply] at hr ⊢ <;>
    grind

theorem moves_wq_pop {rest : List (Node R)} (hw : s.wq = .work r :: rest)
    (hr : OnlyAt s r (some .wq)) : Moves s r none { s with wq := rest } := by
  have h1 := ho.wq r
  refine ⟨fun r' x => ?_, fun r' => ?_, ho.pending, ho.loopWq, ho.dispatch⟩
  · have hr := hr x
    cases x <;> simp only [Occupies] at hr ⊢ <;> grind
  · have := ho.wq r'
    rw [hw] at this
    exact (count_le_count_cons ..).trans this

theorem moves_pending_pop {rest : List R} (hw : s.slowIoPendingWq = r :: rest)
    (hr : OnlyAt s r (some .slowIoPendingWq)) : Moves s r none { s with slowIoPendingWq := rest } := by
  have h1 := ho.pending
  rw [hw] at h1
  refine ⟨fun r' x => ?_, ho.wq, h1.of_cons, ho.loopWq, ho.dispatch⟩
  have hr := hr x
  cases x <;> simp only [Occupies] at hr ⊢ <;> grind

theorem moves_dispatch_pop [DecidableEq L] {l : L} {rest : List R} (hw : s.dispatch l = r :: rest)
    (hr : OnlyAt s r (some (.dispatch l))) : Moves s r none (s.runDone l r rest) := by
  have h1 := ho.dispatch l
  rw [hw] at h1
  refine ⟨fun r' x => ?_, ho.wq, ho.pending, ho.loopWq, fun l' => ?_⟩
  · have hr := hr x
    cases x <;> simp only [Occupies, Pool.runDone, update_apply] at hr ⊢ <;> grind
  · simp only [Pool.runDone, update_apply]
    split
    · exact h1.of_cons
    · exact ho.dispatch l'

theorem moves_stage (hw : s.workers w = .busy st r slow) (hr : OnlyAt s r (some (.executing w st slow))) :
    Moves s r (some (.executing w st' slow)) (s.setWorker w (.busy st' r slow)) := by
  refine ⟨fun r' x => ?_, ho.wq, ho.pending, ho.loopWq, ho.dispatch⟩
  have hr := hr x
  cases x <;> simp only [Occupies, Pool.setWorker, update_apply] at hr ⊢ <;> grind

theorem loopWq_nodup [DecidableEq L] {l : L} (hr : r ∉ s.loopWq l) (l' : L) :
    (update s.loopWq l (s.loopWq l ++ [r]) l').Nodup := by
  rw [update_apply]
  split
  · exact List.Nodup.append (ho.loopWq l) (nodup_singleton r) (by simpa using hr)
  · exact ho.loopWq l'

theorem moves_relink [DecidableEq L] {l : L} (hw : s.workers w = .busy st r slow)
    (hr : OnlyAt s r (some (.executing w st slow))) :
    Moves s r (some (.loopWq l)) (s.relink w r slow l) := by
  refine ⟨fun r' x => ?_, ho.wq, ho.pending, loopWq_nodup ho fun h => ?_, ho.dispatch⟩
  · have hr := hr x
    cases x <;>
      simp only [Occupies, Pool.relink, Pool.modify, Pool.setWorker, update_apply] at hr ⊢ <;>
      grind
  · exact nomatch (hr (.loopWq l)).mp h

theorem moves_enqueue (hr : OnlyAt s r none) (woken : Fin n → Bool) :
    Moves s r (some .wq) (s.enqueue (.work r) woken) := by
  have hn : Node.work r ∉ s.wq := fun h => nomatch (hr .wq).mp h
  suffices h : Moves s r (some .wq) { s with wq := s.wq ++ [.work r] } from
    h.right (SamePlaces.signalIfIdle _ woken)
  refine ⟨fun r' x => ?_, fun r' => ?_, ho.pending, ho.loopWq, ho.dispatch⟩
  · have hr := hr x
    cases x <;> simp only [Occupies] at hr ⊢ <;> grind
  · have := ho.wq r'
    have h0 := List.count_eq_zero.mpr hn
    simp only [count_append, count_singleton]
    split
    · next e => simp_all
    · exact this

theorem moves_pending (hr : OnlyAt s r none) :
    Moves s r (some .slowIoPendingWq) { s with slowIoPendingWq := s.slowIoPendingWq ++ [r] } := by
  have hn : r ∉ s.slowIoPendingWq := fun h => nomatch (hr .slowIoPendingWq).mp h
  refine ⟨fun r' x => ?_, ho.wq, ?_, ho.loopWq, ho.dispatch⟩
  · have hr := hr x
    cases x <;> simp only [Occupies] at hr ⊢ <;> grind
  · exact List.Nodup.append ho.pending (nodup_singleton r) (by simpa using hn)

theorem moves_cancelRemove [DecidableEq L] {l : L} {pl : Place n L}
    (hr : OnlyAt s r (some pl)) (hq : pl = .wq ∨ pl = .slowIoPendingWq) (hl : s.cancelling l = none) :
    Moves s r (some (.cancelling l)) (s.cancelRemove r l) := by
  have h1 : Node.work r ∉ s.wq.erase (.work r) := by
    rw [← List.count_eq_zero, count_erase_self]
    have := ho.wq r; omega
  have h2 := ho.pending
  refine ⟨fun r' x => ?_, fun r' => ?_, h2.erase r, fun l' => (ho.loopWq l').erase r,
    fun l' => (ho.dispatch l').erase r⟩
  · have hr := hr x
    cases x <;>
      simp only [Occupies, Pool.cancelRemove, Pool.unlink, update_apply] at hr ⊢ <;>
      grind
  · exact ((erase_sublist).count_le _).trans (ho.wq r')

theorem moves_cancelRelink [DecidableEq L] {l : L} (hr : OnlyAt s r (some (.cancelling l))) :
    Moves s r (some (.loopWq l)) (s.cancelRelink r l) := by
  have hl := hr (.cancelling l)
  refine ⟨fun r' x => ?_, ho.wq, ho.pending, loopWq_nodup ho fun h => ?_, ho.dispatch⟩
  · have hr := hr x
    cases x <;>
      simp only [Occupies, Pool.cancelRelink, Pool.modify, update_apply] at hl hr ⊢ <;>
      grind
  · exact nomatch (hr (.loopWq l)).mp h

end Moving

/-! ## Phases -/

inductive Phase (n : ℕ) (L : Type*)
  | fresh
  | queued (slow : Bool)
  | running (w : Fin n) (at_ : Stage) (slow : Bool)
  | cancelling (l : L)
  | completed (l : L) (ecanceled : Bool)
  | dispatching (l : L) (ecanceled : Bool)
  | finished (ecanceled : Bool)

namespace Phase

def place : Phase n L → Option (Place n L)
  | fresh => none
  | queued slow => some (if slow then .slowIoPendingWq else .wq)
  | running w st slow => some (.executing w st slow)
  | cancelling l => some (.cancelling l)
  | completed l _ => some (.loopWq l)
  | dispatching l _ => some (.dispatch l)
  | finished _ => none

/-- The fields of a request in this phase, and whether its `done` has been called. -/
def Req : Phase n L → Option (Work L) → Bool → Prop
  | fresh, o, d => o = none ∧ d = false
  | queued _, o, d => ∃ l, o = some ⟨l, .work, true⟩ ∧ d = false
  | running _ _ _, o, d => ∃ l, o = some ⟨l, .work, false⟩ ∧ d = false
  | cancelling l, o, d => ∃ b, o = some ⟨l, .work, b⟩ ∧ d = false
  | completed l c, o, d => o = some ⟨l, if c then .cancelled else .null, true⟩ ∧ d = false
  | dispatching l c, o, d => o = some ⟨l, if c then .cancelled else .null, true⟩ ∧ d = false
  | finished _, o, d => o ≠ none ∧ d = true

end Phase

/-- The phases say where every request is and what its fields are. -/
structure Agrees (s : Pool n R L) (ph : R → Phase n L) : Prop where
  place : ∀ r, OnlyAt s r (ph r).place
  once : Once s
  req : ∀ r, (ph r).Req (s.reqs r) (s.doneRan r)

namespace Agrees
variable {s t : Pool n R L} {ph : R → Phase n L} (h : Agrees s ph)
include h

theorem same (hp : SamePlaces s t) (hq : t.reqs = s.reqs) (hd : t.doneRan = s.doneRan) :
    Agrees t ph where
  place r x := (hp.occupies r x).trans (h.place r x)
  once := hp.once h.once
  req r := by rw [hq, hd]; exact h.req r

variable {r : R} {slow : Bool} {w : Fin n}

theorem move {p : Phase n L} (hp : Moves s r p.place t) (hr : p.Req (t.reqs r) (t.doneRan r))
    (hq : ∀ r', r' ≠ r → t.reqs r' = s.reqs r' ∧ t.doneRan r' = s.doneRan r') :
    Agrees t (update ph r p) where
  place r' x := by
    rw [hp.occupies r' x, update_apply]
    split
    · rfl
    · exact h.place r' x
  once := hp.once
  req r' := by
    rw [update_apply]
    split
    · next e => rw [e]; exact hr
    · next e => rw [(hq r' e).1, (hq r' e).2]; exact h.req r'

theorem phase {x : Place n L} (hx : Occupies s r x) : (ph r).place = some x :=
  (h.place r x).mp hx

theorem only {x : Place n L} (hx : Occupies s r x) : OnlyAt s r (some x) :=
  fun y => by rw [h.place r y, h.phase hx]

theorem submit {l : L} {kind : WorkKind} {woken : Fin n → Bool} (hr : s.reqs r = none) :
    ph r = .fresh ∧ Agrees (s.submit r l kind woken) (update ph r (.queued (decide (kind = .slowIo)))) := by
  -- nothing but a fresh request has no fields
  have hfresh : ph r = .fresh ∧ s.doneRan r = false := by
    have := h.req r
    cases hp : ph r <;> simp_all [Phase.Req]
  refine ⟨hfresh.1, ?_⟩
  have hn : OnlyAt s r none := fun x => by rw [h.place r x, hfresh.1]; rfl
  unfold Pool.submit Pool.post
  set s1 : Pool n R L :=
    { s with reqs := update s.reqs r (some ⟨l, .work, false⟩) }.modify r
      fun k => { k with linked := true } with hs1
  have hm1 : Moves s r none s1 :=
    .of_same ⟨fun _ => rfl, rfl, fun _ _ _ _ => Iff.rfl, rfl, rfl, rfl⟩ h.once hn
  have hr1 : s1.reqs r = some ⟨l, .work, true⟩ := by simp [hs1, Pool.modify]
  have hq1 : ∀ r', r' ≠ r → s1.reqs r' = s.reqs r' ∧ s1.doneRan r' = s.doneRan r' :=
    fun r' e => ⟨by simp [hs1, Pool.modify, e], rfl⟩
  have hq2 : (Phase.queued (decide (kind = .slowIo)) : Phase n L).Req (s1.reqs r) (s1.doneRan r) :=
    ⟨l, hr1, hfresh.2⟩
  cases kind with
  | slowIo =>
    have hm2 := hm1.trans (moves_pending hm1.once hm1.only)
    simp only
    split
    · exact h.move hm2 hq2 hq1
    · exact h.move (hm2.right (.enqueue _ (by simp) woken)) (by simpa using hq2) (by simpa using hq1)
  | cpu | fastIo => exact h.move (hm1.trans (moves_enqueue hm1.once hm1.only woken)) (by simpa using hq2) (by simpa using hq1)

theorem queued
    (hx : Occupies s r (if slow then .slowIoPendingWq else .wq : Place n L)) :
    ph r = .queued slow ∧ (∃ l, s.reqs r = some ⟨l, .work, true⟩) ∧ s.doneRan r = false := by
  have hp := h.phase hx
  have hr := h.req r
  have hph : ph r = .queued slow := by
    cases hp' : ph r <;> cases slow <;> simp_all [Phase.place]
  rw [hph] at hr
  obtain ⟨l, h1, h2⟩ := hr
  exact ⟨hph, ⟨l, h1⟩, h2⟩

theorem take {u : Pool n R L}
    (hx : Occupies s r (if slow then .slowIoPendingWq else .wq : Place n L))
    (hu : Moves s r none u) (hq : u.reqs = s.reqs) (hd : u.doneRan = s.doneRan)
    (hw : ∀ a r slow, u.workers w ≠ .busy a r slow) :
    Agrees (u.take w r slow) (update ph r (.running w .picked slow)) := by
  obtain ⟨-, ⟨l, hl⟩, hn⟩ := h.queued hx
  refine h.move (hu.trans (moves_take hu.once hw hu.only)) ⟨l, ?_⟩ fun r' e => ?_
  · simp [Pool.take, Pool.modify, Pool.setWorker, hq, hd, hl, hn]
  · simp [Pool.take, Pool.modify, Pool.setWorker, hq, hd, e]

theorem iterate {woken : Fin n → Bool} (hw : s.workers w = .looping) :
    Agrees (s.workerLoop w woken) ph ∨ ∃ r slow, ph r = .queued slow ∧
      Agrees (s.workerLoop w woken) (update ph r (.running w .picked slow)) := by
  have hb : ∀ a r slow, s.workers w ≠ .busy a r slow := by simp [hw]
  unfold Pool.workerLoop
  split
  · have hs : SamePlaces s (s.setWorker w .waiting) := .setWorker hb (by simp)
    exact .inl (h.same ⟨hs.wq, hs.pending, hs.busy, hs.loopWq, hs.dispatch, hs.cancelling⟩ rfl rfl)
  · split
    · exact .inl h
    · -- the exit message stays, the worker leaves
      have h1 := SamePlaces.condSignal s woken
      have hs : SamePlaces s ((s.condSignal woken).setWorker w .exited) :=
        h1.trans (.setWorker (fun a r slow => (h1.busy w a r slow).not.mpr (hb a r slow)) (by simp))
      exact .inl (h.same ⟨hs.wq, hs.pending, hs.busy, hs.loopWq, hs.dispatch, hs.cancelling⟩ rfl rfl)
    · next r rest hwq =>
      have hx : Occupies s r (.wq : Place n L) := by simp [Occupies, hwq]
      refine .inr ⟨r, false, (h.queued hx).1, ?_⟩
      exact h.take hx (moves_wq_pop h.once hwq (h.only hx)) rfl rfl hb
    · next rest hwq =>
      have hcount : ∀ r, rest.count (.work r) = s.wq.count (.work r) := by
        intro r; rw [hwq, count_cons_of_ne (by simp)]
      split
      · refine .inl (h.same ⟨fun r => ?_, rfl, fun _ _ _ _ => Iff.rfl, rfl, rfl, rfl⟩ rfl rfl)
        simp [count_append, hcount]
      · split
        · exact .inl (h.same ⟨hcount, rfl, fun _ _ _ _ => Iff.rfl, rfl, rfl, rfl⟩ rfl rfl)
        · next r pending hpend =>
          have hx : Occupies s r (.slowIoPendingWq : Place n L) := by simp [Occupies, hpend]
          have hm1 := moves_pending_pop h.once hpend (h.only hx)
          have hm2 := hm1.right (u := { s with
            wq := rest, slowIoPendingWq := pending, slowIoWorkRunning := s.slowIoWorkRunning + 1 })
            ⟨hcount, rfl, fun _ _ _ _ => Iff.rfl, rfl, rfl, rfl⟩
          refine .inr ⟨r, true, (h.queued hx).1, ?_⟩
          split
          · exact h.take hx hm2 rfl rfl hb
          · have h3 := SamePlaces.enqueue { s with
              wq := rest, slowIoPendingWq := pending, slowIoWorkRunning := s.slowIoWorkRunning + 1 }
              (q := .runSlowWorkMessage) (by simp) woken
            exact h.take hx (hm2.right h3) (by simp) (by simp)
              fun a r slow => (h3.busy w a r slow).not.mpr (hb a r slow)

theorem lock (hl : s.lock w = some t) : Agrees t ph := by
  have key : (∀ a r slow, s.workers w ≠ .busy a r slow) → SamePlaces s (s.setWorker w .looping) :=
    fun hb => .setWorker hb (by simp)
  unfold Pool.lock at hl
  split at hl
  case h_4 => cases hl
  all_goals
    cases hl
    have hs := key (by simp_all)
    exact h.same ⟨hs.wq, hs.pending, hs.busy, hs.loopWq, hs.dispatch, hs.cancelling⟩ rfl rfl

theorem stage {st : Stage} (st' : Stage)
    (hw : s.workers w = .busy st r slow) :
    ph r = .running w st slow ∧ Agrees (s.setWorker w (.busy st' r slow)) (update ph r (.running w st' slow)) := by
  have hx : Occupies s r (.executing w st slow) := hw
  have hp := h.phase hx
  have hph : ph r = .running w st slow := by
    cases hp' : ph r <;> simp_all [Phase.place]
    split at hp <;> simp at hp
  have hr := h.req r
  rw [hph] at hr
  exact ⟨hph, h.move (moves_stage h.once hw (h.only hx)) hr fun _ _ => ⟨rfl, rfl⟩⟩

section Loop
variable [DecidableEq L]

theorem relink {w : Fin n} {r : R} {slow : Bool} {k : Work L}
    (hw : s.workers w = .busy .worked r slow) (hk : s.reqs r = some k) :
    ph r = .running w .worked slow ∧ Agrees (s.relink w r slow k.loop) (update ph r (.completed k.loop false)) := by
  obtain ⟨hph, -⟩ := h.stage .worked hw
  have hr := h.req r
  rw [hph] at hr
  obtain ⟨l, h1, h2⟩ := hr
  refine ⟨hph, h.move (moves_relink h.once hw (h.only hw)) ⟨?_, h2⟩ fun r' e => ⟨?_, rfl⟩⟩
  · simp [Pool.relink, Pool.modify, Pool.setWorker, hk]
  · simp [Pool.relink, Pool.modify, Pool.setWorker, e]

theorem cancelRemove {r : R} {k : Work L} (hm : MayCancel s r k) (hc : k.cancellable = true) :
    (∃ slow, ph r = .queued slow) ∧ Agrees (s.cancelRemove r k.loop) (update ph r (.cancelling k.loop)) := by
  obtain ⟨m1, m2, m3, m4⟩ := hm
  simp only [Work.cancellable, Bool.and_eq_true, decide_eq_true_eq] at hc
  have hr := h.req r
  rw [m1, m3] at hr
  -- a linked request that is neither finished nor cancelled is in a queue
  have hph : ∃ slow, ph r = .queued slow := by
    cases hp : ph r with
    | queued slow => exact ⟨slow, rfl⟩
    | fresh => simp [hp, Phase.Req] at hr
    | running w st slow =>
      rw [hp] at hr
      obtain ⟨l, h1, -⟩ := hr
      cases h1; simp at hc
    | cancelling l =>
      have h1 := (h.place r (.cancelling l)).mpr (by rw [hp]; rfl)
      rw [hp] at hr
      obtain ⟨b, h2, -⟩ := hr
      cases h2
      simp only [Occupies] at h1; rw [m2] at h1; cases h1
    | completed l c | dispatching l c =>
      rw [hp] at hr
      obtain ⟨h1, -⟩ := hr
      cases h1; cases c <;> simp at hc m4
    | finished c => simp [hp, Phase.Req] at hr
  refine ⟨hph, ?_⟩
  obtain ⟨slow, hph⟩ := hph
  rw [hph] at hr
  obtain ⟨l, h1, -⟩ := hr
  have hat : OnlyAt s r (some (if slow then .slowIoPendingWq else .wq)) := fun x => by
    rw [h.place r x, hph]; rfl
  refine h.move (moves_cancelRemove h.once hat (by cases slow <;> simp) m2) ⟨true, ?_, m3⟩
    fun r' _ => ⟨rfl, rfl⟩
  cases h1
  exact m1

theorem cancelRelink {r : R} {l : L} (hl : s.cancelling l = some r) :
    ph r = .cancelling l ∧ Agrees (s.cancelRelink r l) (update ph r (.completed l true)) := by
  have hx : Occupies s r (.cancelling l) := hl
  have hp := h.phase hx
  have hph : ph r = .cancelling l := by
    cases hp' : ph r <;> simp_all [Phase.place]
    split at hp <;> simp at hp
  have hr := h.req r
  rw [hph] at hr
  obtain ⟨b, h1, h2⟩ := hr
  refine ⟨hph, h.move (moves_cancelRelink h.once (h.only hx)) ⟨?_, h2⟩ fun r' e => ⟨?_, rfl⟩⟩
  · simp [Pool.cancelRelink, Pool.modify, h1]
  · simp [Pool.cancelRelink, Pool.modify, e]

/-- The phases after `uv__work_done` has taken over a loop's queue. -/
def afterWorkDone (ph : R → Phase n L) (l : L) (r : R) : Phase n L :=
  match ph r with
  | .completed l' c => if l' = l then .dispatching l c else .completed l' c
  | p => p

theorem workDone {l : L} (hl : s.dispatch l = []) : Agrees (s.workDone l) (afterWorkDone ph l) where
  place r x := by
    have h1 := h.place r
    have h2 := h1 (.loopWq l)
    have h3 := h1 (.dispatch l)
    have h1 := h1 x
    unfold afterWorkDone
    cases x <;> cases hp : ph r <;>
      simp only [Occupies, Pool.workDone, update_apply, hp, hl, Phase.place] at h1 h2 h3 ⊢ <;>
      grind [Phase.place]
  once := by
    refine ⟨h.once.wq, h.once.pending, fun l' => ?_, fun l' => ?_⟩
    · simp only [Pool.workDone, update_apply]
      split
      · exact nodup_nil
      · exact h.once.loopWq l'
    · simp only [Pool.workDone, update_apply]
      split
      · exact h.once.loopWq l
      · exact h.once.dispatch l'
  req r := by
    have h1 := h.req r
    unfold afterWorkDone
    cases hp : ph r <;> rw [hp] at h1 <;> try exact h1
    simp only
    split
    · next e => subst e; exact h1
    · exact h1

theorem runDone {l : L} {r : R} {rest : List R} {k : Work L} (hl : s.dispatch l = r :: rest)
    (hk : s.reqs r = some k) :
    ph r = .dispatching l k.ecanceled ∧ Agrees (s.runDone l r rest) (update ph r (.finished k.ecanceled)) := by
  have hx : Occupies s r (.dispatch l) := by simp [Occupies, hl]
  have hp := h.phase hx
  have hr := h.req r
  have hph : ph r = .dispatching l k.ecanceled := by
    cases hp' : ph r <;> simp_all [Phase.place]
    · split at hp <;> simp at hp
    · obtain ⟨h1, -⟩ := hr
      cases h1
      next c => cases c <;> simp [Work.ecanceled]
  refine ⟨hph, h.move (moves_dispatch_pop h.once hl (h.only hx)) ⟨?_, ?_⟩ fun r' e => ⟨rfl, ?_⟩⟩
  · simp [Pool.runDone, hk]
  · simp [Pool.runDone]
  · simp [Pool.runDone, e]

end Loop

end Agrees

/-! ## What has happened to a request -/

/-- How often its work function was called and returned, how often `uv__work_cancel`
returned 0 for it, and the statuses its `done` was called with (`true` for
`UV_ECANCELED`). -/
structure Tally where
  starts : ℕ
  returns : ℕ
  cancels : ℕ
  dones : List Bool
  deriving DecidableEq

def Tally.add (r : R) (t : Tally) : Label n R L → Tally
  | .workStart _ r' => if r' = r then { t with starts := t.starts + 1 } else t
  | .workReturn _ r' => if r' = r then { t with returns := t.returns + 1 } else t
  | .cancelOk r' => if r' = r then { t with cancels := t.cancels + 1 } else t
  | .done r' c => if r' = r then { t with dones := t.dones ++ [c] } else t
  | _ => t

def tally (ls : List (Label n R L)) (r : R) : Tally := ls.foldl (Tally.add r) ⟨0, 0, 0, []⟩

theorem tally_snoc (ls : List (Label n R L)) (l : Label n R L) (r : R) :
    tally (ls ++ [l]) r = (tally ls r).add r l := by
  simp [tally]

def Phase.tally : Phase n L → Tally
  | fresh | queued _ | running _ .picked _ | cancelling _ => ⟨0, 0, 0, []⟩
  | running _ .working _ => ⟨1, 0, 0, []⟩
  | running _ .worked _ => ⟨1, 1, 0, []⟩
  | completed _ c | dispatching _ c => if c then ⟨0, 0, 1, []⟩ else ⟨1, 1, 0, []⟩
  | finished c => if c then ⟨0, 0, 1, [true]⟩ else ⟨1, 1, 0, [false]⟩

theorem Phase.tally_once (p : Phase n L) :
    p.tally.starts ≤ 1 ∧ p.tally.dones.length ≤ 1 ∧ (∀ c ∈ p.tally.dones, c = true ↔ 1 ≤ p.tally.cancels) ∧
      (1 ≤ p.tally.cancels → p.tally.starts = 0) := by
  cases p with
  | running w st slow => cases st <;> simp [Phase.tally]
  | completed l c | dispatching l c | finished c => cases c <;> simp [Phase.tally]
  | _ => simp [Phase.tally]

def Tracked (ls : List (Label n R L)) (s : Pool n R L) : Prop :=
  ∃ ph, Agrees s ph ∧ ∀ r, tally ls r = (ph r).tally

variable {ls : List (Label n R L)} {ph : R → Phase n L} {t : Pool n R L} {l : Label n R L}

theorem tracked_move {r : R}
    {p : Phase n L} (ht : ∀ r, tally ls r = (ph r).tally)
    (ha : Agrees t (update ph r p)) (hl : (ph r).tally.add r l = p.tally)
    (hother : ∀ r' (x : Tally), r' ≠ r → x.add r' l = x) : Tracked (ls ++ [l]) t := by
  refine ⟨_, ha, fun r' => ?_⟩
  rw [tally_snoc, ht, update_apply]
  split
  · next e => rw [e, hl]
  · next e => exact hother r' _ e

theorem tracked_same
    (ht : ∀ r, tally ls r = (ph r).tally) (ha : Agrees t ph)
    (hl : ∀ r (x : Tally), x.add r l = x) : Tracked (ls ++ [l]) t :=
  ⟨ph, ha, fun r => by rw [tally_snoc, ht, hl]⟩

variable [DecidableEq L]

theorem tracked_step {s : Pool n R L}
    (h : Tracked ls s) (hs : Step s l t) : Tracked (ls ++ [l]) t := by
  obtain ⟨ph, ha, ht⟩ := h
  cases hs with
  | lock _ hl => exact tracked_same ht (ha.lock hl) fun _ _ => rfl
  | iterate hw _ =>
    rcases ha.iterate hw with h1 | ⟨r, slow, hp, h1⟩
    · exact tracked_same ht h1 fun _ _ => rfl
    · exact tracked_move ht h1 (by rw [hp]; rfl) fun _ _ _ => rfl
  | wake hw =>
    exact tracked_same ht (ha.same (.setWorker (by simp [hw]) (by simp)) rfl rfl) fun _ _ => rfl
  | workStart hw =>
    obtain ⟨hp, h1⟩ := ha.stage .working hw
    exact tracked_move ht h1 (by rw [hp]; simp [Tally.add, Phase.tally])
      fun r' x e => if_neg (Ne.symm e)
  | workReturn hw =>
    obtain ⟨hp, h1⟩ := ha.stage .worked hw
    exact tracked_move ht h1 (by rw [hp]; simp [Tally.add, Phase.tally])
      fun r' x e => if_neg (Ne.symm e)
  | relink hw hk =>
    obtain ⟨hp, h1⟩ := ha.relink hw hk
    exact tracked_move ht h1 (by rw [hp]; rfl) fun _ _ _ => rfl
  | submit _ _ _ _ _ hr _ =>
    obtain ⟨hp, h1⟩ := ha.submit hr
    exact tracked_move ht h1 (by rw [hp]; rfl) fun _ _ _ => rfl
  | @postExit woken _ _ _ =>
    have h1 : SamePlaces s { s with exitPosted := true } :=
      ⟨fun _ => rfl, rfl, fun _ _ _ _ => Iff.rfl, rfl, rfl, rfl⟩
    have h2 := h1.trans (.enqueue _ (q := .exitMessage) (by simp) woken)
    exact tracked_same ht (ha.same h2 (by simp [Pool.postExit]) (by simp [Pool.postExit])) fun _ _ => rfl
  | cancelBusy _ _ _ => exact tracked_same ht ha fun _ _ => rfl
  | cancelHit _ hm hc =>
    obtain ⟨⟨slow, hp⟩, h1⟩ := ha.cancelRemove hm hc
    exact tracked_move ht h1 (by rw [hp]; rfl) fun _ _ _ => rfl
  | cancelOk hl =>
    obtain ⟨hp, h1⟩ := ha.cancelRelink hl
    exact tracked_move ht h1 (by rw [hp]; simp [Tally.add, Phase.tally])
      fun r' x e => if_neg (Ne.symm e)
  | workDone _ hl =>
    refine ⟨_, ha.workDone hl, fun r => ?_⟩
    rw [tally_snoc, ht]
    unfold Agrees.afterWorkDone
    split
    · split <;> simp_all [Tally.add, Phase.tally]
    · rfl
  | done _ hl hk =>
    obtain ⟨hp, h1⟩ := ha.runDone hl hk
    refine tracked_move ht h1 ?_ fun r' x e => if_neg (Ne.symm e)
    rw [hp]
    simp only [Phase.tally, Tally.add, if_true]
    split <;> simp_all

theorem tracked_run : (system n R L).TraceInductive Tracked where
  init := by
    rintro s rfl
    refine ⟨fun _ => .fresh, ⟨fun r x => ?_, ?_, fun r => ⟨rfl, rfl⟩⟩, fun r => rfl⟩
    · cases x <;> simp [Occupies, Pool.initThreads, Phase.place]
    · constructor <;> simp [Pool.initThreads]
  step _ _ _ _ h hs := tracked_step h hs

omit [DecidableEq L] in
theorem Agrees.live {s : Pool n R L} (h : Agrees s ph) {r : R}
    (hr : s.reqs r ≠ none) (hd : s.doneRan r = false) : ∃! pl, Occupies s r pl := by
  have hreq := h.req r
  obtain ⟨pl, hpl⟩ : ∃ pl, (ph r).place = some pl := by
    cases hp : ph r <;> simp_all [Phase.Req, Phase.place]
  refine ⟨pl, (h.place r pl).mpr hpl, fun y hy => ?_⟩
  have hy := h.phase hy
  rw [hpl] at hy
  exact (Option.some.inj hy).symm

/-- **Exactly-once completion.** In every run, for every request: its work function and
its `done` run at most once, `done` only after the work function returned or a cancel
succeeded, with `UV_ECANCELED` exactly for a successful cancel, after which the work
function never runs; a cancel that returns `UV_EBUSY` changes nothing; and from its
submission to its `done` the request is in exactly one place, once. -/
theorem exactly_once {ls : List (Label n R L)} {s : Pool n R L} (h : (system n R L).History ls s)
    (r : R) :
    (tally ls r).starts ≤ 1 ∧ (tally ls r).dones.length ≤ 1 ∧
    (∀ a b c, ls = a ++ .done r c :: b → 1 ≤ (tally a r).returns ∨ 1 ≤ (tally a r).cancels) ∧
    (∀ c ∈ (tally ls r).dones, c = true ↔ 1 ≤ (tally ls r).cancels) ∧
    (1 ≤ (tally ls r).cancels → (tally ls r).starts = 0) ∧ (∀ t, Step s (.cancelBusy r) t → t = s) ∧
    (s.reqs r ≠ none → s.doneRan r = false → ∃! pl, Occupies s r pl) ∧ Once s := by
  obtain ⟨ph, ha, ht⟩ := tracked_run.run h
  obtain ⟨h1, h2, h3, h4⟩ := (ph r).tally_once
  rw [← ht] at h1 h2 h3 h4
  refine ⟨h1, h2, ?_, h3, h4, ?_, ha.live, ha.once⟩
  · -- the state in which `done` was called had the request in `uv__work_done`'s queue
    rintro a b c rfl
    obtain ⟨u, u', hu, hs⟩ := h.before
    obtain ⟨ph', ha', ht'⟩ := tracked_run.run hu
    cases hs with
    | done _ hl hk =>
      obtain ⟨hp, -⟩ := ha'.runDone hl hk
      rw [ht', hp]
      simp only [Phase.tally]
      split <;> simp
  · intro t hs
    cases hs
    rfl

/-- A request is submitted, run by the only worker and finished. -/
theorem exactly_once_served :
    ∃ (ls : List (Label 1 ℕ Unit)) (s : Pool 1 ℕ Unit), (system 1 ℕ Unit).History ls s ∧
      tally ls 0 = ⟨1, 1, 0, [false]⟩ ∧ s.doneRan 0 = true ∧ Once s := by
  have hw : ∀ s : Pool 1 ℕ Unit, s.Wakes fun _ => true := fun _ ⟨w, h⟩ => ⟨w, h, rfl⟩
  have h1 := (LTS.History.nil (T := system 1 ℕ Unit) rfl).snoc
    (.submit 0 () .cpu (fun _ => true) rfl rfl (hw _))
  have h2 := h1.snoc (.lock (w := 0) rfl rfl)
  have h3 := h2.snoc (.iterate (w := 0) rfl (hw _))
  have h4 := h3.snoc (.workStart (w := 0) rfl)
  have h5 := h4.snoc (.workReturn (w := 0) rfl)
  have h6 := h5.snoc (.relink (w := 0) rfl rfl)
  have h7 := h6.snoc (.workDone (l := ()) rfl rfl)
  have h8 := h7.snoc (.done (l := ()) rfl rfl rfl)
  exact ⟨_, _, h8, by decide, rfl, (exactly_once h8 0).2.2.2.2.2.2.2⟩

/-- **The window of `uv__work_cancel`.** After its first section the request is in
none of the queues, not being executed and not being dispatched. -/
theorem cancel_window : ¬ ∀ (s : Pool 1 ℕ Unit), (system 1 ℕ Unit).Reachable s →
    ∀ r, s.reqs r ≠ none → s.doneRan r = false → ∃ pl, Occupies s r pl ∧ ∀ l, pl ≠ .cancelling l := by
  intro hall
  have hw : ∀ s : Pool 1 ℕ Unit, s.Wakes fun _ => true := fun _ ⟨w, h⟩ => ⟨w, h, rfl⟩
  have h1 := (LTS.History.nil (T := system 1 ℕ Unit) rfl).snoc
    (.submit 0 () .cpu (fun _ => true) rfl rfl (hw _))
  have h2 := h1.snoc (.cancelHit (r := 0) rfl ⟨rfl, rfl, rfl, by decide⟩ rfl)
  obtain ⟨pl, hpl, hne⟩ := hall _ ⟨_, h2⟩ 0 (fun e => nomatch e) rfl
  cases pl with
  | wq => exact absurd hpl (by decide : Node.work 0 ∉ ([] : List (Node ℕ)))
  | slowIoPendingWq => exact absurd hpl (not_mem_nil)
  | executing w st slow => exact nomatch (show WorkerState.start = .busy st 0 slow from hpl)
  | loopWq l | dispatch l => exact absurd hpl (not_mem_nil)
  | cancelling l => exact hne l rfl

end Libuv.L4.ThreadPool
