import Mathlib.Data.Fintype.Pi
import Mathlib.Tactic.DeriveFintype
import Libuv.Core.CondVar
import Libuv.Core.LTS

/-!
# The fallback barrier (`unix/thread.c`)

`uv_barrier_t` where pthreads has no barrier: the counters `in` and `out`, a mutex and a condition variable. `n`
threads call `uv_barrier_wait` again and again. A step is what one thread does under the mutex: it enters and goes
to sleep or, as the last, leaves; or it is back from `uv_cond_wait` and tests `in` again. `uv_cond_signal` wakes
at least one waiter, if there is one, and a waiter may also wake by itself.

* `counts_run`: `in + out` is the number of threads in the barrier, so neither counter wraps.
* `barrier_reusable`: while no thread enters before the last one of the round before has left, the barrier is one.
* `overrun_stuck`: once a thread has entered too early, no thread returns again.
* `deadlocked`: so all of them sleep, with two threads and two rounds.
-/
namespace Libuv.L4.Barrier
open CondVar Function

/-- `struct _uv_barrier` for the threshold `n`, with the threads that use it. `entered` and `results` are ghosts:
the calls a thread has begun, and what its calls have returned. -/
structure UvBarrier (n : ℕ) where
  in_ : ℕ
  out : ℕ
  threads : Fin n → Thread Unit
  entered : Fin n → ℕ
  results : Fin n → List Bool

def UV_EINVAL : ℤ := -22

/-- `rc` is what `uv__malloc`, `uv_mutex_init` and `uv_cond_init` come to.
mirrors unix/thread.c:55-86 -/
def uvBarrierInit (count : ℕ) (rc : ℤ) : Except ℤ (UvBarrier count) :=
  if count = 0 then .error UV_EINVAL
  else if rc ≠ 0 then .error rc
  else .ok
    { in_ := 0
      out := 0
      threads := fun _ => .awake ()
      entered := fun _ => 0
      results := fun _ => [] }

variable {n : ℕ}

namespace UvBarrier
variable (s : UvBarrier n)

/-- The end of `uv_barrier_wait`.
mirrors unix/thread.c:111-115 -/
def leave (w : Fin n) (woken : Fin n → Bool) : UvBarrier n :=
  let last := decide (s.out - 1 = 0)
  { s with
    out := s.out - 1
    threads := signal (Function.update s.threads w (.awake ())) woken
    results := Function.update s.results w (s.results w ++ [last]) }

/-- `uv_barrier_wait`, up to the first `uv_cond_wait`.
mirrors unix/thread.c:93-106 -/
def enter (w : Fin n) (woken woken' : Fin n → Bool) : UvBarrier n :=
  let s := { s with in_ := s.in_ + 1, entered := Function.update s.entered w (s.entered w + 1) }
  if s.in_ = n then
    { s with in_ := 0, out := n, threads := signal s.threads woken }.leave w woken'
  else
    { s with threads := Function.update s.threads w .waiting }

/-- The thread has the mutex back: the test of the loop.
mirrors unix/thread.c:106-108 -/
def resume (w : Fin n) (woken : Fin n → Bool) : UvBarrier n :=
  if s.in_ ≠ 0 then { s with threads := Function.update s.threads w .waiting }
  else s.leave w woken

end UvBarrier

/-- `wake` is a wakeup without a signal. -/
inductive Label (n : ℕ)
  | enter (w : Fin n) (woken woken' : Fin n → Bool)
  | resume (w : Fin n) (woken : Fin n → Bool)
  | wake (w : Fin n)

def step (s : UvBarrier n) : Label n → Option (UvBarrier n)
  | .enter w woken woken' =>
    if s.threads w = .awake () ∧ Wakes s.threads woken ∧ Wakes (signal s.threads woken) woken' then
      some (s.enter w woken woken')
    else none
  | .resume w woken =>
    if s.threads w = .signalled ∧ Wakes s.threads woken then some (s.resume w woken) else none
  | .wake w =>
    if s.threads w = .waiting then some { s with threads := Function.update s.threads w .signalled } else none

def system (n : ℕ) : LTS (UvBarrier n) (Label n) where
  init s := uvBarrierInit n 0 = .ok s
  step s l t := step s l = some t

/-- A thread enters only after the last thread of the round before has left. -/
def EntersDrained (s : UvBarrier n) : Label n → Prop
  | .enter .. => s.out = 0
  | .resume .. | .wake .. => True

theorem init_eq {s : UvBarrier n} (h : uvBarrierInit n 0 = .ok s) :
    0 < n ∧ s = ⟨0, 0, fun _ => .awake (), fun _ => 0, fun _ => []⟩ := by
  unfold uvBarrierInit at h
  split at h
  · cases h
  · next hn =>
    cases h
    exact ⟨Nat.pos_of_ne_zero hn, rfl⟩

section Steps
variable {s t : UvBarrier n} {w : Fin n} {woken woken' : Fin n → Bool}

theorem step_enter (h : step s (.enter w woken woken') = some t) : s.threads w = .awake () ∧
    Wakes s.threads woken ∧ Wakes (signal s.threads woken) woken' ∧ t = s.enter w woken woken' := by
  simp only [step] at h
  split at h
  · next hc => exact ⟨hc.1, hc.2.1, hc.2.2, (Option.some.inj h).symm⟩
  · cases h

theorem step_resume (h : step s (.resume w woken) = some t) : s.threads w = .signalled ∧
    Wakes s.threads woken ∧ t = s.resume w woken := by
  simp only [step] at h
  split at h
  · next hc => exact ⟨hc.1, hc.2, (Option.some.inj h).symm⟩
  · cases h

theorem step_wake (h : step s (.wake w) = some t) : s.threads w = .waiting ∧
    t = { s with threads := update s.threads w .signalled } := by
  simp only [step] at h
  split at h
  · next hc => exact ⟨hc, (Option.some.inj h).symm⟩
  · cases h

theorem enter_last (h : s.in_ + 1 = n) : s.enter w woken woken' =
    { s with
      in_ := 0
      out := n
      threads := signal s.threads woken
      entered := update s.entered w (s.entered w + 1) : UvBarrier n }.leave w woken' := by
  exact if_pos h

theorem enter_wait (h : s.in_ + 1 ≠ n) : s.enter w woken woken' =
    { s with
      in_ := s.in_ + 1
      threads := update s.threads w .waiting
      entered := update s.entered w (s.entered w + 1) } := by
  exact if_neg h

theorem resume_leave (h : s.in_ = 0) : s.resume w woken = s.leave w woken := if_neg (not_not.2 h)

theorem resume_wait (h : s.in_ ≠ 0) :
    s.resume w woken = { s with threads := update s.threads w .waiting } := if_pos h

end Steps

/-! ## The counters -/

/-- `in + out` is the number of threads in the barrier, and the one that makes `in` the threshold resets it. -/
structure Counts (s : UvBarrier n) : Prop where
  inside : s.in_ + s.out = count Thread.asleep s.threads
  below : s.in_ < n

variable {s : UvBarrier n} {w : Fin n} {r : ℕ}

theorem counts_leave (woken : Fin n → Bool) (hn : 0 < n) (hin : s.in_ = 0)
    (hout : s.out = count Thread.asleep (update s.threads w (.awake ())) + 1) :
    Counts (s.leave w woken) where
  inside := by
    simp only [UvBarrier.leave, count_asleep_signal]
    omega
  below := hin.trans_lt hn

theorem count_signal_awake {f : Fin n → Thread Unit} (woken : Fin n → Bool) (hw : f w = .awake ()) :
    count Thread.asleep (update (signal f woken) w (.awake ())) = count Thread.asleep f := by
  rw [count_update_same (by rw [signal_asleep, hw]), count_asleep_signal]

theorem counts_step {t : UvBarrier n} {l : Label n} (h : Counts s) (hs : step s l = some t) : Counts t := by
  have hi := h.inside
  have hb := h.below
  have hn : 0 < n := Nat.zero_lt_of_lt hb
  cases l with
  | enter w woken woken' =>
    obtain ⟨hw, -, -, rfl⟩ := step_enter hs
    have hlt := count_lt_card Thread.asleep s.threads (w := w) (by rw [hw]; rfl)
    rw [Fintype.card_fin] at hlt
    by_cases hlast : s.in_ + 1 = n
    · -- everyone else is in the barrier, so `out` is 0
      rw [enter_last hlast]
      refine counts_leave woken' hn rfl ?_
      rw [count_signal_awake woken hw]
      dsimp only
      omega
    · rw [enter_wait hlast]
      have hu := count_update_gain (p := Thread.asleep) (f := s.threads) (w := w) (s := .waiting) (by rw [hw]; rfl) rfl
      exact ⟨by dsimp only; omega, by dsimp only; omega⟩
  | resume w woken =>
    obtain ⟨hw, -, rfl⟩ := step_resume hs
    by_cases hin : s.in_ = 0
    · rw [resume_leave hin]
      refine counts_leave woken hn hin ?_
      rw [count_update_loss (by rw [hw]; rfl) rfl]
      omega
    · rw [resume_wait hin]
      exact ⟨hi.trans (count_update_same (by rw [hw]; rfl)).symm, hb⟩
  | wake w =>
    obtain ⟨hw, rfl⟩ := step_wake hs
    exact ⟨hi.trans (count_update_same (by rw [hw]; rfl)).symm, hb⟩

theorem counts_inductive (n : ℕ) : (system n).Inductive Counts where
  init s h := by
    obtain ⟨hn, rfl⟩ := init_eq h
    exact ⟨((count_eq_zero _ _).2 fun _ => rfl).symm, hn⟩
  step _ _ _ h hs := counts_step h hs

/-- **The counters are exact in every run**, whenever the threads enter. -/
theorem counts_run (h : (system n).Reachable s) : Counts s := (counts_inductive n).reachable h

/-! ## Rounds -/

/-- Rounds below `r` are over; the threads are coming into round `r` or, when `out` is not 0, leaving it. -/
structure Round (s : UvBarrier n) (r : ℕ) : Prop where
  ledger : ∀ w, s.entered w = (s.results w).length + (s.threads w).asleep.toNat
  filling : s.out = 0 → ∀ w, (s.results w).length = r
  draining : s.out ≠ 0 → s.in_ = 0 ∧ ∀ w, s.entered w = r + 1
  woken : s.out ≠ 0 → ∃ w, s.threads w = .signalled
  serial : ∀ k < r, ∃! w, (s.results w)[k]? = some true
  undecided : ∀ w, (s.results w)[r]? ≠ some true

theorem results_leave (s : UvBarrier n) (w : Fin n) (woken : Fin n → Bool) {v : Fin n} {k : ℕ}
    (h : v = w → k < (s.results w).length) : ((s.leave w woken).results v)[k]? = (s.results v)[k]? := by
  simp only [UvBarrier.leave]
  by_cases e : v = w
  · subst e
    rw [update_self, List.getElem?_append_left (h rfl)]
  · rw [update_of_ne e]

/-- **A thread leaves a round**; the last one ends it. `hout`: the threads still in the barrier are those it leaves
behind. -/
theorem round_leave {woken : Fin n → Bool} (hin : s.in_ = 0)
    (hw : s.threads w ≠ .waiting) (hlen : (s.results w).length = r) (hentered : ∀ v, s.entered v = r + 1)
    (hledger : ∀ v, v ≠ w → s.entered v = (s.results v).length + (s.threads v).asleep.toNat)
    (hserial : ∀ k < r, ∃! v, (s.results v)[k]? = some true) (hopen : ∀ v, (s.results v)[r]? ≠ some true)
    (hout : s.out = count Thread.asleep (update s.threads w (.awake ())) + 1) (hwk : Wakes s.threads woken) :
    ∃ r, Round (s.leave w woken) r := by
  have hself : (s.leave w woken).results w = s.results w ++ [decide (s.out - 1 = 0)] := by
    simp [UvBarrier.leave]
  have hother (v : Fin n) (hv : v ≠ w) : (s.leave w woken).results v = s.results v := by
    simp [UvBarrier.leave, update_of_ne hv]
  have hled (v : Fin n) : (s.leave w woken).entered v =
      ((s.leave w woken).results v).length + ((s.leave w woken).threads v).asleep.toNat := by
    by_cases e : v = w
    · subst e
      simp [UvBarrier.leave, hentered, hlen]
    · simpa [UvBarrier.leave, update_of_ne e] using hledger v e
  have hold (k : ℕ) (hk : k < r) : ∃! v, ((s.leave w woken).results v)[k]? = some true := by
    simp only [results_leave s w woken fun _ => hlen ▸ hk]
    exact hserial k hk
  by_cases hlast : s.out - 1 = 0
  · -- nobody else is inside: everyone has been through round `r`, and `w` is told so
    have hawake : ∀ v, (update s.threads w (.awake ()) v).asleep = false :=
      (count_eq_zero _ _).1 (by omega)
    have hall (v : Fin n) : ((s.leave w woken).results v).length = r + 1 := by
      have h1 := hled v
      have h2 : ((s.leave w woken).threads v).asleep = false := by
        simp only [UvBarrier.leave, signal_asleep]
        exact hawake v
      rw [h2] at h1
      exact h1.symm.trans (hentered v)
    refine ⟨r + 1, hled, fun _ => hall, fun h => absurd hlast h, fun h => absurd hlast h, fun k hk => ?_,
      fun v => by rw [List.getElem?_eq_none (hall v).le]; simp⟩
    rcases Nat.lt_succ_iff_lt_or_eq.1 hk with hk | rfl
    · exact hold k hk
    · refine ⟨w, ?_, fun v hv => by_contra fun e => hopen v ?_⟩
      · dsimp only
        rw [hself, ← hlen]
        simp [hlast]
      · rwa [← hother v e]
  · -- someone is left behind, and the signal reaches one of them
    refine ⟨r, hled, fun h => absurd h hlast, fun _ => ⟨hin, hentered⟩, fun _ => ?_, hold, fun v => ?_⟩
    · obtain ⟨v, hv⟩ := exists_of_count_pos Thread.asleep (update s.threads w (.awake ())) (by omega)
      exact (hwk.update hw (s := .awake ()) (by simp)).signalled hv
    · by_cases e : v = w
      · subst e
        rw [hself, ← hlen]
        simp [hlast]
      · rw [hother v e]
        exact hopen v

theorem Round.toggle (h : Round s r) {st : Thread Unit}
    (hw : (s.threads w).asleep = true) (hst : st.asleep = true) (hwake : s.out ≠ 0 → st = .signalled) :
    Round { s with threads := update s.threads w st } r where
  ledger v := by
    by_cases e : v = w
    · subst e
      simpa [hst, hw] using h.ledger v
    · simpa [update_of_ne e] using h.ledger v
  filling := h.filling
  draining := h.draining
  woken hne := ⟨w, by simp [hwake hne]⟩
  serial := h.serial
  undecided := h.undecided

theorem Round.wait (h : Round s r) (hw : s.threads w = .awake ()) (hout : s.out = 0) :
    Round { s with
      in_ := s.in_ + 1
      threads := update s.threads w .waiting
      entered := update s.entered w (s.entered w + 1) } r where
  ledger v := by
    by_cases e : v = w
    · subst e
      simpa [hw] using h.ledger v
    · simpa [update_of_ne e] using h.ledger v
  filling := h.filling
  draining hne := absurd hout hne
  woken hne := absurd hout hne
  serial := h.serial
  undecided := h.undecided

theorem round_step {t : UvBarrier n} {l : Label n} (hc : Counts s) (h : ∃ r, Round s r) (hd : EntersDrained s l)
    (hs : step s l = some t) : ∃ r, Round t r := by
  obtain ⟨r, h⟩ := h
  cases l with
  | enter w woken woken' =>
    obtain ⟨hw, -, hwk, rfl⟩ := step_enter hs
    have hout : s.out = 0 := hd
    by_cases hlast : s.in_ + 1 = n
    · rw [enter_last hlast]
      -- `n - 1` threads sleep, so everyone but `w` has entered round `r`
      have hinside := hc.inside
      have hasleep (v : Fin n) (hv : v ≠ w) : (s.threads v).asleep = true := by
        by_contra hno
        have hu := count_update_gain (p := Thread.asleep) (f := s.threads) (w := w) (s := .waiting) (by rw [hw]; rfl) rfl
        have hlt := count_lt_card Thread.asleep (update s.threads w .waiting) (w := v)
          (by rw [update_of_ne hv]; exact Bool.eq_false_iff.2 hno)
        rw [Fintype.card_fin] at hlt
        omega
      have hlen := h.filling hout
      refine round_leave (r := r) rfl (fun e => ?_) (hlen w) (fun v => ?_) (fun v hv => ?_) h.serial h.undecided ?_ hwk
      · have := waiting_of_signal _ _ e
        rw [hw] at this
        cases this
      · by_cases e : v = w
        · subst e
          have := h.ledger v
          rw [hw, hlen] at this
          simp [this]
        · have := h.ledger v
          rw [hlen, hasleep v e] at this
          simpa [update_of_ne e] using this
      · simpa [update_of_ne hv] using h.ledger v
      · rw [count_signal_awake woken hw]
        dsimp only
        omega
    · rw [enter_wait hlast]
      exact ⟨r, h.wait hw hout⟩
  | resume w woken =>
    obtain ⟨hw, hwk, rfl⟩ := step_resume hs
    have hpos := count_pos Thread.asleep s.threads (w := w) (by rw [hw]; rfl)
    have hinside := hc.inside
    by_cases hin : s.in_ = 0
    · rw [resume_leave hin]
      have hne : s.out ≠ 0 := by omega
      have hent := (h.draining hne).2
      have hself := h.ledger w
      rw [hw, hent] at hself
      refine round_leave hin (by rw [hw]; simp) (Nat.succ.inj hself).symm hent (fun v _ => h.ledger v) h.serial h.undecided
        ?_ hwk
      rw [count_update_loss (by rw [hw]; rfl) rfl]
      omega
    · rw [resume_wait hin]
      exact ⟨r, h.toggle (by rw [hw]; rfl) rfl fun hne => absurd (h.draining hne).1 hin⟩
  | wake w =>
    obtain ⟨hw, rfl⟩ := step_wake hs
    exact ⟨r, h.toggle (by rw [hw]; rfl) rfl fun _ => rfl⟩

theorem round_run (h : ((system n).restrict EntersDrained).Reachable s) :
    Counts s ∧ ∃ r, Round s r := by
  refine LTS.Inductive.reachable (((counts_inductive n).restrict _).with_ (Q := fun s => ∃ r, Round s r)
    (fun s h0 => ?_) fun s l t hc hr hs => ?_) h
  · obtain ⟨-, rfl⟩ := init_eq h0
    exact ⟨0, fun _ => rfl, fun _ _ => rfl, fun hne => absurd rfl hne, fun hne => absurd rfl hne, nofun, by simp⟩
  · exact round_step hc hr hs.1 hs.2

namespace Round
variable {s : UvBarrier n} {r : ℕ} (h : Round s r)
include h

theorem length_le (w : Fin n) : (s.results w).length ≤ r + 1 := by
  by_cases hout : s.out = 0
  · exact (h.filling hout w).le.trans (Nat.le_succ r)
  · have := h.ledger w
    have := (h.draining hout).2 w
    omega

theorem returns_after (w w' : Fin n) : (s.results w).length ≤ s.entered w' := by
  by_cases hout : s.out = 0
  · rw [h.filling hout w, ← h.filling hout w', h.ledger w']
    exact Nat.le_add_right _ _
  · rw [(h.draining hout).2 w']
    exact h.length_le w

theorem serial_unique {k : ℕ} {w w' : Fin n} (hw : (s.results w)[k]? = some true)
    (hw' : (s.results w')[k]? = some true) : w = w' := by
  obtain ⟨hlt, -⟩ := List.getElem?_eq_some_iff.1 hw
  have hle := h.length_le w
  have hk : k ≠ r := fun e => h.undecided w (e ▸ hw)
  exact (h.serial k (by omega)).unique hw hw'

theorem serial_exists [NeZero n] {k : ℕ} (hk : ∀ w, k < (s.results w).length) :
    ∃ w, (s.results w)[k]? = some true := by
  suffices k < r from (h.serial k this).exists
  by_cases hout : s.out = 0
  · exact h.filling hout 0 ▸ hk 0
  · -- somebody has not left round `r`
    obtain ⟨w, hw⟩ := h.woken hout
    have hl := h.ledger w
    rw [(h.draining hout).2 w, hw] at hl
    simp only [Thread.asleep_signalled, Bool.toNat_true] at hl
    have := hk w
    omega

theorem no_deadlock (hc : Counts s) : ¬ ∀ w, s.threads w = .waiting := by
  intro hall
  by_cases hout : s.out = 0
  · have hcard := count_eq_card Thread.asleep s.threads fun w => by rw [hall w]; rfl
    have hi := hc.inside
    have hb := hc.below
    rw [hcard, Fintype.card_fin] at hi
    omega
  · obtain ⟨w, hw⟩ := h.woken hout
    rw [hall w] at hw
    cases hw

end Round

/-- **The barrier is reusable, if the threads let a round drain**: in every run in which a thread enters only while
`out` is 0, no call returns before every thread has begun as many, each round has one serial thread, and there is
always a thread that does not sleep unsignalled. -/
theorem barrier_reusable {s : UvBarrier n} (h : ((system n).restrict EntersDrained).Reachable s) :
    (∀ w w', (s.results w).length ≤ s.entered w') ∧
    (∀ (k : ℕ) w w', (s.results w)[k]? = some true → (s.results w')[k]? = some true → w = w') ∧
    (∀ k : ℕ, (∀ w, k < (s.results w).length) → ∃ w, (s.results w)[k]? = some true) ∧
    ¬ ∀ w, s.threads w = .waiting := by
  obtain ⟨hc, r, hr⟩ := round_run h
  have : NeZero n := ⟨(Nat.zero_lt_of_lt hc.below).ne'⟩
  exact ⟨hr.returns_after, fun _ _ _ hw hw' => hr.serial_unique hw hw', fun _ hk => hr.serial_exists hk, hr.no_deadlock hc⟩

/-- Two threads, and two rounds of them. -/
theorem barrier_reusable_two : ∃ s, ((system 2).restrict EntersDrained).Reachable s ∧
    s.results = ![[true, false], [false, true]] ∧ (∀ w w', (s.results w).length ≤ s.entered w') ∧
    ¬ ∀ w, s.threads w = .waiting := by
  have h0 : ((system 2).restrict EntersDrained).Reachable ⟨0, 0, fun _ => .awake (), fun _ => 0, fun _ => []⟩ :=
    .init rfl
  have h1 := h0.step (l := Label.enter 0 (fun _ => true) fun _ => true) ⟨rfl, rfl⟩
  have h2 := h1.step (l := Label.enter 1 (fun _ => true) fun _ => true) ⟨rfl, rfl⟩
  have h3 := h2.step (l := Label.resume 0 fun _ => true) ⟨trivial, rfl⟩
  have h4 := h3.step (l := Label.enter 1 (fun _ => true) fun _ => true) ⟨rfl, rfl⟩
  have h5 := h4.step (l := Label.enter 0 (fun _ => true) fun _ => true) ⟨rfl, rfl⟩
  have h6 := h5.step (l := Label.resume 1 fun _ => true) ⟨trivial, rfl⟩
  obtain ⟨hb, -, -, hd⟩ := barrier_reusable h6
  exact ⟨_, h6, by decide +kernel, hb, hd⟩

/-! ## A thread that enters too early -/

/-- A thread has entered while the round before is draining. -/
structure Overrun (s : UvBarrier n) : Prop where
  coming : s.in_ ≠ 0
  leaving : s.out ≠ 0

/-- While `out` is not 0 the threads that come in do not make up the threshold. -/
theorem enter_early {s t : UvBarrier n} {w : Fin n} {woken woken' : Fin n → Bool} (hc : Counts s) (hout : s.out ≠ 0)
    (hs : step s (.enter w woken woken') = some t) : Overrun t ∧ t.results = s.results := by
  obtain ⟨hw, -, -, rfl⟩ := step_enter hs
  have hlt := count_lt_card Thread.asleep s.threads (w := w) (by rw [hw]; rfl)
  rw [Fintype.card_fin, ← hc.inside] at hlt
  rw [enter_wait (by omega)]
  exact ⟨⟨Nat.succ_ne_zero _, hout⟩, rfl⟩

theorem overrun_step {s t : UvBarrier n} {l : Label n} (hc : Counts s) (h : Overrun s) (hs : step s l = some t) :
    Overrun t ∧ t.results = s.results := by
  cases l with
  | enter w woken woken' => exact enter_early hc h.leaving hs
  | resume w woken =>
    obtain ⟨-, -, rfl⟩ := step_resume hs
    rw [resume_wait h.coming]
    exact ⟨⟨h.coming, h.leaving⟩, rfl⟩
  | wake w =>
    obtain ⟨-, rfl⟩ := step_wake hs
    exact ⟨⟨h.coming, h.leaving⟩, rfl⟩

/-- **A thread that enters while the round before is draining stops the barrier**: nobody returns any more. -/
theorem overrun_stuck {s t u : UvBarrier n} {w : Fin n} {woken woken' : Fin n → Bool} {ls : List (Label n)}
    (h : (system n).Reachable s) (hout : s.out ≠ 0) (hs : step s (.enter w woken woken') = some t)
    (hr : (system n).Run t ls u) : u.results = s.results := by
  have h1 := enter_early (counts_run h) hout hs
  have hc1 := counts_step (counts_run h) hs
  suffices Counts u ∧ Overrun u ∧ u.results = s.results from this.2.2
  induction hr with
  | nil => exact ⟨hc1, h1⟩
  | snoc _ hst ih =>
    obtain ⟨hc, ho, he⟩ := ih
    obtain ⟨ho', he'⟩ := overrun_step hc ho hst
    exact ⟨counts_step hc hst, ho', he'.trans he⟩

/-- Two threads have met, of which one is not back yet. -/
def met : UvBarrier 2 :=
  (UvBarrier.enter ⟨0, 0, fun _ => .awake (), fun _ => 0, fun _ => []⟩ 0 (fun _ => true) fun _ => true).enter 1
    (fun _ => true) fun _ => true

theorem overrun_stuck_two : (system 2).Reachable met ∧
    ((met.enter 1 (fun _ => true) fun _ => true).resume 0 fun _ => true).results = met.results := by
  have h0 : (system 2).Reachable ⟨0, 0, fun _ => .awake (), fun _ => 0, fun _ => []⟩ := .init rfl
  have h1 := h0.step (l := Label.enter 0 (fun _ => true) fun _ => true) rfl
  have h2 : (system 2).Reachable met := h1.step (l := Label.enter 1 (fun _ => true) fun _ => true) rfl
  have hr := LTS.Run.snoc (T := system 2) (.nil (met.enter 1 (fun _ => true) fun _ => true))
    (l := .resume 0 fun _ => true) rfl
  have hs : step met (.enter 1 (fun _ => true) fun _ => true) = some _ := rfl
  exact ⟨h2, overrun_stuck h2 (by decide) hs hr⟩

/-- Two threads: the last one of the first round is back in the barrier before the other has the mutex. -/
theorem deadlocked : ∃ s, (system 2).Reachable s ∧ ∀ w, s.threads w = .waiting := by
  have h0 : (system 2).Reachable ⟨0, 0, fun _ => .awake (), fun _ => 0, fun _ => []⟩ := .init rfl
  have h1 := h0.step (l := Label.enter 0 (fun _ => true) fun _ => true) rfl
  have h2 := h1.step (l := Label.enter 1 (fun _ => true) fun _ => true) rfl
  have h3 := h2.step (l := Label.enter 1 (fun _ => true) fun _ => true) rfl
  have h4 := h3.step (l := Label.resume 0 fun _ => true) rfl
  exact ⟨_, h4, by decide +kernel⟩

end Libuv.L4.Barrier
