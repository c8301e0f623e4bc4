import Mathlib.Data.Fintype.Card
import Mathlib.Data.Fintype.BigOperators
import Mathlib.Algebra.BigOperators.Fin

/-!
# Condition variables

Threads that sleep on one condition variable. A thread is awake, doing something of type `A`, or inside the
wait: not signalled, or signalled and on its way to the mutex. `signal f woken` moves the waiters in `woken`;
`Wakes` is what a signal promises, that there is one if anyone waits.

* `count_update`: the number of threads with a property, after one thread has changed; `count_update_same`,
  `count_update_gain` and `count_update_loss` are its cases.
* `Wakes.signalled`: after a signal a sleeping thread is signalled, if any thread sleeps.
* `Wakes.card_signalled`: a signal that finds a waiter raises the number of signalled threads.
-/
namespace Libuv.CondVar

inductive Thread (A : Type*)
  | awake (a : A)
  | waiting
  | signalled
  deriving DecidableEq

variable {T A S : Type*}

namespace Thread

def asleep : Thread A → Bool
  | awake _ => false
  | waiting | signalled => true

def isSignalled : Thread A → Bool
  | signalled => true
  | awake _ | waiting => false

@[simp] theorem asleep_awake (a : A) : (awake a).asleep = false := rfl

@[simp] theorem asleep_waiting : (waiting : Thread A).asleep = true := rfl
@[simp] theorem asleep_signalled : (signalled : Thread A).asleep = true := rfl
@[simp] theorem isSignalled_awake (a : A) : (awake a).isSignalled = false := rfl
@[simp] theorem isSignalled_waiting : (waiting : Thread A).isSignalled = false := rfl
@[simp] theorem isSignalled_signalled : (signalled : Thread A).isSignalled = true := rfl
theorem asleep_iff {s : Thread A} : s.asleep = true ↔ s = waiting ∨ s = signalled := by
  cases s <;> simp

theorem isSignalled_iff {s : Thread A} : s.isSignalled = true ↔ s = signalled := by
  cases s <;> simp

end Thread

/-- A signal that reaches the waiters in `woken`. -/
def signal (f : T → Thread A) (woken : T → Bool) (w : T) : Thread A :=
  match f w with
  | .waiting => if woken w then .signalled else .waiting
  | s => s

/-- A signal reaches at least one waiter, if there is one. -/
def Wakes (f : T → Thread A) (woken : T → Bool) : Prop :=
  (∃ w, f w = .waiting) → ∃ w, f w = .waiting ∧ woken w = true

instance [Fintype T] [DecidableEq A] (f : T → Thread A) (woken : T → Bool) : Decidable (Wakes f woken) :=
  inferInstanceAs (Decidable (_ → _))

section Signal
variable (f : T → Thread A) (woken : T → Bool)

@[simp] theorem signal_asleep (w : T) : (signal f woken w).asleep = (f w).asleep := by
  unfold signal
  cases f w with
  | awake a => rfl
  | waiting => cases woken w <;> rfl
  | signalled => rfl

theorem signal_of_signalled {w : T} (h : f w = .signalled) : signal f woken w = .signalled := by
  unfold signal
  rw [h]

theorem signal_of_woken {w : T} (h : f w = .waiting) (hw : woken w = true) : signal f woken w = .signalled := by
  unfold signal
  rw [h, hw]
  rfl

theorem waiting_of_signal {w : T} (h : signal f woken w = .waiting) : f w = .waiting := by
  unfold signal at h
  cases hf : f w with
  | awake a => simp [hf] at h
  | waiting => rfl
  | signalled => simp [hf] at h

variable {f woken}

theorem Wakes.signalled (h : Wakes f woken) {w : T} (hw : (f w).asleep = true) :
    ∃ v, signal f woken v = .signalled := by
  rcases Thread.asleep_iff.1 hw with hw | hw
  · obtain ⟨v, hv, hvw⟩ := h ⟨w, hw⟩
    exact ⟨v, signal_of_woken f woken hv hvw⟩
  · exact ⟨w, signal_of_signalled f woken hw⟩

theorem Wakes.update [DecidableEq T] (h : Wakes f woken) {w : T} {s : Thread A} (hw : f w ≠ .waiting)
    (hs : s ≠ .waiting) : Wakes (Function.update f w s) woken := by
  have hiff (v : T) : Function.update f w s v = .waiting ↔ f v = .waiting := by
    by_cases e : v = w
    · subst e
      simp [hw, hs]
    · rw [Function.update_of_ne e]
  simpa only [Wakes, hiff] using h

end Signal

/-! ## Counting threads -/

section Count
variable [Fintype T]

/-- The number of threads whose state has the property `p`. -/
def count (p : S → Bool) (f : T → S) : ℕ := (Finset.univ.filter fun w => p (f w) = true).card

variable (p : S → Bool) (f : T → S)

theorem count_congr {g : T → S} (h : ∀ w, p (g w) = p (f w)) : count p g = count p f := by
  unfold count
  congr 1
  ext w
  simp [h]

theorem count_pos {w : T} (h : p (f w) = true) : 0 < count p f :=
  Finset.card_pos.2 ⟨w, by simpa using h⟩

theorem exists_of_count_pos (h : 0 < count p f) : ∃ w, p (f w) = true := by
  obtain ⟨w, hw⟩ := Finset.card_pos.1 h
  exact ⟨w, by simpa using hw⟩

theorem count_eq_zero : count p f = 0 ↔ ∀ w, p (f w) = false := by
  simp [count, Finset.filter_eq_empty_iff]

theorem count_eq_card (h : ∀ w, p (f w) = true) : count p f = Fintype.card T := by
  rw [count, Finset.filter_true_of_mem fun w _ => h w, Finset.card_univ]

theorem count_lt_card {w : T} (h : p (f w) = false) : count p f < Fintype.card T :=
  Finset.card_lt_univ_of_notMem (x := w) (by simp [h])

variable [DecidableEq T]

theorem count_update (w : T) (s : S) :
    count p (Function.update f w s) + (p (f w)).toNat = count p f + (p s).toNat := by
  have hsum (g : T → S) : count p g = (p (g w)).toNat + ∑ v ∈ Finset.univ.erase w, (p (g v)).toNat := by
    rw [Finset.add_sum_erase _ (fun v => (p (g v)).toNat) (Finset.mem_univ w), count, Finset.card_filter]
    refine Finset.sum_congr rfl fun v _ => ?_
    cases p (g v) <;> rfl
  have hrest : ∑ v ∈ Finset.univ.erase w, (p (Function.update f w s v)).toNat =
      ∑ v ∈ Finset.univ.erase w, (p (f v)).toNat :=
    Finset.sum_congr rfl fun v hv => by rw [Function.update_of_ne (Finset.ne_of_mem_erase hv)]
  rw [hsum, hsum f, Function.update_self]
  omega

variable {p f} {w : T} {s : S}

theorem count_update_same (h : p (f w) = p s) : count p (Function.update f w s) = count p f := by
  have := count_update p f w s
  rw [h] at this
  exact Nat.add_right_cancel this

theorem count_update_gain (h0 : p (f w) = false) (h1 : p s = true) :
    count p (Function.update f w s) = count p f + 1 := by
  simpa [h0, h1] using count_update p f w s

theorem count_update_loss (h0 : p (f w) = true) (h1 : p s = false) :
    count p (Function.update f w s) + 1 = count p f := by
  simpa [h0, h1] using count_update p f w s

end Count

section Signalled
variable [Fintype T] {f : T → Thread A} {woken : T → Bool}

theorem count_asleep_signal (f : T → Thread A) (woken : T → Bool) :
    count Thread.asleep (signal f woken) = count Thread.asleep f :=
  count_congr _ _ fun w => signal_asleep f woken w

theorem Wakes.card_signalled (h : Wakes f woken) {w : T} (hw : f w = .waiting) :
    count Thread.isSignalled f < count Thread.isSignalled (signal f woken) := by
  obtain ⟨v, hv, hvw⟩ := h ⟨w, hw⟩
  refine Finset.card_lt_card ⟨fun u hu => ?_, fun hsub => ?_⟩
  · simp only [Finset.mem_filter, Finset.mem_univ, true_and, Thread.isSignalled_iff] at hu ⊢
    exact signal_of_signalled f woken hu
  · have hmem : v ∈ Finset.univ.filter fun w => (signal f woken w).isSignalled = true := by
      simp [signal_of_woken f woken hv hvw]
    simpa [hv] using hsub hmem

end Signalled

end Libuv.CondVar
