import Mathlib.Data.Nat.Notation
import Mathlib.Logic.Function.Basic
import Libuv.Core.LTS

/-!
# `uv_once` (`win/thread.c`)

Threads call `uv_once` with one guard, again and again; a step is one access to what they share. The handle of an event is
one that is not open, and may have been another event's; where there is none the program ends. The callback does not use
the guard.

* `once_run`: the callback runs once, and is over when a call returns; no assertion fails.
* `once_released`: a thread that waits can go on after at most three steps of the one that calls.
-/
namespace Libuv.L4.Once
open Function

/-- Where a thread is, with its `created_event` and `existing_event`. -/
inductive Pc (E : Type*)
  | outside
  | started
  | created (event : E)
  | won (event : E)
  | calling (event : E)
  | called (event : E)
  | set (event : E)
  | lost (event existing : E)
  | waiting (existing : E)

/-- `uv_once_t`, and what events are open and set. Ghosts: who has won, how often the callback was begun and is over, and how
many calls have returned. -/
structure State (T E : Type*) where
  ran : Bool
  event : Option E
  events : E → Option Bool
  threads : T → Pc E
  winner : Option T
  calls : ℕ
  finished : ℕ
  returns : ℕ

inductive Stop
  | blocked
  | assertion

variable {T E : Type*} [DecidableEq T] [DecidableEq E]

def State.goto (s : State T E) (w : T) (pc : Pc E) : State T E := { s with threads := update s.threads w pc }

def State.ret (s : State T E) (w : T) : State T E := { s.goto w .outside with returns := s.returns + 1 }

/-- Thread `w` takes a step; `new` is what `CreateEvent` would return.
mirrors win/thread.c:35-73 -/
def step (s : State T E) : T × E → Except Stop (State T E)
  | (w, new) =>
    match s.threads w with
    | .outside => if s.ran then .ok (s.ret w) else .ok (s.goto w .started)
    | .started =>
      if (s.events new).isSome then .error .blocked
      else .ok { s.goto w (.created new) with events := update s.events new (some false) }
    | .created e =>
      match s.event with
      | none => .ok { s.goto w (.won e) with event := some e, winner := some w }
      | some x => .ok (s.goto w (.lost e x))
    | .won e => .ok { s.goto w (.calling e) with calls := s.calls + 1 }
    | .calling e => .ok { s.goto w (.called e) with finished := s.finished + 1 }
    | .called e =>
      if (s.events e).isSome then .ok { s.goto w (.set e) with events := update s.events e (some true) }
      else .error .assertion
    | .set _ => .ok { s.ret w with ran := true }
    | .lost e x => .ok { s.goto w (.waiting x) with events := update s.events e none }
    | .waiting x =>
      match s.events x with
      | none => .error .assertion
      | some false => .error .blocked
      | some true => .ok (s.ret w)

def system (T E : Type*) [DecidableEq T] [DecidableEq E] : LTS (State T E) (T × E) where
  init s := s.ran = false ∧ s.event = none ∧ (∀ w, s.threads w = .outside) ∧ s.winner = none ∧ s.calls = 0 ∧ s.finished = 0 ∧
    s.returns = 0
  step s l t := step s l = .ok t

/-- The event a thread has created and not given up. -/
@[grind] def Pc.holds : Pc E → Option E
  | .created e | .won e | .calling e | .called e | .set e | .lost e _ => some e
  | _ => none

@[grind] def Pc.seen : Pc E → Option E
  | .lost _ x | .waiting x => some x
  | _ => none

/-- How far the winner is. -/
@[grind] def Pc.stage : Pc E → ℕ
  | .won _ => 0
  | .calling _ => 1
  | .called _ => 2
  | .set _ => 3
  | _ => 4

structure Inv (s : State T E) : Prop where
  mine : ∀ w e, (s.threads w).holds = some e → (s.events e).isSome
  apart : ∀ w v e, (s.threads w).holds = some e → (s.threads v).holds = some e → w = v
  loser : ∀ w e, (s.threads w).holds = some e → (s.threads w).stage = 4 → s.event ≠ some e ∧ s.events e = some false
  winner : ∀ w, (s.threads w).stage < 4 → s.winner = some w ∧ s.event = (s.threads w).holds
  seen : ∀ w x, (s.threads w).seen = some x → s.event = some x
  idle : s.event = none → s.calls = 0 ∧ s.finished = 0 ∧ s.ran = false ∧ s.returns = 0
  both : s.event.isSome = s.winner.isSome
  run : ∀ x w, s.event = some x → s.winner = some w →
    s.events x = (if 3 ≤ (s.threads w).stage then some true else some false) ∧
    s.calls = (if 1 ≤ (s.threads w).stage then 1 else 0) ∧ s.finished = (if 2 ≤ (s.threads w).stage then 1 else 0) ∧
    (s.ran = true → (s.threads w).stage = 4) ∧ (s.returns ≠ 0 → 3 ≤ (s.threads w).stage)

omit [DecidableEq E] in
theorem holds_of_stage {p : Pc E} (h : p.stage < 4) : p.holds ≠ none := by
  cases p <;> simp_all [Pc.stage, Pc.holds]

variable {s t : State T E} {w : T} {x : E}

omit [DecidableEq T] [DecidableEq E] in
theorem Inv.won (h : Inv s) (hx : s.event = some x) : ∃ v, s.winner = some v :=
  Option.isSome_iff_exists.1 (h.both.symm.trans (by rw [hx]; rfl))

omit [DecidableEq T] [DecidableEq E] in
theorem Inv.isOpen (h : Inv s) (hx : s.event = some x) : (s.events x).isSome := by
  obtain ⟨v, hv⟩ := h.won hx
  rw [(h.run x v hx hv).1]
  split <;> rfl

theorem inv_winner {new : E} (h : Inv s) (hw : (s.threads w).stage < 4) (hs : step s (w, new) = .ok t) : Inv t := by
  obtain ⟨h1, h2, h3, h4, h5, h6, h7, h8⟩ := h
  unfold step at hs
  cases hp : s.threads w with
  | won | calling | set =>
    simp only [hp] at hs
    cases hs
    constructor <;> simp only [State.ret, State.goto, update_apply] <;> grind -ring -linarith
  | called =>
    simp only [hp] at hs
    split at hs <;> cases hs
    constructor <;> simp only [State.goto, update_apply] <;> grind -ring -linarith
  | _ => simp [hp, Pc.stage] at hw

theorem inv_step {l : T × E} (h : Inv s) (hs : step s l = .ok t) : Inv t := by
  obtain ⟨w, new⟩ := l
  by_cases hw : (s.threads w).stage < 4
  · exact inv_winner h hw hs
  have hopen := fun x => h.isOpen (x := x)
  -- While the guard has no event nobody has won.
  have hnone : s.event = none → ∀ v, ¬ (s.threads v).stage < 4 := fun he v hv =>
    holds_of_stage hv ((h.winner v hv).2.symm.trans he)
  obtain ⟨h1, h2, h3, h4, h5, h6, h7, h8⟩ := h
  unfold step at hs
  cases hp : s.threads w with
  | outside | started | created | waiting =>
    simp only [hp] at hs
    split at hs <;> cases hs <;> constructor <;> simp only [State.ret, State.goto, update_apply] <;> grind -ring -linarith
  | lost =>
    simp only [hp] at hs
    cases hs
    constructor <;> simp only [State.goto, update_apply] <;> grind -ring -linarith
  | _ => simp [hp, Pc.stage] at hw

theorem inv_run : (system T E).Inductive Inv where
  init := by
    rintro s ⟨h1, h2, h3, h4, h5, h6, h7⟩
    constructor <;> grind
  step _ _ _ := inv_step

/-- Two threads have created an event each; the first one wins, and the other one waits until both return. -/
theorem late : ∃ s t : State Bool Bool, (system Bool Bool).Reachable s ∧ s.threads true = .waiting false ∧
    (system Bool Bool).Reachable t ∧ t.returns = 2 := by
  have h0 : (system Bool Bool).Reachable ⟨false, none, fun _ => none, fun _ => .outside, none, 0, 0, 0⟩ :=
    .init ⟨rfl, rfl, fun _ => rfl, rfl, rfl, rfl, rfl⟩
  have h1 := h0.next (false, false) rfl
  have h2 := h1.next (false, false) rfl
  have h3 := h2.next (true, true) rfl
  have h4 := h3.next (true, true) rfl
  have h5 := h4.next (false, false) rfl
  have h6 := h5.next (true, true) rfl
  have h7 := h6.next (true, true) rfl
  have h8 := h7.next (false, false) rfl
  have h9 := h8.next (false, false) rfl
  have h10 := h9.next (false, false) rfl
  have h11 := h10.next (true, true) rfl
  have h12 := h11.next (false, false) rfl
  exact ⟨_, _, h7, rfl, h12, rfl⟩

/-- **`uv_once`.** In every interleaving the callback is begun once at most, a call that has returned found it finished, and
each event that is set or waited for is open. -/
theorem once_run (hr : (system T E).Reachable s) :
    s.calls ≤ 1 ∧ (s.returns ≠ 0 → s.calls = 1 ∧ s.finished = 1) ∧ ∀ l, step s l ≠ .error .assertion := by
  have h := inv_run.reachable hr
  refine ⟨?_, ?_, fun l => ?_⟩
  · cases hx : s.event with
    | none => exact (h.idle hx).1 ▸ Nat.zero_le 1
    | some x =>
      obtain ⟨v, hv⟩ := h.won hx
      rw [(h.run x v hx hv).2.1]
      split <;> decide
  · intro hret
    cases hx : s.event with
    | none => exact absurd (h.idle hx).2.2.2 hret
    | some x =>
      obtain ⟨v, hv⟩ := h.won hx
      have hrun := h.run x v hx hv
      grind
  · intro hs
    obtain ⟨w, new⟩ := l
    unfold step at hs
    cases hw : s.threads w with
    | called e =>
      have hmine := h.mine w e (by rw [hw]; rfl)
      simp [hw, hmine] at hs
    | waiting x =>
      obtain ⟨b, hb⟩ := Option.isSome_iff_exists.1 (h.isOpen (h.seen w x (by rw [hw]; rfl)))
      cases b <;> simp [hw, hb] at hs
    | _ =>
      simp only [hw] at hs
      grind

theorem once_run_late : ∃ s : State Bool Bool, s.returns = 2 ∧ s.calls = 1 ∧ s.finished = 1 := by
  obtain ⟨-, s, -, -, hr, hs⟩ := late
  obtain ⟨hcalls, hfinished⟩ := (once_run hr).2.1 (by rw [hs]; decide)
  exact ⟨s, hs, hcalls, hfinished⟩

theorem winner_step {v : T} (h : Inv s) (hx : s.event = some x) (hv : s.winner = some v)
    (hk : (s.threads v).stage < 3) (new : E) : ∃ t, step s (v, new) = .ok t ∧ t.event = some x ∧ t.winner = some v ∧
      (t.threads v).stage = (s.threads v).stage + 1 ∧ ∀ w ≠ v, t.threads w = s.threads w := by
  cases hp : s.threads v with
  | won | calling =>
    simp only [step, hp]
    exact ⟨_, rfl, hx, hv, by simp [State.goto, Pc.stage], fun w hw => update_of_ne hw ..⟩
  | called e =>
    have hopen := h.mine v e (by rw [hp]; rfl)
    simp only [step, hp, if_pos hopen]
    exact ⟨_, rfl, hx, hv, by simp [State.goto, Pc.stage], fun w hw => update_of_ne hw ..⟩
  | _ =>
    simp [hp, Pc.stage] at hk

/-- **Nobody waits for ever**: when a thread waits for the event, at most three steps of the winner set it. -/
theorem once_released (hr : (system T E).Reachable s) (hw : s.threads w = .waiting x) (new : E) :
    ∃ v ls t, s.winner = some v ∧ (system T E).Run s ls t ∧ ls.length ≤ 3 ∧ (∀ l ∈ ls, l.1 = v) ∧
      ∃ u, step t (w, new) = .ok u := by
  have h := inv_run.reachable hr
  have hx := h.seen w x (by rw [hw]; rfl)
  obtain ⟨v, hv⟩ := h.won hx
  clear hr
  have key : ∀ n, 3 ≤ (s.threads v).stage + n → ∃ ls t, (system T E).Run s ls t ∧ ls.length ≤ n ∧ (∀ l ∈ ls, l.1 = v) ∧
      ∃ u, step t (w, new) = .ok u := by
    intro n hn
    induction n generalizing s with
    | zero =>
      have hset := (h.run x v hx hv).1
      rw [if_pos (by omega)] at hset
      exact ⟨[], s, .nil s, Nat.le_refl 0, nofun, _, by simp only [step, hw, hset]; rfl⟩
    | succ n ih =>
      by_cases hk : (s.threads v).stage < 3
      · obtain ⟨t, ht, hx', hv', hstage, hother⟩ := winner_step h hx hv hk new
        have hwv : w ≠ v := by
          rintro rfl
          simp [hw, Pc.stage] at hk
        obtain ⟨ls, u, hrun, hlen, hls, hu⟩ := ih ((hother w hwv).trans hw) (inv_step h ht) hx' hv' (by omega)
        exact ⟨_, u, (LTS.Run.snoc (.nil s) ht).append hrun, by simpa using hlen, by simpa using hls, hu⟩
      · obtain ⟨ls, t, hrun, hlen, hrest⟩ := ih hw h hx hv (by omega)
        exact ⟨ls, t, hrun, by omega, hrest⟩
  obtain ⟨ls, t, hrun⟩ := key 3 (by omega)
  exact ⟨v, ls, t, hv, hrun⟩

theorem once_released_late : ∃ (s : State Bool Bool) (v : Bool) (ls : List (Bool × Bool)) (t : State Bool Bool),
    s.winner = some v ∧ (system Bool Bool).Run s ls t ∧ ls.length ≤ 3 ∧ ∃ u, step t (true, false) = .ok u := by
  obtain ⟨s, -, hr, hs, -⟩ := late
  obtain ⟨v, ls, t, hv, hrun, hlen, -, hu⟩ := once_released hr hs false
  exact ⟨s, v, ls, t, hv, hrun, hlen, hu⟩

end Libuv.L4.Once
