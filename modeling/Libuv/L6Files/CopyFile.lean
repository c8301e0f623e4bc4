import Libuv.Core.Loop
import Libuv.L6Files.Sendfile

/-!
# The copy loop of `uv__fs_copyfile` (`unix/fs.c`)

Where it does not clone, `uv__fs_copyfile` sends the source to the destination in a loop that counts down the size that `fstat`
gave. How much each `uv_fs_sendfile` sends (`Sender`) is the environment's: between nothing and all it was asked for, or
an error. Which bytes these are, and the rest of the function, is not modelled.

* `copyLoop_returns_iff`: in terms of the results, it ends if one is an error or they add up to the size; a source that is
  shorter than its size was has no such results (`copyLoop_endless`).
-/
namespace Libuv.L6.CopyFile

open Option
open Sendfile (Errno)

variable {α : Type*}

/-! ## The loop -/

/-- `uv_fs_sendfile`: the `i`-th call is for `chunk` bytes of the `avail` that the source has behind the offset, and sends no
more of them (`Sendfile.fsSendfile_within`). -/
structure Sender where
  send : ℕ → ℕ → ℕ → Except Errno ℕ
  send_le : ∀ i chunk avail n, send i chunk avail = .ok n → n ≤ chunk

structure Copy where
  calls : ℕ
  bytesToSend : ℕ
  inOffset : ℕ

section Loop

variable (ssizeMax : ℕ) (src : List α) (S : Sender)

/-- mirrors unix/fs.c:1376-1393 -/
def copyStep (c : Copy) : Copy × Option (Except Errno Unit) :=
  if c.bytesToSend = 0 then (c, some (.ok ()))
  else
    match S.send c.calls (min c.bytesToSend ssizeMax) (src.length - c.inOffset) with
    | .error e => ({ c with calls := c.calls + 1 }, some (.error e))
    | .ok n => (⟨c.calls + 1, c.bytesToSend - n, c.inOffset + n⟩, none)

def copyLoop : ℕ → Copy → Copy × Option (Except Errno Unit)
  | 0, c => (c, none)
  | fuel + 1, c =>
    match (copyStep ssizeMax src S c).2 with
    | some r => ((copyStep ssizeMax src S c).1, some r)
    | none => copyLoop fuel (copyStep ssizeMax src S c).1

/-- There is something to send, and from now on nothing is sent. -/
def Stalled (c : Copy) : Prop :=
  c.bytesToSend ≠ 0 ∧ ∀ i, c.calls ≤ i → S.send i (min c.bytesToSend ssizeMax) (src.length - c.inOffset) = .ok 0

end Loop

section LoopLemmas

variable {ssizeMax : ℕ} {src : List α} {S : Sender}

theorem copyLoop_eq : (copyLoop ssizeMax src S : ℕ → Copy → _) = Loop.run (copyStep ssizeMax src S) := by
  funext fuel c
  induction fuel generalizing c with
  | zero => rfl
  | succ fuel ih =>
    unfold copyLoop Loop.run
    cases (copyStep ssizeMax src S c).2 with
    | some r => rfl
    | none => exact ih _

theorem copyStep_zero {c : Copy} (hc : c.bytesToSend ≠ 0)
    (h : S.send c.calls (min c.bytesToSend ssizeMax) (src.length - c.inOffset) = .ok 0) :
    copyStep ssizeMax src S c = ({ c with calls := c.calls + 1 }, none) := by
  unfold copyStep
  rw [if_neg hc, h]
  rfl

theorem copyLoop_zeros {c : Copy} (hc : c.bytesToSend ≠ 0) (m : ℕ)
    (h : ∀ i, c.calls ≤ i → i < c.calls + m → S.send i (min c.bytesToSend ssizeMax) (src.length - c.inOffset) = .ok 0) :
    copyLoop ssizeMax src S m c = ({ c with calls := c.calls + m }, none) := by
  rw [copyLoop_eq]
  induction m generalizing c with
  | zero => rfl
  | succ m ih =>
    have hrest : ∀ i, c.calls + 1 ≤ i → i < c.calls + 1 + m →
        S.send i (min c.bytesToSend ssizeMax) (src.length - c.inOffset) = .ok 0 := fun i hi hlt => h i (by omega) (by omega)
    rw [Loop.run_of_step (copyStep_zero hc (h c.calls le_rfl (by omega))),
      ih (c := { c with calls := c.calls + 1 }) hc hrest]
    rw [Nat.add_assoc, Nat.add_comm 1 m]

theorem copyLoop_ends_or_stalls (c : Copy) :
    (∃ fuel c' r, copyLoop ssizeMax src S fuel c = (c', some r)) ∨
    ∃ fuel c', copyLoop ssizeMax src S fuel c = (c', none) ∧ Stalled ssizeMax src S c' := by
  rw [copyLoop_eq]
  induction hn : c.bytesToSend using Nat.strongRecOn generalizing c with
  | _ n ih =>
    by_cases h0 : c.bytesToSend = 0
    · have hdone : copyStep ssizeMax src S c = (c, some (.ok ())) := if_pos h0
      exact .inl ⟨1, c, .ok (), Loop.run_of_done hdone 0⟩
    by_cases hall : ∀ i, c.calls ≤ i → S.send i (min c.bytesToSend ssizeMax) (src.length - c.inOffset) = .ok 0
    · exact .inr ⟨0, c, rfl, h0, hall⟩
    -- the first call that sends something, or fails
    have hex : ∃ m, S.send (c.calls + m) (min c.bytesToSend ssizeMax) (src.length - c.inOffset) ≠ .ok 0 := by
      by_contra hno
      refine hall fun i hi => by_contra fun h => hno ⟨i - c.calls, ?_⟩
      rwa [Nat.add_sub_cancel' hi]
    classical
    have hfirst := Nat.find_spec hex
    have hbefore (j : ℕ) (hj : j < Nat.find hex) := not_not.1 (Nat.find_min hex hj)
    generalize Nat.find hex = m at hfirst hbefore
    have hzeros := copyLoop_zeros h0 m fun i hi hlt => by
      have h := hbefore (i - c.calls) (by omega)
      rwa [Nat.add_sub_cancel' hi] at h
    rw [copyLoop_eq] at hzeros
    cases hsend : S.send (c.calls + m) (min c.bytesToSend ssizeMax) (src.length - c.inOffset) with
    | error e =>
      refine .inl ⟨m + 1, { c with calls := c.calls + m + 1 }, .error e, ?_⟩
      rw [Loop.run_add hzeros]
      refine Loop.run_of_done ?_ 0
      unfold copyStep
      rw [if_neg h0, hsend]
    | ok n =>
      have hn : n ≠ 0 := fun h => hfirst (by rw [hsend, h])
      have hstep : copyStep ssizeMax src S { c with calls := c.calls + m } =
          (⟨c.calls + m + 1, c.bytesToSend - n, c.inOffset + n⟩, none) := by
        unfold copyStep
        rw [if_neg h0, hsend]
      have hgo := (Loop.run_add hzeros 1).trans (Loop.run_of_step hstep 0)
      obtain ⟨fuel, c', r, hrun⟩ | ⟨fuel, c', hrun, hst⟩ := ih (c.bytesToSend - n) (by omega)
        ⟨c.calls + m + 1, c.bytesToSend - n, c.inOffset + n⟩ rfl
      · exact .inl ⟨m + 1 + fuel, c', r, (Loop.run_add hgo fuel).trans hrun⟩
      · exact .inr ⟨m + 1 + fuel, c', (Loop.run_add hgo fuel).trans hrun, hst⟩

theorem Stalled.not_ends {c : Copy} (h : Stalled ssizeMax src S c) (fuel : ℕ) :
    (copyLoop ssizeMax src S fuel c).2 = none := by
  rw [copyLoop_zeros h.1 fuel fun i hi _ => h.2 i hi]

theorem copyLoop_ends_iff (ssizeMax : ℕ) (src : List α) (S : Sender) (c : Copy) :
    (∃ fuel c' r, copyLoop ssizeMax src S fuel c = (c', some r)) ↔
    ¬∃ fuel c', copyLoop ssizeMax src S fuel c = (c', none) ∧ Stalled ssizeMax src S c' := by
  constructor
  · rintro ⟨fuel, c', r, hrun⟩ ⟨N, c'', hrun', hst⟩
    have h3 := hst.not_ends fuel
    rw [copyLoop_eq] at hrun hrun' h3
    have h2 := (Loop.run_add hrun' fuel).symm.trans (Loop.run_mono hrun (Nat.le_add_left fuel N))
    rw [h2] at h3
    cases h3
  · intro h
    exact (copyLoop_ends_or_stalls c).resolve_right h

/-! ## The results of the calls -/

/-- `uv_fs_sendfile` with these results, each of them at most what was asked for. -/
def Sender.ofResults (results : ℕ → Except Errno ℕ) : Sender where
  send i chunk _ := (results i).map (min chunk)
  send_le i chunk avail n h := by
    cases hr : results i with
    | error e =>
      rw [hr] at h
      cases h
    | ok k =>
      rw [hr] at h
      cases h
      exact Nat.min_le_left _ _

/-- What the first `n` calls send, each at most `ssizeMax`, of a size that they do not reach. -/
def sentBy (ssizeMax : ℕ) (results : ℕ → Except Errno ℕ) : ℕ → ℕ
  | 0 => 0
  | n + 1 => sentBy ssizeMax results n + min ssizeMax ((results n).toOption.getD 0)

variable {results : ℕ → Except Errno ℕ}

theorem copyLoop_goes (ssizeMax : ℕ) (src : List α) {size n : ℕ}
    (h : ∀ i < n, (∀ e, results i ≠ .error e) ∧ sentBy ssizeMax results i < size) :
    ∃ c, copyLoop ssizeMax src (.ofResults results) n ⟨0, size, 0⟩ = (c, none) ∧ c.calls = n ∧
      c.bytesToSend = size - sentBy ssizeMax results n := by
  rw [copyLoop_eq]
  induction n with
  | zero => exact ⟨_, rfl, rfl, rfl⟩
  | succ n ih =>
    obtain ⟨c, hrun, hcalls, hrest⟩ := ih fun i hi => h i (Nat.lt_succ_of_lt hi)
    obtain ⟨herr, hlt⟩ := h n (Nat.lt_succ_self n)
    cases hr : results n with
    | error e => exact absurd hr (herr e)
    | ok k =>
      have h0 : c.bytesToSend ≠ 0 := by omega
      have hstep : copyStep ssizeMax src (.ofResults results) c =
          (⟨c.calls + 1, c.bytesToSend - min (min c.bytesToSend ssizeMax) k,
            c.inOffset + min (min c.bytesToSend ssizeMax) k⟩, none) := by
        unfold copyStep Sender.ofResults
        rw [if_neg h0]
        dsimp only
        rw [hcalls, hr]
        rfl
      refine ⟨_, (Loop.run_add hrun 1).trans (Loop.run_of_step hstep 0), congrArg (· + 1) hcalls, ?_⟩
      have hsent : sentBy ssizeMax results (n + 1) = sentBy ssizeMax results n + min ssizeMax k := by
        rw [sentBy, hr]
        rfl
      dsimp only
      omega

/-- **The copy loop ends exactly where a call fails or the results add up to the size** that `fstat` gave. -/
theorem copyLoop_returns_iff (ssizeMax size : ℕ) (src : List α) (results : ℕ → Except Errno ℕ) :
    (∃ fuel c r, copyLoop ssizeMax src (.ofResults results) fuel ⟨0, size, 0⟩ = (c, some r)) ↔
    ∃ n, (∃ e, results n = .error e) ∨ size ≤ sentBy ssizeMax results n := by
  constructor
  · intro h
    obtain ⟨fuel, c, r, hrun⟩ := h
    by_contra hno
    have hall (i : ℕ) : (∀ e, results i ≠ .error e) ∧ sentBy ssizeMax results i < size :=
      ⟨fun e he => hno ⟨i, .inl ⟨e, he⟩⟩, Nat.lt_of_not_le fun hle => hno ⟨i, .inr hle⟩⟩
    obtain ⟨c', hrun', -⟩ := copyLoop_goes ssizeMax src (n := fuel) fun i _ => hall i
    rw [hrun] at hrun'
    cases hrun'
  · intro hex
    -- the call before which nothing ends the loop
    classical
    have hlast := Nat.find_spec hex
    have hbefore (i : ℕ) (hi : i < Nat.find hex) := Nat.find_min hex hi
    generalize Nat.find hex = n at hlast hbefore
    obtain ⟨c, hrun, hcalls, hrest⟩ := copyLoop_goes ssizeMax src (n := n) fun i hi =>
      ⟨fun e he => hbefore i hi (.inl ⟨e, he⟩), Nat.lt_of_not_le fun hle => hbefore i hi (.inr hle)⟩
    rw [copyLoop_eq] at hrun ⊢
    by_cases h0 : c.bytesToSend = 0
    · have hdone : copyStep ssizeMax src (.ofResults results) c = (c, some (.ok ())) := if_pos h0
      exact ⟨n + 1, c, .ok (), (Loop.run_add hrun 1).trans (Loop.run_of_done hdone 0)⟩
    · obtain ⟨e, he⟩ := hlast.resolve_right (by omega)
      have hdone : copyStep ssizeMax src (.ofResults results) c = ({ c with calls := c.calls + 1 }, some (.error e)) := by
        unfold copyStep Sender.ofResults
        rw [if_neg h0]
        dsimp only
        rw [hcalls, he]
        rfl
      exact ⟨n + 1, _, .error e, (Loop.run_add hrun 1).trans (Loop.run_of_done hdone 0)⟩

def honest : Sender where
  send _ chunk avail := .ok (min chunk avail)
  send_le i chunk avail n h := by
    cases h
    exact Nat.min_le_left _ _

/-- Two bytes of a source that had three when its size was asked for: the third is waited for without end. -/
theorem copyLoop_endless : ¬∀ (ssizeMax : ℕ) (src : List ℕ) (S : Sender) (size : ℕ), 0 < ssizeMax →
    ∃ fuel c' r, copyLoop ssizeMax src S fuel ⟨0, size, 0⟩ = (c', some r) := by
  intro hall
  have hends := hall (2 ^ 63 - 1) [1, 2] honest 3 (by decide)
  rw [copyLoop_ends_iff] at hends
  refine hends ⟨1, ⟨1, 1, 2⟩, rfl, one_ne_zero, fun i _ => rfl⟩

end LoopLemmas

end Libuv.L6.CopyFile
