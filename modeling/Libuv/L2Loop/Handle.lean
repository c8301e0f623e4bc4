import Mathlib.Tactic
import Libuv.Core.LTS

/-!
# Handles and the liveness counter (`uv-common.h`)

The reference macros of `uv-common.h`, each read as one body: the comments inside
`uv__handle_ref` and `uv__handle_unref` end the line continuation in the file. A macro
takes the flags of a handle and the loop's `active_handles`, an `unsigned int`, and
returns both. A step of `system` is one macro or `uv_close` or the part of
`uv__finish_close` that touches the flags, on any handle, in any order; a handle is known
by its place in the list of all handles that were ever initialised.

* `active_handles_count`: in every reachable state `active_handles` is the number of
  handles that are both active and referenced, as an `unsigned int`, and a decrement
  never meets a handle that was not counted.
* `counter_wraps`: 2^32 active handles count as none.
-/
namespace Libuv.L2.Handle

/-- `UV_HANDLE_CLOSING`, `UV_HANDLE_CLOSED`, `UV_HANDLE_ACTIVE`, `UV_HANDLE_REF`. -/
structure Flags where
  closing : Bool
  closed : Bool
  active : Bool
  ref : Bool
  deriving DecidableEq

/-- `unsigned int` -/
def uintMax : ℕ := 2 ^ 32

/-- mirrors uv-common.h:248-252 -/
def activeHandleAdd (n : ℕ) : ℕ := (n + 1) % uintMax

/-- mirrors uv-common.h:254-258 -/
def activeHandleRm (n : ℕ) : ℕ := (n + (uintMax - 1)) % uintMax

/-- mirrors uv-common.h:263-264 -/
def Flags.isClosing (f : Flags) : Bool := f.closing || f.closed

/-- mirrors uv-common.h:314-322 -/
def handleInit : Flags := ⟨false, false, false, true⟩

/-- mirrors uv-common.h:266-272 -/
def handleStart (f : Flags) (n : ℕ) : Flags × ℕ :=
  if f.active then (f, n)
  else
    let f := { f with active := true }
    (f, if f.ref then activeHandleAdd n else n)

/-- mirrors uv-common.h:274-280 -/
def handleStop (f : Flags) (n : ℕ) : Flags × ℕ :=
  if f.active = false then (f, n)
  else
    let f := { f with active := false }
    (f, if f.ref then activeHandleRm n else n)

/-- mirrors uv-common.h:282-293 -/
def handleRef (f : Flags) (n : ℕ) : Flags × ℕ :=
  if f.ref then (f, n)
  else
    let f := { f with ref := true }
    if f.closing then (f, n)
    else (f, if f.active then activeHandleAdd n else n)

/-- mirrors uv-common.h:295-303 -/
def handleUnref (f : Flags) (n : ℕ) : Flags × ℕ :=
  if f.ref = false then (f, n)
  else
    let f := { f with ref := false }
    if f.closing then (f, n)
    else (f, if f.active then activeHandleRm n else n)

/-- `uv_close` up to `uv__make_close_pending`; the close routine of each type stops the
handle.
mirrors unix/core.c:114-184 -/
def close (f : Flags) (n : ℕ) : Flags × ℕ := handleStop { f with closing := true } n

/-- `uv__finish_close` behind the part that depends on the type.
mirrors unix/core.c:249-290 -/
def finishClose (f : Flags) (n : ℕ) : Flags × ℕ := handleUnref { f with closed := true } n

@[simp] theorem handleStart_active (f : Flags) (n : ℕ) : (handleStart f n).1.active = true := by
  unfold handleStart
  split
  · assumption
  · rfl

@[simp] theorem handleStop_active (f : Flags) (n : ℕ) : (handleStop f n).1.active = false := by
  unfold handleStop
  split
  · assumption
  · rfl

@[simp] theorem handleStart_isClosing (f : Flags) (n : ℕ) : (handleStart f n).1.isClosing = f.isClosing := by
  unfold handleStart
  split <;> rfl

@[simp] theorem handleStop_isClosing (f : Flags) (n : ℕ) : (handleStop f n).1.isClosing = f.isClosing := by
  unfold handleStop
  split <;> rfl

@[simp] theorem finishClose_active (f : Flags) (n : ℕ) : (finishClose f n).1.active = f.active := by
  unfold finishClose handleUnref
  split
  · rfl
  · dsimp only
    split <;> rfl

structure Loop where
  handles : List Flags
  activeHandles : ℕ
  deriving DecidableEq

inductive Label
  | init
  | start (i : ℕ)
  | stop (i : ℕ)
  | ref (i : ℕ)
  | unref (i : ℕ)
  | close (i : ℕ)
  | finishClose (i : ℕ)
  deriving DecidableEq

/-- A macro on the handle `i`, which `guard` lets through. -/
def Loop.on (s : Loop) (i : ℕ) (guard : Flags → Bool) (macro' : Flags → ℕ → Flags × ℕ) : Option Loop :=
  match s.handles[i]? with
  | none => none
  | some f =>
    if guard f then
      let (f, n) := macro' f s.activeHandles
      some ⟨s.handles.set i f, n⟩
    else none

/-- No handle that is closing is started; the assertions of `uv_close` and
`uv__finish_close` hold. -/
def step (s : Loop) : Label → Option Loop
  | .init => some { s with handles := s.handles ++ [handleInit] }
  | .start i => s.on i (fun f => !f.isClosing) handleStart
  | .stop i => s.on i (fun _ => true) handleStop
  | .ref i => s.on i (fun _ => true) handleRef
  | .unref i => s.on i (fun _ => true) handleUnref
  | .close i => s.on i (fun f => !f.isClosing) close
  | .finishClose i => s.on i (fun f => f.closing && !f.closed) finishClose

def system : LTS Loop Label where
  init s := s = ⟨[], 0⟩
  step s l t := step s l = some t

/-! ## The count -/

def Flags.counted (f : Flags) : Bool := f.active && f.ref

def Flags.weight (f : Flags) : ℕ := if f.counted then 1 else 0

def Flags.Stopped (f : Flags) : Prop := f.closing = true → f.active = false

/-- What a macro does to the counter is what it does to the handle's weight. -/
structure Balanced (f f' : Flags) (n n' : ℕ) : Prop where
  stopped : f'.Stopped
  count : (n' + f.weight) % uintMax = (n + f'.weight) % uintMax
  range : n < uintMax → n' < uintMax

theorem balanced_same {f f' : Flags} {n : ℕ} (hs : f'.Stopped) (hw : f'.weight = f.weight) :
    Balanced f f' n n := ⟨hs, by rw [hw], id⟩

theorem balanced_add {f f' : Flags} {n : ℕ} (hs : f'.Stopped) (h0 : f.weight = 0) (h1 : f'.weight = 1) :
    Balanced f f' n (activeHandleAdd n) := by
  refine ⟨hs, ?_, fun _ => Nat.mod_lt _ (by decide)⟩
  rw [h0, h1, activeHandleAdd, Nat.add_zero, Nat.mod_mod]

theorem balanced_rm {f f' : Flags} {n : ℕ} (hs : f'.Stopped) (h1 : f.weight = 1) (h0 : f'.weight = 0) :
    Balanced f f' n (activeHandleRm n) := by
  refine ⟨hs, ?_, fun _ => Nat.mod_lt _ (by decide)⟩
  have hw : n + (uintMax - 1) + 1 = n + uintMax := by unfold uintMax; omega
  rw [h0, h1, activeHandleRm, Nat.mod_add_mod, hw, Nat.add_mod_right, Nat.add_zero]

section Macros
variable {f : Flags} {n : ℕ}

theorem handleStart_balanced (hs : f.isClosing = false) : Balanced f (handleStart f n).1 n (handleStart f n).2 := by
  have hc : f.closing = false := by
    exact (Bool.or_eq_false_iff.1 hs).1
  have hs' : ∀ a, ({ f with active := a } : Flags).Stopped := fun a h => absurd h (by simp [hc])
  unfold handleStart
  split
  · exact balanced_same (fun h => absurd h (by simp [hc])) rfl
  · next ha =>
    dsimp only
    split
    · next hr => exact balanced_add (hs' true) (by simp [Flags.weight, Flags.counted, ha]) (by simp [Flags.weight, Flags.counted, hr])
    · next hr => exact balanced_same (hs' true) (by simp [Flags.weight, Flags.counted, hr])

theorem handleStop_balanced : Balanced f (handleStop f n).1 n (handleStop f n).2 := by
  unfold handleStop
  split
  · next ha => exact balanced_same (fun _ => ha) rfl
  · next ha =>
    dsimp only
    split
    · next hr =>
      exact balanced_rm (fun _ => rfl) (by simp_all [Flags.weight, Flags.counted]) (by simp [Flags.weight, Flags.counted])
    · next hr => exact balanced_same (fun _ => rfl) (by simp [Flags.weight, Flags.counted, hr])

theorem handleRef_balanced (hs : f.Stopped) : Balanced f (handleRef f n).1 n (handleRef f n).2 := by
  unfold handleRef
  split
  · exact balanced_same hs rfl
  · next hr =>
    dsimp only
    split
    · next hc => exact balanced_same hs (by simp [Flags.weight, Flags.counted, hs hc])
    · next hc =>
      split
      · next ha =>
        exact balanced_add hs (by simp [Flags.weight, Flags.counted, hr]) (by simp [Flags.weight, Flags.counted, ha])
      · next ha => exact balanced_same hs (by simp [Flags.weight, Flags.counted, ha])

theorem handleUnref_balanced (hs : f.Stopped) : Balanced f (handleUnref f n).1 n (handleUnref f n).2 := by
  unfold handleUnref
  split
  · exact balanced_same hs rfl
  · next hr =>
    dsimp only
    split
    · next hc => exact balanced_same hs (by simp [Flags.weight, Flags.counted, hs hc])
    · next hc =>
      split
      · next ha =>
        exact balanced_rm hs (by simp_all [Flags.weight, Flags.counted]) (by simp [Flags.weight, Flags.counted])
      · next ha => exact balanced_same hs (by simp [Flags.weight, Flags.counted, ha])

theorem close_balanced : Balanced f (close f n).1 n (close f n).2 :=
  have h : Balanced { f with closing := true } _ n _ := handleStop_balanced
  ⟨h.stopped, h.count, h.range⟩

theorem finishClose_balanced (hs : f.Stopped) : Balanced f (finishClose f n).1 n (finishClose f n).2 :=
  have h : Balanced { f with closed := true } _ n _ := handleUnref_balanced hs
  ⟨h.stopped, h.count, h.range⟩

end Macros

/-! ## Runs -/

structure Counted (s : Loop) : Prop where
  stopped : ∀ f ∈ s.handles, f.Stopped
  count : s.activeHandles = s.handles.countP Flags.counted % uintMax

theorem recount {n n' c w w' : ℕ} (h : (n' + w) % uintMax = (n + w') % uintMax) (hn : n = c % uintMax)
    (hr : n' < uintMax) (hw : w ≤ c) : n' = (c - w + w') % uintMax := by
  unfold uintMax at *
  omega

theorem Counted.on {s t : Loop} {i : ℕ} {guard : Flags → Bool} {m : Flags → ℕ → Flags × ℕ} (hs : Counted s)
    (hm : ∀ f n, f.Stopped → guard f = true → Balanced f (m f n).1 n (m f n).2)
    (h : s.on i guard m = some t) : Counted t := by
  unfold Loop.on at h
  cases hf : s.handles[i]? with
  | none => rw [hf] at h; cases h
  | some f =>
    rw [hf] at h
    dsimp only at h
    split at h
    · next hg =>
      cases h
      obtain ⟨hi, rfl⟩ := List.getElem?_eq_some_iff.1 hf
      have hb := hm _ s.activeHandles (hs.stopped _ (List.getElem_mem hi)) hg
      refine ⟨fun g hg => ?_, ?_⟩
      · rcases List.mem_or_eq_of_mem_set hg with h | rfl
        · exact hs.stopped g h
        · exact hb.stopped
      · have hle : s.handles[i].weight ≤ s.handles.countP Flags.counted := by
          unfold Flags.weight
          split
          · exact List.countP_pos_iff.2 ⟨_, List.getElem_mem hi, ‹_›⟩
          · exact Nat.zero_le _
        rw [List.countP_set hi]
        exact recount hb.count hs.count (hb.range (hs.count ▸ Nat.mod_lt _ (by decide))) hle
    · cases h

theorem counted_inductive : system.Inductive Counted where
  init := by
    intro s hs
    subst hs
    exact ⟨nofun, rfl⟩
  step := by
    intro s l t hs h
    cases l with
    | init =>
      cases h
      refine ⟨fun f hf => ?_, ?_⟩
      · rcases List.mem_append.1 hf with h | h
        · exact hs.stopped f h
        · rw [List.mem_singleton.1 h]
          exact nofun
      · rw [List.countP_append]
        exact hs.count
    | start i => exact hs.on (fun f n _ hg => handleStart_balanced (by simpa using hg)) h
    | stop i => exact hs.on (fun f n _ _ => handleStop_balanced) h
    | ref i => exact hs.on (fun f n hf _ => handleRef_balanced hf) h
    | unref i => exact hs.on (fun f n hf _ => handleUnref_balanced hf) h
    | close i => exact hs.on (fun f n _ _ => close_balanced) h
    | finishClose i => exact hs.on (fun f n hf _ => finishClose_balanced hf) h

/-- **The liveness counter.** Whatever is done to the handles of a loop, `active_handles`
is the number of handles that are active and referenced, as far as an `unsigned int` can
tell. -/
theorem active_handles_count {s : Loop} (h : system.Reachable s) :
    s.activeHandles = s.handles.countP Flags.counted % uintMax ∧
      (s.handles.countP Flags.counted < uintMax → s.activeHandles = s.handles.countP Flags.counted) := by
  have hc := (counted_inductive.reachable h).count
  exact ⟨hc, fun hlt => hc.trans (Nat.mod_eq_of_lt hlt)⟩

/-- A handle is started, closed, referenced again while it is closing, and finished, beside
one that stays active. -/
theorem active_handles_count_two : ∃ s : Loop, s.activeHandles = 1 ∧ s.activeHandles = s.handles.countP Flags.counted := by
  have h : system.Reachable ⟨[⟨true, true, false, false⟩, ⟨false, false, true, true⟩], 1⟩ :=
    (LTS.Reachable.init rfl : system.Reachable ⟨[], 0⟩).foldlM (fun _ _ _ h => h)
      (w := [.init, .start 0, .init, .start 1, .unref 0, .close 0, .ref 0, .finishClose 0]) (by decide)
  exact ⟨_, rfl, (active_handles_count h).2 (by decide)⟩

theorem reachable_replicate (n : ℕ) : system.Reachable ⟨List.replicate n ⟨false, false, true, true⟩, n % uintMax⟩ := by
  induction n with
  | zero => exact .init rfl
  | succ n ih =>
    have hinit (s : Loop) : system.step s .init { s with handles := s.handles ++ [handleInit] } := rfl
    refine (ih.step (hinit _)).step (l := .start n) ?_
    have hget : (List.replicate n (⟨false, false, true, true⟩ : Flags) ++ [handleInit])[n]? = some handleInit := by
      simp
    have hset : (List.replicate n (⟨false, false, true, true⟩ : Flags) ++ [handleInit]).set n
        ⟨false, false, true, true⟩ = List.replicate (n + 1) ⟨false, false, true, true⟩ := by
      rw [List.replicate_succ']
      simp
    have hadd : activeHandleAdd (n % uintMax) = (n + 1) % uintMax := Nat.mod_add_mod _ _ _
    change step _ (.start n) = some _
    simp only [step, Loop.on, hget]
    rw [← hset, ← hadd]
    rfl

/-- **`active_handles` wraps**: 2^32 active handles count as none. -/
theorem counter_wraps : ¬ ∀ s, system.Reachable s → s.activeHandles = s.handles.countP Flags.counted := by
  intro hall
  have h := hall _ (reachable_replicate uintMax)
  rw [List.countP_replicate] at h
  exact absurd h (by decide)

end Libuv.L2.Handle
