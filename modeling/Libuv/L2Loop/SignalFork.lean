import Libuv.L2Loop.SignalAccounting

/-!
# Signal watchers in the child of a `fork`

`uv_loop_fork` gives the loop a new signal pipe. What was in the old one is gone, but the counters of the handles still count
it, and `uv__finish_close` waits for `dispatched_signals` to reach `caught_signals`.

The system is that of `Signal`. The user's code in the loop `L` calls `uv_loop_fork`; the messages that `uv__signal_event` has
read by then are still dispatched (`settled`). From there on no signal arrives. A `pass` is `uv__run_closing_handles` with
close callbacks that call nothing.

* `Forked`: what holds of a handle of the loop from the fork on.
* `fork_closes_iff`: a handle that is closed is let go by the next pass, or by no pass and in no run: it is if and only if its
  counters will have met without the old pipe.
* `fork_never_closes`: one signal that was caught and not read before the fork.
-/
namespace Libuv.L2.Signal

open List Function

/-! ## The source -/

/-- The new pipe is empty; the counters are left alone.
mirrors unix/signal.c:295-302 -/
def loopFork (s : State) (L : ℕ) : State := { s with pipe := Function.update s.pipe L [] }

/-- mirrors unix/core.c:301-313 -/
def pass (L : ℕ) (s : State) : State :=
  (s.closingHandles L).foldl finishClose { s with closingHandles := Function.update s.closingHandles L [] }

/-- `dispatched_signals` of `h` when the messages to it that the loop has read are dispatched. -/
def settled (s : State) (L h : ℕ) : ℕ :=
  (fun d => u32 (d + 1))^[msgsTo h (s.pc L).msgs] (s.handles h).dispatchedSignals

section Pass
variable {valid : ℤ → Bool} {s : State} {L h x : ℕ}

theorem finishClose_handles (s : State) (x h : ℕ) : (finishClose s x).handles h =
    if x = h ∧ ¬(s.handles h).dispatchedSignals < (s.handles h).caughtSignals then { s.handles h with live := false }
    else s.handles h := by
  unfold finishClose
  dsimp only
  by_cases hx : x = h
  · subst hx
    split <;> simp [*]
  · rw [if_neg (c := x = h ∧ _) fun hc => hx hc.1]
    split
    · rfl
    · exact update_of_ne (Ne.symm hx) ..

theorem foldl_finishClose_handles (p : List ℕ) (s : State) (h : ℕ) : (p.foldl finishClose s).handles h =
    if h ∈ p ∧ ¬(s.handles h).dispatchedSignals < (s.handles h).caughtSignals then { s.handles h with live := false }
    else s.handles h := by
  induction p generalizing s with
  | nil => simp
  | cons x p ih =>
    simp only [foldl_cons, ih, finishClose_handles, mem_cons]
    by_cases hd : (s.handles h).dispatchedSignals < (s.handles h).caughtSignals
    · simp [hd]
    · by_cases hx : x = h
      · subst hx
        simp [hd]
      · simp [hd, hx, Ne.symm hx]

theorem pass_handles (L : ℕ) (s : State) (h : ℕ) : (pass L s).handles h =
    if h ∈ s.closingHandles L ∧ ¬(s.handles h).dispatchedSignals < (s.handles h).caughtSignals then
      { s.handles h with live := false }
    else s.handles h := foldl_finishClose_handles ..

end Pass

/-! ## Closing handles are queued -/

/-- A handle for which `uv_close` was called waits for `uv__finish_close` until its `close_cb` is called. -/
def Queued (s : State) : Prop :=
  ∀ h, (s.handles h).live = true → (s.handles h).closing = true → h ∈ closings s (s.handles h).loop

section Queued
variable {valid : ℤ → Bool} {s t : State} {L h : ℕ} {l : Label}

theorem Queued.keep (hs : Queued s) (hk : ∀ x, (t.handles x).live = (s.handles x).live ∧ (t.handles x).loop = (s.handles x).loop ∧
    (t.handles x).closing = (s.handles x).closing) (hc : ∀ M, closings t M = closings s M) : Queued t := by
  intro x hl hx
  obtain ⟨h1, h2, h3⟩ := hk x
  rw [hc, h2]
  exact hs x (h1 ▸ hl) (h3 ▸ hx)

theorem closings_setPc {pc : Pc} (hp : t.pc = s.pc) (hq : t.closingHandles = s.closingHandles) (hc : pc.closings = (s.pc L).closings)
    (M : ℕ) : closings (t.setPc L pc) M = closings s M := by
  rcases eq_or_ne M L with rfl | hM
  · simp [closings, hc, hq]
  · simp [closings, hM, hp, hq]

theorem closings_congr (hp : t.pc = s.pc) (hq : t.closingHandles = s.closingHandles) (M : ℕ) : closings t M = closings s M := by
  rw [closings, closings, hp, hq]

theorem startLocked_same (valid : ℤ → Bool) (s : State) (h cb : ℕ) (n : ℤ) (b : Bool) (x : ℕ) :
    let t := startLocked valid s h cb n b
    (t.handles x).live = (s.handles x).live ∧ (t.handles x).loop = (s.handles x).loop ∧
      (t.handles x).closing = (s.handles x).closing := by
  rcases eq_or_ne x h with rfl | hx
  · exact (startLocked_self valid s x cb n b).2
  · dsimp only
    rw [((startLocked_frame valid s h cb n b).2.2.2 x hx).1]
    exact ⟨rfl, rfl, rfl⟩

theorem Keeps.same {x : ℕ} (h : Keeps s t x) : (t.handles x).live = (s.handles x).live ∧
    (t.handles x).loop = (s.handles x).loop ∧ (t.handles x).closing = (s.handles x).closing := ⟨h.live, h.loop, h.closing⟩

theorem Queued.close (hs : Queued s) : Queued (close s h) := by
  obtain ⟨-, hpc, -, hcl⟩ := close_frame (s := s) h
  intro x hl hx
  have hloop : ((Signal.close s h).handles x).loop = (s.handles x).loop := by
    rcases eq_or_ne x h with rfl | hne
    · simp [close_handles]
    · simp [close_handles, hne]
  rw [hloop, closings, hpc, hcl]
  refine mem_append.2 ?_
  rcases eq_or_ne x h with rfl | hne
  · exact .inr (by simp)
  · rw [close_handles, update_of_ne hne] at hl hx
    obtain hm | hm := mem_append.1 (hs x hl hx)
    · exact .inl hm
    · refine .inr ?_
      rw [update_apply]
      split
      · next he => exact mem_cons_of_mem _ (he ▸ hm)
      · exact hm

theorem Queued.finishClose (hs : Queued s) (hc : Closes s L h) {p : List ℕ} (hp : s.pc L = .closing (h :: p)) :
    Queued ((finishClose s h).setPc L (.closing p)) := by
  have hold : closings s L = h :: (p ++ s.closingHandles L) := by simp [closings, hp, Pc.closings]
  unfold Signal.finishClose
  dsimp only
  split
  · intro x hl hx
    have hm := hs x hl hx
    simp only [setPc_handles]
    rcases eq_or_ne (s.handles x).loop L with hL | hL
    · rw [hL, hold, mem_cons, mem_append] at hm
      simp only [closings, setPc_pc, update_self, Pc.closings, setPc_closingHandles, hc.loop, hL, mem_append,
        mem_cons]
      exact hm.elim (fun h => .inr (.inl h)) fun h => h.imp id .inr
    · simpa [closings, hL, hc.loop] using hm
  · intro x hl hx
    rcases eq_or_ne x h with rfl | hne
    · simp at hl
    · simp only [setPc_handles, put_handles, update_of_ne hne] at hl hx ⊢
      have hm := hs x hl hx
      rcases eq_or_ne (s.handles x).loop L with hL | hL
      · rw [hL, hold, mem_cons] at hm
        rw [hL]
        simpa [closings, Pc.closings] using hm.resolve_left hne
      · simpa [closings, hL] using hm

theorem Queued.step (hw : Wf s) (hs : Queued s) (ht : step valid s l = some t) : Queued t := by
  cases step_cases ht with
  | @init L y =>
    intro x hl hx
    rcases eq_or_ne x y with rfl | hne
    · simp [signalInit] at hx
    · simp only [signalInit, put_handles, update_of_ne hne] at hl hx ⊢
      exact hs x hl hx
  | zero => exact hs
  | @again h =>
    refine hs.keep (fun x => ?_) (closings_congr rfl rfl)
    rcases eq_or_ne x h with rfl | hne <;> simp [*]
  | @restart h =>
    obtain ⟨-, hpc, hcl, -⟩ := signalStop_frame (s := s) h
    exact hs.keep (fun x => (signalStop_keeps s h x).1.same) (closings_setPc hpc hcl rfl)
  | @start h cb n b =>
    obtain ⟨hpc, -, hcl, -⟩ := startLocked_frame valid s h cb n b
    exact hs.keep (startLocked_same valid s h cb n b) (closings_congr hpc hcl)
  | @lock L h cb n b back hp =>
    obtain ⟨hpc, -, hcl, -⟩ := startLocked_frame valid s h cb n b
    exact hs.keep (startLocked_same valid s h cb n b) (closings_setPc hpc hcl (by rw [hp]; rfl))
  | @stop h =>
    obtain ⟨-, hpc, hcl, -⟩ := signalStop_frame (s := s) h
    exact hs.keep (fun x => (signalStop_keeps s _ x).1.same) (closings_congr hpc hcl)
  | @close h => exact (hs.close : Queued (Signal.close s h))
  | @signal n ok =>
    obtain ⟨-, hpc, hcl⟩ := arrive_frame (s := s) n ok
    exact hs.keep (fun x => (arrive_keeps hw.tree n ok x).1.same) (closings_congr hpc hcl)
  | @read L n hp =>
    have hnone : (s.pc L).closings = [] := by
      rcases hp with e | e <;> rw [e] <;> rfl
    exact hs.keep (fun _ => ⟨rfl, rfl, rfl⟩) (closings_setPc (s := s) rfl rfl hnone.symm)
  | drained hp | closed hp => exact hs.keep (fun _ => ⟨rfl, rfl, rfl⟩) (closings_setPc rfl rfl (by rw [hp]; rfl))
  | pick hp =>
    refine hs.keep (fun _ => ?_) (closings_setPc ?_ ?_ (by rw [hp]; rfl)) <;> split_ifs
    all_goals first | rfl | exact ⟨rfl, rfl, rfl⟩
  | @complete L m _ _ _ hp =>
    obtain ⟨-, hpc, hcl, -⟩ := complete_frame (s := s) m.handle
    exact hs.keep (fun x => (complete_keeps s m.handle x).1.same) (closings_setPc hpc hcl (by rw [hp]; rfl))
  | next hp =>
    refine hs.keep (fun _ => ⟨rfl, rfl, rfl⟩) (closings_setPc rfl rfl ?_)
    rw [hp]
    split_ifs <;> rfl
  | @runClosing L hp =>
    refine hs.keep (fun _ => ⟨rfl, rfl, rfl⟩) fun M => ?_
    rcases eq_or_ne M L with rfl | hM
    · simp [closings, Pc.closings, hp]
    · simp [closings, hM]
  | finishClose hp => exact hs.finishClose (hw.closes_head hp).2.1 hp

theorem queued : (system valid).Inductive fun s => Wf s ∧ Queued s :=
  wf.with_ (fun s hs => by subst hs; exact fun h hl => by cases hl) fun _ _ _ hw hq h => hq.step hw h

end Queued

/-! ## After the fork -/

/-- From the fork on: the messages to `h` that are left have been read by its loop, and the counters go where they were going.
With `n < c` the handle waits for a message that does not come. -/
structure Forked (L h c n : ℕ) (s : State) : Prop where
  pipe : ∀ M, msgsTo h (s.pipe M) = 0
  away : ∀ M, M ≠ L → msgsTo h (s.pc M).msgs = 0
  caught : (s.handles h).caughtSignals = c
  settled : settled s L h = n
  live : n < c → (s.handles h).live = true
  loop : (s.handles h).loop = L

section Forked
variable {valid : ℤ → Bool} {s t : State} {L M h x c n : ℕ} {l : Label}

theorem msgsTo_append (h : ℕ) (a b : List Msg) : msgsTo h (a ++ b) = msgsTo h a + msgsTo h b := countP_append

theorem Forked.keep (hs : Forked L h c n s) (hp : ∀ M, (t.pc M).msgs = (s.pc M).msgs) (hq : t.pipe = s.pipe) (hk : Still s t h) :
    Forked L h c n t where
  pipe M := by rw [hq]; exact hs.pipe M
  away M hM := by rw [hp]; exact hs.away M hM
  caught := hk.caught.trans hs.caught
  settled := by rw [Signal.settled, hp, hk.dispatched]; exact hs.settled
  live hlt := hk.live.trans (hs.live hlt)
  loop := hk.loop.trans hs.loop

theorem msgs_setPc {pc : Pc} (hp : t.pc = s.pc) (hm : pc.msgs = (s.pc L).msgs) (M : ℕ) :
    ((t.setPc L pc).pc M).msgs = (s.pc M).msgs := by
  rcases eq_or_ne M L with rfl | hM
  · simp [hm]
  · simp [hM, hp]

theorem Forked.read (hs : Forked L h c n s) {k : ℕ} (hp : (s.pc M).msgs = []) (b : Bool) :
    Forked L h c n (State.setPc { s with pipe := update s.pipe M ((s.pipe M).drop k) } M
      (.messages ((s.pipe M).take k) b)) := by
  have htake : msgsTo h ((s.pipe M).take k) = 0 ∧ msgsTo h ((s.pipe M).drop k) = 0 := by
    have := hs.pipe M
    rw [← take_append_drop k (s.pipe M), msgsTo_append] at this
    omega
  have hmsgs : ∀ N, msgsTo h ((State.setPc { s with pipe := update s.pipe M ((s.pipe M).drop k) } M
      (.messages ((s.pipe M).take k) b)).pc N).msgs = msgsTo h (s.pc N).msgs := fun N => by
    rcases eq_or_ne N M with rfl | hN
    · simp only [setPc_pc, update_self, Pc.msgs, htake.1, hp]
      rfl
    · simp [hN]
  refine ⟨fun N => ?_, fun N hN => (hmsgs N).trans (hs.away N hN), hs.caught, ?_, hs.live, hs.loop⟩
  · rcases eq_or_ne N M with rfl | hN
    · simpa using htake.2
    · simpa [hN] using hs.pipe N
  · rw [Signal.settled, hmsgs]
    exact hs.settled

theorem Forked.complete (hs : Forked L h c n s) {m : Msg} {msgs : List Msg} {full called : Bool}
    (hp : s.pc M = .handled m msgs full called) : Forked L h c n ((complete s m.handle).setPc M (.messages msgs full)) := by
  obtain ⟨hpipe, hpc, -, -⟩ := complete_frame (s := s) m.handle
  have hold : msgsTo h (s.pc M).msgs = msgsTo h msgs + if m.handle = h then 1 else 0 := by
    rw [hp]
    by_cases e : m.handle = h <;> simp [Pc.msgs, msgsTo, e]
  have hnew : ∀ N, ((Signal.complete s m.handle).setPc M (.messages msgs full)).pc N =
      if N = M then .messages msgs full else s.pc N := fun N => by
    rw [setPc_pc, update_apply, hpc]
  refine ⟨fun N => by rw [setPc_pipe, hpipe]; exact hs.pipe N, fun N hN => ?_, ?_, ?_, fun hlt => ?_, ?_⟩
  · rw [hnew]
    split
    · next e =>
      subst e
      have := hs.away N hN
      rw [hold] at this
      exact (Nat.add_eq_zero_iff.1 this).1
    · exact hs.away N hN
  · rw [← hs.caught]
    rcases eq_or_ne h m.handle with rfl | hne <;> simp [complete_handles, *]
  · rw [← hs.settled, Signal.settled, Signal.settled, hnew]
    rcases eq_or_ne M L with rfl | hM
    · rw [hold]
      rcases eq_or_ne m.handle h with rfl | hne
      · simp [complete_handles, Pc.msgs]
      · rw [if_neg hne]
        simp [complete_handles, Pc.msgs, hne.symm]
    · have hne : m.handle ≠ h := fun e => by
        have := hs.away M hM
        rw [hold, if_pos e] at this
        omega
      rw [if_neg (Ne.symm hM)]
      simp [complete_handles, hne.symm]
  · rw [← hs.live hlt]
    rcases eq_or_ne h m.handle with rfl | hne <;> simp [complete_handles, *]
  · rw [← hs.loop]
    rcases eq_or_ne h m.handle with rfl | hne <;> simp [complete_handles, *]

theorem Forked.finishClose (hs : Forked L h c n s) (hc : Closes s M x) {p : List ℕ} (hp : s.pc M = .closing (x :: p)) :
    Forked L h c n ((finishClose s x).setPc M (.closing p)) := by
  have hmsgs : ∀ N, (((Signal.finishClose s x).setPc M (.closing p)).pc N).msgs = (s.pc N).msgs := by
    refine msgs_setPc ?_ (by rw [hp]; rfl)
    unfold Signal.finishClose
    dsimp only
    split <;> rfl
  have hpipe : (Signal.finishClose s x).pipe = s.pipe := by
    unfold Signal.finishClose
    dsimp only
    split <;> rfl
  have hh := finishClose_handles s x h
  refine ⟨fun N => by rw [setPc_pipe, hpipe]; exact hs.pipe N, fun N hN => by rw [hmsgs]; exact hs.away N hN, ?_, ?_,
    fun hlt => ?_, ?_⟩
  · rw [setPc_handles, hh, ← hs.caught]
    split_ifs <;> rfl
  · rw [Signal.settled, hmsgs, setPc_handles, hh, ← hs.settled]
    split_ifs <;> rfl
  · rw [setPc_handles, hh]
    split_ifs with hx
    · -- it is the head, and nothing that is read is left for it
      obtain ⟨rfl, hle⟩ := hx
      have hML : M = L := hc.loop.symm.trans hs.loop
      have hset := hs.settled
      rw [Signal.settled, ← hML, hp] at hset
      change (s.handles x).dispatchedSignals = n at hset
      rw [hset, hs.caught] at hle
      exact absurd hlt hle
    · exact hs.live hlt
  · rw [setPc_handles, hh, ← hs.loop]
    split_ifs <;> rfl

theorem Forked.step (hw : Wf s) (hs : Forked L h c n s) (hsig : l.isSignal = false) (hinit : ∀ M, l ≠ .init M h)
    (ht : step valid s l = some t) : Forked L h c n t := by
  cases step_cases ht with
  | @init M y =>
    have hne : h ≠ y := fun e => hinit M (e ▸ rfl)
    exact hs.keep (fun _ => rfl) rfl (.of_eq (update_of_ne hne ..))
  | zero => exact hs
  | @again y cb => exact hs.keep (fun _ => rfl) rfl ((again_still s y cb h).congr rfl)
  | @restart y =>
    obtain ⟨hpipe, hpc, -, -⟩ := signalStop_frame (s := s) y
    exact hs.keep (msgs_setPc hpc rfl) hpipe ((signalStop_still s y h).congr rfl)
  | @start y cb m b =>
    obtain ⟨hpc, hpipe, -, -⟩ := startLocked_frame valid s y cb m b
    exact hs.keep (fun M => by rw [hpc]) hpipe (startLocked_still valid s y cb m b h)
  | @lock M y cb m b back hp =>
    obtain ⟨hpc, hpipe, -, -⟩ := startLocked_frame valid s y cb m b
    exact hs.keep (msgs_setPc hpc (by rw [hp]; rfl)) hpipe ((startLocked_still valid s y cb m b h).congr rfl)
  | @stop y =>
    obtain ⟨hpipe, hpc, -, -⟩ := signalStop_frame (s := s) y
    exact hs.keep (fun M => congrArg Pc.msgs (congrFun hpc M)) hpipe ((signalStop_still s y h).congr rfl)
  | @close y =>
    obtain ⟨hpipe, hpc, -, -⟩ := close_frame (s := s) y
    exact hs.keep (fun M => congrArg Pc.msgs (congrFun hpc M)) hpipe ((close_still s y h).congr rfl)
  | signal => cases hsig
  | read hp => exact hs.read (by rcases hp with e | e <;> rw [e] <;> rfl) _
  | drained hp | runClosing hp | closed hp => exact hs.keep (msgs_setPc rfl (by rw [hp]; rfl)) rfl (.of_eq rfl)
  | pick hp => refine hs.keep (msgs_setPc ?_ (by rw [hp]; rfl)) ?_ (.of_eq ?_) <;> split_ifs <;> rfl
  | complete hp => exact hs.complete hp
  | next hp =>
    refine hs.keep (msgs_setPc rfl ?_) rfl (.of_eq rfl)
    rw [hp]
    split_ifs <;> rfl
  | finishClose hp => exact hs.finishClose (hw.closes_head hp).2.1 hp

theorem outstanding_loopFork (s : State) (L : ℕ) : ∀ M, ∀ m ∈ outstanding (loopFork s L) M, m ∈ outstanding s M := by
  intro M m hm
  rcases eq_or_ne M L with rfl | hM
  · exact mem_append_left _ (by simpa [outstanding, loopFork] using hm)
  · simpa [outstanding, loopFork, hM] using hm

theorem loopFork_wf (hw : Wf s) (hc : (s.pc L).Calls) : Wf (loopFork s L) :=
  hw.quiet (L := L) rfl rfl (fun _ => rfl) (fun _ _ => rfl) (fun y cb m b back hp => by
    have hp : s.pc L = .starting y cb m b back := hp
    rw [hp] at hc
    exact hc) (fun _ => rfl) (outstanding_loopFork s L)

/-- At the fork, if the messages to `h` are where the handler writes them. -/
theorem loopFork_forked (hlive : (s.handles h).live = true) (hloop : (s.handles h).loop = L)
    (haway : ∀ M, M ≠ L → msgsTo h (outstanding s M) = 0) :
    Forked L h (s.handles h).caughtSignals (Signal.settled s L h) (loopFork s L) := by
  have hsplit : ∀ M, M ≠ L → msgsTo h (s.pc M).msgs = 0 ∧ msgsTo h (s.pipe M) = 0 := fun M hM => by
    have := haway M hM
    rw [outstanding, msgsTo_append] at this
    omega
  refine ⟨fun M => ?_, fun M hM => (hsplit M hM).1, rfl, rfl, fun _ => hlive, hloop⟩
  rcases eq_or_ne M L with rfl | hM
  · simp [loopFork, msgsTo]
  · simpa [loopFork, hM] using (hsplit M hM).2

theorem Forked.run (hw : Wf s) (hq : Queued s) (hs : Forked L h c n s) {ls : List Label} (hr : (system valid).Run s ls t)
    (hsig : ∀ l ∈ ls, l.isSignal = false) (hinit : ∀ M, .init M h ∉ ls) : Queued t ∧ Forked L h c n t := by
  suffices Wf t ∧ Queued t ∧ Forked L h c n t from this.2
  induction hr with
  | nil => exact ⟨hw, hq, hs⟩
  | snoc _ hstep ih =>
    obtain ⟨hw', hq', hs'⟩ := ih (fun l hl => hsig l (mem_append_left _ hl)) fun M hM =>
      hinit M (mem_append_left _ hM)
    exact ⟨hw'.step hstep, hq'.step hw' hstep, hs'.step hw' (hsig _ (by simp)) (fun M e => hinit M (by simp [e])) hstep⟩

theorem pass_live_iff (hs : Forked L h c n s) (hq : Queued s) (hclosing : (s.handles h).closing = true) (hp : s.pc L = .idle) :
    (∃ k, (((pass L)^[k] s).handles h).live = false) ↔ ¬ n < c := by
  have hset : (s.handles h).dispatchedSignals = n := by
    have := hs.settled
    rw [Signal.settled, hp] at this
    exact this
  constructor
  · intro hex hlt
    obtain ⟨k, hk⟩ := hex
    have hsame : ∀ k, ((pass L)^[k] s).handles h = s.handles h := fun k => by
      induction k with
      | zero => rfl
      | succ k ih =>
        rw [iterate_succ_apply', pass_handles, ih, if_neg]
        exact fun hc => hc.2 (by rw [hset, hs.caught]; exact hlt)
    rw [hsame, hs.live hlt] at hk
    cases hk
  · intro hle
    cases hl : (s.handles h).live with
    | false => exact ⟨0, hl⟩
    | true =>
      have hm := hq h hl hclosing
      rw [hs.loop, closings, hp] at hm
      refine ⟨1, ?_⟩
      rw [iterate_one, pass_handles, if_pos ⟨hm, by rw [hset, hs.caught]; exact hle⟩]

/-- A handle of a loop that forks, and that is closed in the course of any run without further signals, is let go after some
number of passes exactly when its counters meet once the messages read before the fork are dispatched. The messages to it
are in the pipe of its loop, as they are unless 2^32 signals have arrived. -/
theorem fork_closes_iff {ls ls' : List Label} {u : State} (hs : (system valid).History ls s) (hcalls : (s.pc L).Calls)
    (hlive : (s.handles h).live = true) (hloop : (s.handles h).loop = L)
    (haway : ∀ M, M ≠ L → msgsTo h (outstanding s M) = 0) (hrun : (system valid).Run (loopFork s L) ls' u)
    (hsig : ∀ l ∈ ls', l.isSignal = false) (hinit : ∀ M, .init M h ∉ ls') (hclosing : (u.handles h).closing = true)
    (hidle : u.pc L = .idle) :
    (∃ k, (((pass L)^[k] u).handles h).live = false) ↔ ¬ settled s L h < (s.handles h).caughtSignals := by
  obtain ⟨hw, hq⟩ := queued.trace.run hs
  have hqf : Queued (loopFork s L) := hq.keep (fun _ => ⟨rfl, rfl, rfl⟩) fun _ => rfl
  obtain ⟨hqu, hfu⟩ := (loopFork_forked hlive hloop haway).run (loopFork_wf hw hcalls) hqf hrun hsig hinit
  exact pass_live_iff hfu hqu hclosing hidle

theorem u32_iterate {d k : ℕ} (h : d + k < 2 ^ 32) : (fun d => u32 (d + 1))^[k] d = d + k := by
  induction k with
  | zero => rfl
  | succ k ih =>
    rw [iterate_succ_apply', ih (by omega)]
    exact Nat.mod_eq_of_lt (by omega)

/-- With fewer than 2^32 signals the messages are where the handler writes them, and the counters do not meet if and only if
a message to the handle is lost. -/
theorem settled_lt_iff {k : ℕ} (hs : Accounts s k) (hk : k < 2 ^ 32) (hloop : (s.handles h).loop = L) :
    (∀ M, M ≠ L → msgsTo h (outstanding s M) = 0) ∧
      (settled s L h < (s.handles h).caughtSignals ↔ 0 < msgsTo h (s.pipe L)) := by
  refine ⟨fun M hM => ?_, ?_⟩
  · by_contra hne
    obtain ⟨m, hm, he⟩ := countP_pos_iff.1 (Nat.pos_of_ne_zero hne)
    have he : m.handle = h := by simpa using he
    have := (hs.here M m hm).2
    rw [he, hloop] at this
    exact hM this.symm
  · have hc := hs.count h
    have hb := hs.bound h
    rw [hloop, outstanding, msgsTo_append] at hc
    rw [settled, u32_iterate (by omega)]
    omega

/-- The signal is read and dispatched before the fork. -/
theorem fork_closes_read : ∃ s u : State, (system fun _ => true).Run (loopFork s 10) [.close 1] u ∧
    (s.handles 1).caughtSignals = 1 ∧ ∃ k, (((pass 10)^[k] u).handles 1).live = false := by
  obtain ⟨s, hs, hpc, hl, hloop, hcaught, hset, u, hu, hclosing, hidle⟩ : ∃ s : State,
      [Label.init 10 1, .start 1 7 15 false, .signal 15 fun _ => true, .read 10 1, .pick 10, .complete 10, .next 10].foldlM
        (Signal.step fun _ => true) State.fresh = some s ∧ (s.pc 10).Calls ∧ (s.handles 1).live = true ∧
      (s.handles 1).loop = 10 ∧ (s.handles 1).caughtSignals = 1 ∧ ¬ settled s 10 1 < (s.handles 1).caughtSignals ∧
      ∃ u, Signal.step (fun _ => true) (loopFork s 10) (.close 1) = some u ∧ (u.handles 1).closing = true ∧
        u.pc 10 = .idle := by
    refine ⟨_, rfl, ?_, ?_, ?_, ?_, ?_, _, rfl, ?_, ?_⟩ <;> decide +kernel
  have hist : (system fun _ => true).History _ s :=
    (LTS.History.nil (T := system fun _ => true) rfl).foldlM (fun _ _ _ h => h) hs
  have haway := (settled_lt_iff ((accounts.run hist).2 (by decide)) (by decide) hloop).1
  have hrun : (system fun _ => true).Run (loopFork s 10) [.close 1] u := .snoc (.nil _) hu
  exact ⟨s, u, hrun, hcaught,
    (fork_closes_iff hist hpc hl hloop haway hrun (by decide) (by simp) hclosing hidle).2 hset⟩

/-- The signal is caught, and its message is in the pipe at the fork: no number of passes lets the handle go. -/
theorem fork_never_closes : ∃ s u : State, (system fun _ => true).Reachable s ∧
    (system fun _ => true).Run (loopFork s 10) [.close 1] u ∧ (u.handles 1).closing = true ∧ u.pc 10 = .idle ∧
    ∀ k, (((pass 10)^[k] u).handles 1).live = true := by
  obtain ⟨s, hs, u, hu, hclosing, hidle, hl, hlt⟩ : ∃ s : State,
      [Label.init 10 1, .start 1 7 15 false, .signal 15 fun _ => true].foldlM (Signal.step fun _ => true) State.fresh =
        some s ∧ ∃ u, Signal.step (fun _ => true) (loopFork s 10) (.close 1) = some u ∧ (u.handles 1).closing = true ∧
        u.pc 10 = .idle ∧ (u.handles 1).live = true ∧ (u.handles 1).dispatchedSignals < (u.handles 1).caughtSignals := by
    refine ⟨_, rfl, _, rfl, ?_, ?_, ?_, ?_⟩ <;> decide +kernel
  have hist : (system fun _ => true).History _ s :=
    (LTS.History.nil (T := system fun _ => true) rfl).foldlM (fun _ _ _ h => h) hs
  have hsame : ∀ k, ((pass 10)^[k] u).handles 1 = u.handles 1 := fun k => by
    induction k with
    | zero => rfl
    | succ k ih => rw [iterate_succ_apply', pass_handles, ih, if_neg fun hc => hc.2 hlt]
  exact ⟨s, u, ⟨_, hist⟩, .snoc (.nil _) hu, hclosing, hidle, fun k => by rw [hsame, hl]⟩

end Forked

end Libuv.L2.Signal
