import Libuv.L2Loop.SignalRun

/-!
# Signal watchers: the two counters

A handle is closed when as many of its messages are dispatched as were written. `Accounts` says that the messages on
their way are exactly the difference, as long as the counters do not wrap.

* `signal_accounting`: it holds in every run with fewer than 2^32 signals; no `close_cb` is run while a message to the
  handle is on its way, and a handle whose `signal_cb` is about to be called is not closing.
-/
namespace Libuv.L2.Signal

def Label.isSignal : Label → Bool
  | .signal _ _ => true
  | _ => false

/-- The messages to `h` in a list. -/
def msgsTo (h : ℕ) (l : List Msg) : ℕ := l.countP fun m => m.handle = h

/-- `k` signals have arrived. -/
structure Accounts (s : State) (k : ℕ) : Prop where
  count : ∀ h, (s.handles h).caughtSignals = (s.handles h).dispatchedSignals + msgsTo h (outstanding s (s.handles h).loop)
  bound : ∀ h, (s.handles h).caughtSignals ≤ k
  here : ∀ L, ∀ m ∈ outstanding s L, (s.handles m.handle).live = true ∧ (s.handles m.handle).loop = L

/-- What a step leaves that has nothing to do with messages. -/
structure Still (s t : State) (x : ℕ) : Prop where
  live : (t.handles x).live = (s.handles x).live
  loop : (t.handles x).loop = (s.handles x).loop
  caught : (t.handles x).caughtSignals = (s.handles x).caughtSignals
  dispatched : (t.handles x).dispatchedSignals = (s.handles x).dispatchedSignals

section Step
variable {valid : ℤ → Bool} {s t u : State} {L h x cb k : ℕ} {n : ℤ} {b : Bool} {m : Msg} {back : Pc}

theorem msgsTo_pos (hm : m ∈ outstanding s L) : 0 < msgsTo m.handle (outstanding s L) :=
  List.countP_pos_iff.2 ⟨m, hm, by simp⟩

theorem Still.of_eq (hh : t.handles x = s.handles x) : Still s t x := by
  constructor <;> rw [hh]

theorem Still.congr (hk : Still s t x) (hu : u.handles = t.handles) : Still s u x := by
  constructor <;> rw [hu]
  exacts [hk.live, hk.loop, hk.caught, hk.dispatched]

theorem Accounts.still (hs : Accounts s k) (hk : ∀ x, Still s t x) (out : ∀ L, outstanding t L = outstanding s L) :
    Accounts t k where
  count x := by
    rw [(hk x).caught, (hk x).dispatched, (hk x).loop, out]
    exact hs.count x
  bound x := by
    rw [(hk x).caught]
    exact hs.bound x
  here L m hm := by
    rw [out] at hm
    rw [(hk _).live, (hk _).loop]
    exact hs.here L m hm

theorem outstanding_congr (hpc : t.pc = s.pc) (hpipe : t.pipe = s.pipe) (L : ℕ) : outstanding t L = outstanding s L := by
  rw [outstanding, outstanding, hpc, hpipe]

theorem outstanding_setPc (hpc : t.pc = s.pc) (hpipe : t.pipe = s.pipe) {pc : Pc} (hm : pc.msgs = (s.pc L).msgs) (M : ℕ) :
    outstanding (t.setPc L pc) M = outstanding s M := by
  rcases eq_or_ne M L with rfl | hM
  · simp [outstanding, hm, hpipe]
  · simp [outstanding, hM, hpc, hpipe]

theorem signalStop_still (s : State) (h x : ℕ) : Still s (signalStop s h) x := by
  rcases eq_or_ne x h with rfl | hx
  · constructor <;> simp [signalStop_handles]
  · exact .of_eq (by simp [signalStop_handles, hx])

theorem startLocked_still (valid : ℤ → Bool) (s : State) (h cb : ℕ) (n : ℤ) (b : Bool) (x : ℕ) :
    Still s (startLocked valid s h cb n b) x := by
  by_cases ha : Accepted valid s n b
  · rcases eq_or_ne x h with rfl | hx
    · constructor <;> simp [(startLocked_started ha).handles]
    · exact .of_eq (by simp [(startLocked_started ha).handles, hx])
  · rw [startLocked_refused ha]
    exact .of_eq rfl

theorem close_still (s : State) (h x : ℕ) : Still s (close s h) x := by
  rcases eq_or_ne x h with rfl | hx
  · constructor <;> simp [close_handles]
  · exact .of_eq (by simp [close_handles, hx])

theorem again_still (s : State) (h cb x : ℕ) : Still s (put s h { s.handles h with signalCb := cb }) x := by
  rcases eq_or_ne x h with rfl | hx
  · constructor <;> simp
  · exact .of_eq (by simp [hx])

theorem Accounts.init (hs : Accounts s k) (h0 : (s.handles h).live = false) : Accounts (signalInit s L h) k := by
  have hne {y} (hy : y ≠ h) : (signalInit s L h).handles y = s.handles y := by simp [signalInit, hy]
  have hno (M) : ∀ m ∈ outstanding s M, m.handle ≠ h := by
    rintro m hm rfl
    have := (hs.here M m hm).1
    rw [h0] at this
    cases this
  constructor
  · intro x
    change _ = _ + msgsTo x (outstanding s _)
    rcases eq_or_ne x h with rfl | hx
    · have hz : msgsTo x (outstanding s L) = 0 := List.countP_eq_zero.2 fun m hm => by simpa using hno L m hm
      simp [signalInit, hz]
    · rw [hne hx]
      exact hs.count x
  · intro x
    rcases eq_or_ne x h with rfl | hx
    · simp [signalInit]
    · rw [hne hx]
      exact hs.bound x
  · intro M m hm
    rw [hne (hno M m hm)]
    exact hs.here M m hm

theorem msgsTo_written (hs : Tree s) (n : ℤ) (ok : ℕ → Bool) (h L : ℕ) :
    msgsTo h (written s n ok (matching s n) L) = if Heard s n ok h ∧ (s.handles h).loop = L then 1 else 0 := by
  have hnodup := (hs.sorted.matching_nodup n).filter fun h => decide (ok h = true ∧ (s.handles h).loop = L)
  have e : msgsTo h (written s n ok (matching s n) L) =
      ((matching s n).filter fun h => decide (ok h = true ∧ (s.handles h).loop = L)).count h := by
    rw [msgsTo, written, List.countP_map]
    apply List.countP_congr
    intro x _
    simp
  rw [e, hnodup.count]
  simp [Heard, and_assoc]

theorem Accounts.arrive (hs : Accounts s k) (hw : Wf s) (hk : k + 1 < 2 ^ 32) (n : ℤ) (ok : ℕ → Bool) :
    Accounts (arrive s n ok) (k + 1) := by
  have hh := arrive_handles hw.tree n ok
  have hout (L) : outstanding (Signal.arrive s n ok) L =
      outstanding s L ++ if s.disp n = .dfl then [] else written s n ok (matching s n) L := by
    rw [outstanding, outstanding, (arrive_frame n ok).2.1, arrive_pipe hw.tree, List.append_assoc]
  have hloop (x) : ((Signal.arrive s n ok).handles x).loop = (s.handles x).loop := by
    rw [hh]
    split_ifs <;> rfl
  have hlive (x) : ((Signal.arrive s n ok).handles x).live = (s.handles x).live := by
    rw [hh]
    split_ifs <;> rfl
  constructor
  · intro x
    have hc := hs.count x
    have hb := hs.bound x
    have hmod : u32 ((s.handles x).caughtSignals + 1) = (s.handles x).caughtSignals + 1 := Nat.mod_eq_of_lt (by omega)
    rw [hout, msgsTo, List.countP_append]
    change _ = _ + (msgsTo x _ + msgsTo x _)
    by_cases hd : s.disp n = .dfl
    · rw [if_pos hd, hh, if_neg (by simp [hd])]
      simpa [msgsTo] using hc
    · rw [if_neg hd, hh, msgsTo_written hw.tree]
      by_cases hx : Heard s n ok x
      · simp only [ne_eq, hd, not_false_eq_true, hx, and_self, if_true, hmod]
        omega
      · simp only [hx, and_false, false_and, if_false]
        omega
  · intro x
    have hb := hs.bound x
    have hmod : u32 ((s.handles x).caughtSignals + 1) = (s.handles x).caughtSignals + 1 := Nat.mod_eq_of_lt (by omega)
    rw [hh]
    split_ifs
    · simp only [hmod]
      omega
    · omega
  · intro L m hm
    rw [hlive, hloop]
    rw [hout] at hm
    rcases List.mem_append.1 hm with hold | hnew
    · exact hs.here L m hold
    · split_ifs at hnew
      · cases hnew
      · obtain ⟨hn, hsig, hl, -, -⟩ := mem_written hw.tree n ok hnew
        exact ⟨(hw.own _ (hsig ▸ hn)).1, hl⟩

theorem Accounts.complete (hs : Accounts s k) (hk : k < 2 ^ 32) {msgs : List Msg} {full called : Bool}
    (hp : s.pc L = .handled m msgs full called) : Accounts ((complete s m.handle).setPc L (.messages msgs full)) k := by
  obtain ⟨hpipe, hpc, -, -⟩ := complete_frame (s := s) m.handle
  have hout : outstanding s L = m :: (msgs ++ s.pipe L) := by simp [outstanding, hp, Pc.msgs]
  have hout' : outstanding ((Signal.complete s m.handle).setPc L (.messages msgs full)) L = msgs ++ s.pipe L := by
    simp [outstanding, hpipe, Pc.msgs]
  have hother {M} (hM : M ≠ L) :
      outstanding ((Signal.complete s m.handle).setPc L (.messages msgs full)) M = outstanding s M := by
    simp [outstanding, hM, hpipe, hpc]
  have hm := hs.here L m (by rw [hout]; exact .head _)
  have hne {x} (hx : x ≠ m.handle) :
      ((Signal.complete s m.handle).setPc L (.messages msgs full)).handles x = s.handles x := by
    simp [complete_handles, hx]
  constructor
  · intro x
    have hc := hs.count x
    have hb := hs.bound x
    rcases eq_or_ne x m.handle with rfl | hx
    · rw [hm.2, hout, msgsTo, List.countP_cons_of_pos (by simp)] at hc
      change _ = _ + (msgsTo _ _ + 1) at hc
      have hmod : u32 ((s.handles m.handle).dispatchedSignals + 1) = (s.handles m.handle).dispatchedSignals + 1 :=
        Nat.mod_eq_of_lt (by omega)
      simp only [setPc_handles, complete_handles, Function.update_self, hm.2, hout', hmod]
      omega
    · rw [hne hx, hc]
      rcases eq_or_ne (s.handles x).loop L with hl | hl
      · rw [hl, hout', hout, msgsTo, List.countP_cons_of_neg (by simpa using hx.symm)]
        rfl
      · rw [hother hl]
  · intro x
    rcases eq_or_ne x m.handle with rfl | hx
    · simpa [complete_handles] using hs.bound m.handle
    · rw [hne hx]
      exact hs.bound x
  · intro M m' hm'
    have hold : m' ∈ outstanding s M := by
      rcases eq_or_ne M L with rfl | hM
      · rw [hout'] at hm'
        rw [hout]
        exact .tail _ hm'
      · rwa [hother hM] at hm'
    rcases eq_or_ne m'.handle m.handle with e | hx
    · simpa [complete_handles, e] using e ▸ hs.here M m' hold
    · rw [hne hx]
      exact hs.here M m' hold

theorem Accounts.none_left (hs : Accounts s k) (hc : ¬(s.handles h).dispatchedSignals < (s.handles h).caughtSignals) :
    ∀ m ∈ outstanding s L, m.handle ≠ h := by
  rintro m hm rfl
  have hcount := hs.count m.handle
  have hpos := msgsTo_pos hm
  rw [(hs.here L m hm).2] at hcount
  omega

theorem Accounts.finishClose (hs : Accounts s k) {p : List ℕ} (hp : s.pc L = .closing (h :: p)) :
    Accounts ((finishClose s h).setPc L (.closing p)) k := by
  unfold Signal.finishClose
  dsimp only
  split_ifs with hlt
  · exact hs.still (fun x => .of_eq rfl) (outstanding_setPc rfl rfl (by simp [hp, Pc.msgs]))
  · have hout (M) : outstanding ((put s h { s.handles h with live := false }).setPc L (.closing p)) M = outstanding s M :=
      outstanding_setPc rfl rfl (by simp [hp, Pc.msgs]) M
    constructor
    · intro x
      rw [hout]
      rcases eq_or_ne x h with rfl | hx
      · simpa using hs.count x
      · simpa [hx] using hs.count x
    · intro x
      rcases eq_or_ne x h with rfl | hx
      · simpa using hs.bound x
      · simpa [hx] using hs.bound x
    · intro M m hm
      rw [hout] at hm
      have hne := hs.none_left hlt m hm
      simpa [hne] using hs.here M m hm

theorem Accounts.step (hs : Accounts s k) (hw : Wf s) {l : Label} (hk : k + (if l.isSignal then 1 else 0) < 2 ^ 32)
    (ht : step valid s l = some t) : Accounts t (k + if l.isSignal then 1 else 0) := by
  cases step_cases ht with
  | init h0 => exact hs.init h0
  | zero => exact hs
  | @again h cb => exact hs.still (fun x => (again_still s h cb x).congr rfl) (outstanding_congr rfl rfl)
  | @restart h =>
    obtain ⟨hpipe, hpc, -, -⟩ := signalStop_frame (s := s) h
    exact hs.still (fun x => (signalStop_still s h x).congr rfl) (outstanding_setPc hpc hpipe rfl)
  | @start h cb n b =>
    obtain ⟨hpc, hpipe, -, -⟩ := startLocked_frame valid s h cb n b
    exact hs.still (startLocked_still valid s h cb n b) (outstanding_congr hpc hpipe)
  | @lock L h cb n b back hp =>
    obtain ⟨hpc, hpipe, -, -⟩ := startLocked_frame valid s h cb n b
    exact hs.still (fun x => (startLocked_still valid s h cb n b x).congr rfl) (outstanding_setPc hpc hpipe (by rw [hp]; rfl))
  | @stop h =>
    obtain ⟨hpipe, hpc, -, -⟩ := signalStop_frame (s := s) h
    exact hs.still (fun x => (signalStop_still s _ x).congr rfl) (outstanding_congr hpc hpipe)
  | @close h =>
    obtain ⟨hpipe, hpc, -, -⟩ := close_frame (s := s) h
    exact hs.still (fun x => (close_still s _ x).congr rfl) (outstanding_congr hpc hpipe)
  | signal => exact hs.arrive hw hk _ _
  | @read L n hp =>
    have hmsgs : (s.pc L).msgs = [] := by
      rcases hp with e | e <;> rw [e] <;> rfl
    refine hs.still (fun x => .of_eq rfl) fun M => ?_
    rcases eq_or_ne M L with rfl | hM
    · simp [outstanding, Pc.msgs, hmsgs]
    · simp [outstanding, hM]
  | drained hp | runClosing hp | closed hp =>
    exact hs.still (fun x => .of_eq rfl) (outstanding_setPc rfl rfl (by rw [hp]; rfl))
  | pick hp =>
    refine hs.still (fun x => .of_eq ?_) (outstanding_setPc ?_ ?_ ?_)
    · split_ifs <;> rfl
    · split_ifs <;> rfl
    · split_ifs <;> rfl
    · rw [hp]
      rfl
  | complete hp => exact hs.complete hk hp
  | next hp =>
    refine hs.still (fun x => .of_eq rfl) (outstanding_setPc rfl rfl ?_)
    rw [hp]
    split_ifs <;> rfl
  | finishClose hp => exact hs.finishClose hp

theorem accounts : (system valid).TraceInductive fun ls s =>
    Wf s ∧ (ls.countP Label.isSignal < 2 ^ 32 → Accounts s (ls.countP Label.isSignal)) where
  init s hs := by
    refine ⟨wf.init s hs, fun _ => ?_⟩
    cases hs
    constructor <;> simp [State.fresh, outstanding, Pc.msgs, msgsTo]
  step ls s l t hs h := by
    refine ⟨hs.1.step h, fun hk => ?_⟩
    have e : (ls ++ [l]).countP Label.isSignal = ls.countP Label.isSignal + if l.isSignal then 1 else 0 := by
      rw [List.countP_append, List.countP_singleton]
    rw [e] at hk ⊢
    have hlt : ls.countP Label.isSignal < 2 ^ 32 := by omega
    exact (hs.2 hlt).step hs.1 hk h

/-- **The counters account for the messages.** With fewer than 2^32 signals: the difference of the two counters of a
handle is the number of the messages to it that are in the pipe of its loop or read and not dispatched; a handle that any
message points at is alive, of the loop of the message, so that its `close_cb` was not called; when it is about to be,
no message points at it; and where `uv__signal_event` calls a handle, it is not closing. -/
theorem signal_accounting {ls : List Label} (h : (system valid).History ls s) (hk : ls.countP Label.isSignal < 2 ^ 32) :
    (∀ x, (s.handles x).caughtSignals =
      (s.handles x).dispatchedSignals + msgsTo x (outstanding s (s.handles x).loop)) ∧
    (∀ L, ∀ m ∈ outstanding s L, (s.handles m.handle).live = true ∧ (s.handles m.handle).loop = L) ∧
    (∀ L x p, s.pc L = .closing (x :: p) → ¬(s.handles x).dispatchedSignals < (s.handles x).caughtSignals →
      ∀ M, ∀ m ∈ outstanding s M, m.handle ≠ x) ∧
    ∀ L m msgs full, s.pc L = .messages (m :: msgs) full → m.signum = (s.handles m.handle).signum →
      (s.handles m.handle).closing = false := by
  obtain ⟨hw, ha⟩ := accounts.run h
  have hs := ha hk
  refine ⟨hs.count, hs.here, fun L x p _ hc M => hs.none_left hc, fun L m msgs full hp he => ?_⟩
  have hm := hw.sound L m (by simp [outstanding, hp, Pc.msgs])
  exact (hw.own _ (he ▸ hm.signum)).2

/-- Two handles on two loops hear a signal; the first is closed while its message is read. -/
theorem signal_accounting_two : ∃ s : State, (s.handles 1).caughtSignals = 1 ∧ s.pc 10 = .closing [1] ∧
    s.pipe 20 = [⟨2, 15, 1⟩] ∧
    (s.handles 2).caughtSignals = (s.handles 2).dispatchedSignals + msgsTo 2 (outstanding s (s.handles 2).loop) ∧
    ∀ m ∈ outstanding s 20, m.handle ≠ 1 := by
  obtain ⟨s, hs, hc, hd, hp, hpipe⟩ : ∃ s : State,
      [Label.init 10 1, .init 20 2, .start 1 7 15 false, .start 2 8 15 true, .signal 15 fun _ => true, .read 10 1, .pick 10,
        .close 1, .complete 10, .next 10, .runClosing 10].foldlM (step fun _ => true) State.fresh = some s ∧
      (s.handles 1).caughtSignals = 1 ∧ (s.handles 1).dispatchedSignals = 1 ∧ s.pc 10 = .closing [1] ∧
      s.pipe 20 = [⟨2, 15, 1⟩] := by
    refine ⟨_, rfl, ?_, ?_, ?_, ?_⟩ <;> decide +kernel
  have h : (system fun _ => true).History _ s :=
    (LTS.History.nil (T := system fun _ => true) rfl).foldlM (fun _ _ _ h => h) hs
  obtain ⟨hcount, -, hclose, -⟩ := signal_accounting h (by decide)
  exact ⟨s, hc, hp, hpipe, hcount 2, hclose 10 1 [] hp (by omega) 20⟩

end Step

end Libuv.L2.Signal
