import Libuv.L2Loop.SignalRun

/-!
# Signal watchers: dispositions and one-shot mode

Two promises of `uv_signal_start` that the code keeps in some runs only. Each has the condition on
the steps under which it is kept, and a run in which it is broken.

* `handler_set`: a started handle that has not yet heard its signal finds the process' handler installed.
* `one_shot_mode`: whether a dispatch stops the handle depends on the last start only.
-/
namespace Libuv.L2.Signal

open Function

/-! ## What a step does to the mode of a handle -/

structure SameMode (s t : State) (x : ℕ) : Prop where
  signum : (t.handles x).signum = (s.handles x).signum
  oneShot : (t.handles x).oneShot = (s.handles x).oneShot
  mode : (t.ghost x).oneshot = (s.ghost x).oneshot
  delivered : (t.ghost x).delivered = (s.ghost x).delivered

/-- `l` is the step of `uv__signal_start` behind the lock. -/
def Locks (s : State) (h cb : ℕ) (n : ℤ) (b : Bool) : Label → Prop
  | .start h' cb' n' b' => h' = h ∧ cb' = cb ∧ n' = n ∧ b' = b ∧ (s.handles h).signum = 0
  | .lock L => ∃ back, s.pc L = .starting h cb n b back
  | _ => False

/-- A step as the tree and the dispositions see it. -/
inductive Effect (valid : ℤ → Bool) (s t : State) (l : Label) : Prop
  | same (modes : ∀ x, SameMode s t x) (disp : t.disp = s.disp)
  | stopped (h : ℕ) (h0 : (t.handles h).signum = 0) (modes : ∀ x, x ≠ h → SameMode s t x)
      (disp : ∀ x, x ≠ h → (s.handles x).signum ≠ 0 → t.disp (s.handles x).signum = s.disp (s.handles x).signum ∨
          t.disp (s.handles x).signum = .handler true ∧ (s.handles x).oneShot = true)
  | again (h cb : ℕ) (n : ℤ) (b : Bool) (hl : l = .start h cb n b) (hn : n ≠ 0) (he : (s.handles h).signum = n)
      (handles : t.handles = Function.update s.handles h { s.handles h with signalCb := cb })
      (ghost : t.ghost = Function.update s.ghost h ((s.ghost h).start b)) (disp : t.disp = s.disp)
  | started (h cb : ℕ) (n : ℤ) (b : Bool) (hl : Locks s h cb n b l) (hn : n ≠ 0) (h0 : (s.handles h).signum = 0)
      (ha : Accepted valid s n b)
      (handles : t.handles = Function.update s.handles h
        { s.handles h with signum := n, oneShot := (s.handles h).oneShot || b, signalCb := cb })
      (ghost : t.ghost = Function.update s.ghost h ((s.ghost h).start b))
      (disp : t.disp = if registers s n b = true then Function.update s.disp n (.handler b) else s.disp)
  | arrived (n : ℤ) (ok : ℕ → Bool) (hl : l = .signal n ok) (ht : t = arrive s n ok)

section Step
variable {valid : ℤ → Bool} {s t : State} {l : Label} {L h x cb : ℕ} {n : ℤ} {b : Bool}

theorem SameMode.of_eq (hh : t.handles x = s.handles x) (hg : t.ghost x = s.ghost x) : SameMode s t x := by
  constructor <;> simp [hh, hg]

theorem signalStop_put_disp (hs : Tree s) {r : Handle} (hr : r.signum = (s.handles h).signum)
    (hk : r.oneShot = (s.handles h).oneShot ∧ r.loop = (s.handles h).loop) (hx : x ≠ h) (hi : (s.handles x).signum ≠ 0) :
    (signalStop (put s h r) h).disp (s.handles x).signum = s.disp (s.handles x).signum ∨
      (signalStop (put s h r) h).disp (s.handles x).signum = .handler true ∧ (s.handles x).oneShot = true := by
  have hput := signalStop_disp h (hs.put h hr hk) hx
  rw [put_handles, update_of_ne hx] at hput
  exact hput hi

theorem step_effect (hs : Wf s) (ht : step valid s l = some t) : Effect valid s t l := by
  cases step_cases ht with
  | @init L h =>
    refine .stopped h (by simp [signalInit]) (fun x hx => ?_) fun x hx hi => .inl rfl
    exact .of_eq (by simp [signalInit, hx]) rfl
  | zero | read | drained | next | runClosing | closed => exact .same (fun x => .of_eq rfl rfl) rfl
  | again own hn hsig => exact .again _ _ _ _ rfl hn hsig.symm rfl rfl rfl
  | @restart h =>
    refine .stopped h (by simp [signalStop_handles]) (fun x hx => ?_) fun x hx hi => signalStop_disp _ hs.tree hx hi
    exact .of_eq (by simp [signalStop_handles, hx]) (by simp [(signalStop_frame _).2.2.2])
  | @start h cb n b own hn h0 =>
    by_cases ha : Accepted valid s n b
    · have hst := @startLocked_started valid s h cb n b ha
      exact .started h cb n b ⟨rfl, rfl, rfl, rfl, h0⟩ hn h0 ha hst.handles hst.ghost hst.disp
    · rw [startLocked_refused ha]
      exact .same (fun x => .of_eq rfl rfl) rfl
  | @lock L h cb n b back hp =>
    have hw := hs.waits _ _ _ _ _ _ hp
    by_cases ha : Accepted valid s n b
    · have hst := @startLocked_started valid s h cb n b ha
      exact .started h cb n b ⟨back, hp⟩ hw.number hw.stopped ha hst.handles hst.ghost hst.disp
    · rw [startLocked_refused ha]
      exact .same (fun x => .of_eq rfl rfl) rfl
  | @stop h =>
    refine .stopped h (by simp [signalStop_handles]) (fun x hx => ?_) fun x hx hi => signalStop_disp _ hs.tree hx hi
    exact .of_eq (by simp [signalStop_handles, hx]) (by simp [(signalStop_frame _).2.2.2, hx])
  | @close h =>
    refine .stopped h (by simp [close_handles]) (fun x hx => ?_) fun x hx hi =>
      signalStop_put_disp hs.tree rfl ⟨rfl, rfl⟩ hx hi
    exact .of_eq (by simp [close_handles, hx]) (by simp [(close_frame _).2.2.1, hx])
  | @signal n ok => exact .arrived n ok rfl rfl
  | @pick L m =>
    refine .same (fun x => ?_) ?_
    · split_ifs
      · rcases eq_or_ne x m.handle with rfl | hx
        · constructor <;> simp
        · exact .of_eq rfl (by simp [hx])
      · exact .of_eq rfl rfl
    · split_ifs <;> rfl
  | @complete L m =>
    have hg := (complete_frame (s := s) m.handle).2.2.2
    by_cases ho : (s.handles m.handle).oneShot = true
    · refine .stopped m.handle (by simp [complete_handles, ho]) (fun x hx => ?_) fun x hx hi => ?_
      · exact .of_eq (by simp [complete_handles, hx]) (by simp [hg])
      · rw [complete, if_pos ho]
        exact signalStop_put_disp hs.tree rfl ⟨rfl, rfl⟩ hx hi
    · refine .same (fun x => ?_) ?_
      · rcases eq_or_ne x m.handle with rfl | hx
        · constructor <;> simp [complete_handles, ho, hg]
        · exact .of_eq (by simp [complete_handles, hx]) (by simp [hg])
      · rw [complete, if_neg ho]
        rfl
  | @finishClose L h =>
    refine .same (fun x => ?_) ?_
    · unfold finishClose
      dsimp only
      split_ifs
      · exact .of_eq rfl rfl
      · rcases eq_or_ne x h with rfl | hx
        · constructor <;> simp
        · exact .of_eq (by simp [hx]) rfl
    · unfold finishClose
      dsimp only
      split_ifs <;> rfl

/-! ## Dispositions -/

/-- A persistent handle has the handler installed for good. -/
def Persistent (s : State) : Prop :=
  ∀ x, (s.handles x).signum ≠ 0 → (s.handles x).oneShot = false → s.disp (s.handles x).signum = .handler false

theorem Persistent.step (hs : Tree s) (hp : Persistent s) (he : Effect valid s t l) : Persistent t := by
  intro x hx ho
  cases he with
  | same modes disp =>
    rw [(modes x).signum] at hx ⊢
    rw [(modes x).oneShot] at ho
    rw [disp]
    exact hp x hx ho
  | stopped h h0 modes disp =>
    have hxh : x ≠ h := by
      rintro rfl
      exact hx h0
    rw [(modes x hxh).signum] at hx ⊢
    rw [(modes x hxh).oneShot] at ho
    rcases disp x hxh hx with e | ⟨-, e⟩
    · rw [e]
      exact hp x hx ho
    · rw [ho] at e
      cases e
  | again h cb n b hl hn he handles ghost disp =>
    rw [disp]
    rcases eq_or_ne x h with rfl | hxh
    · rw [handles, update_self] at hx ho ⊢
      exact hp x hx ho
    · rw [handles, update_of_ne hxh] at hx ho ⊢
      exact hp x hx ho
  | started h cb n b hl hn h0 ha handles ghost disp =>
    rw [disp]
    rcases eq_or_ne x h with rfl | hxh
    · rw [handles, update_self] at ho ⊢
      simp only [Bool.or_eq_false_iff] at ho
      obtain ⟨-, rfl⟩ := ho
      split_ifs with hr
      · exact update_self ..
      · -- the first handle on the number is persistent too
        obtain ⟨y, hy, hyo⟩ := hs.registers_false (Bool.not_eq_true _ ▸ hr)
        rw [← hy]
        exact hp y (hy ▸ hn) (hyo rfl)
    · rw [handles, update_of_ne hxh] at hx ho ⊢
      split_ifs with hr
      · by_cases hxn : (s.handles x).signum = n
        · rcases hs.registers_true hn hr with rfl | hno
          · rw [hxn]
            exact update_self ..
          · exact absurd hxn (hno x)
        · rw [update_of_ne hxn]
          exact hp x hx ho
      · exact hp x hx ho
  | arrived n ok hl ht =>
    subst ht
    have hsig : ((arrive s n ok).handles x).signum = (s.handles x).signum ∧
        ((arrive s n ok).handles x).oneShot = (s.handles x).oneShot := by
      rw [arrive_handles hs]
      split_ifs <;> exact ⟨rfl, rfl⟩
    rw [hsig.1] at hx ⊢
    rw [hsig.2] at ho
    have hold := hp x hx ho
    rw [arrive_disp]
    split_ifs with hd
    · have hxn : (s.handles x).signum ≠ n := by
        rintro rfl
        rw [hd] at hold
        cases hold
      rw [update_of_ne hxn]
      exact hold
    · exact hold

/-- Every started handle that has not heard its signal since its start finds the handler installed. -/
def HandlerSet (s : State) : Prop :=
  ∀ x, (s.handles x).signum ≠ 0 → (s.ghost x).delivered = false → s.disp (s.handles x).signum ≠ .dfl

/-- A start that installs nothing finds a handler; a signal whose handler the kernel resets finds room in the pipe of every
handle that has not heard it. -/
def KeepsHandler (s : State) : Label → Prop
  | .start h _ n b =>
    (n = (s.handles h).signum → s.disp n ≠ .dfl) ∧
      ((s.handles h).signum = 0 → registers s n b = false → s.disp n ≠ .dfl)
  | .lock L => ∀ h cb n b back, s.pc L = .starting h cb n b back → registers s n b = false → s.disp n ≠ .dfl
  | .signal n ok =>
    s.disp n = .handler true → ∀ x, (s.handles x).signum = n → (s.ghost x).delivered = false → ok x = true
  | _ => True

theorem HandlerSet.step (hs : Tree s) (hp : HandlerSet s) (hc : KeepsHandler s l) (he : Effect valid s t l) : HandlerSet t := by
  intro x hx hd
  cases he with
  | same modes disp =>
    rw [(modes x).signum] at hx ⊢
    rw [(modes x).delivered] at hd
    rw [disp]
    exact hp x hx hd
  | stopped h h0 modes disp =>
    have hxh : x ≠ h := by
      rintro rfl
      exact hx h0
    rw [(modes x hxh).signum] at hx ⊢
    rw [(modes x hxh).delivered] at hd
    rcases disp x hxh hx with e | ⟨e, -⟩
    · rw [e]
      exact hp x hx hd
    · rw [e]
      nofun
  | again h cb n b hl hn he handles ghost disp =>
    subst hl
    rw [disp]
    rcases eq_or_ne x h with rfl | hxh
    · rw [handles, update_self]
      rw [he]
      exact hc.1 he.symm
    · rw [handles, update_of_ne hxh] at hx ⊢
      rw [ghost, update_of_ne hxh] at hd
      exact hp x hx hd
  | started h cb n b hl hn h0 ha handles ghost disp =>
    have hset : registers s n b = false → s.disp n ≠ .dfl := by
      cases l with
      | start h' cb' n' b' =>
        obtain ⟨rfl, rfl, rfl, rfl, -⟩ := hl
        exact hc.2 h0
      | lock L =>
        obtain ⟨back, hpc⟩ := hl
        exact hc h cb n b back hpc
      | _ => cases hl
    rw [disp]
    rcases eq_or_ne x h with rfl | hxh
    · rw [handles, update_self]
      split_ifs with hr
      · rw [update_self]
        nofun
      · exact hset (Bool.not_eq_true _ ▸ hr)
    · rw [handles, update_of_ne hxh] at hx ⊢
      rw [ghost, update_of_ne hxh] at hd
      split_ifs with hr
      · by_cases hxn : (s.handles x).signum = n
        · rw [hxn, update_self]
          nofun
        · rw [update_of_ne hxn]
          exact hp x hx hd
      · exact hp x hx hd
  | arrived n ok hl ht =>
    subst hl ht
    have hsig : ((arrive s n ok).handles x).signum = (s.handles x).signum := by
      rw [arrive_handles hs]
      split_ifs <;> rfl
    rw [hsig] at hx ⊢
    rw [arrive_ghost hs] at hd
    split_ifs at hd with hheard
    have hold := hp x hx hd
    rw [arrive_disp]
    split_ifs with hreset
    · have hxn : (s.handles x).signum ≠ n := by
        rintro rfl
        exact hheard ⟨hold, (hs.mem_matching hx).2 rfl, hc hreset x rfl hd⟩
      rw [update_of_ne hxn]
      exact hold
    · exact hold

/-- **A watched signal is caught.** In a run whose starts that install nothing find a handler installed, and whose signals
with a handler that the kernel resets find room in the pipes, a started handle that has not heard its signal since its start
finds the process' handler installed. -/
theorem handler_set (h : ((system valid).restrict KeepsHandler).Reachable s) : HandlerSet s := by
  have hinv : ((system valid).restrict KeepsHandler).Inductive fun s => (Wf s ∧ Persistent s) ∧ HandlerSet s := by
    apply LTS.Inductive.with_
    · apply LTS.Inductive.restrict
      apply wf.with_
      · intro s hs x hx
        cases hs
        exact absurd rfl hx
      · intro s l t hw hp ht
        exact hp.step hw.tree (step_effect hw ht)
    · intro s hs x hx
      cases hs
      exact absurd rfl hx
    · intro s l t hw hp ht
      exact hp.step hw.1.tree ht.1 (step_effect hw.1 ht.2)
  exact (hinv.reachable h).2

/-- Two handles are started on a signal, one of them one-shot; the signal arrives, and the other hears the next one. -/
theorem handler_set_two : ∃ s : State, (s.handles 1).signum = 15 ∧ (s.ghost 1).starts = 1 ∧ (s.handles 2).caughtSignals = 1 ∧
    s.pc 10 = .idle ∧ HandlerSet s := by
  have h0 : ((system fun _ => true).restrict KeepsHandler).Reachable State.fresh := .init rfl
  have h1 := h0.step (l := Label.init 10 1) ⟨trivial, rfl⟩
  have h2 := h1.step (l := Label.init 10 2) ⟨trivial, rfl⟩
  have h3 := h2.step (l := Label.start 1 7 15 false) ⟨by simp only [KeepsHandler]; decide +kernel, rfl⟩
  have h4 := h3.step (l := Label.start 2 8 15 true) ⟨by simp only [KeepsHandler]; decide +kernel, rfl⟩
  have h5 := h4.step (l := Label.signal 15 fun h => h = 2) ⟨fun hd => absurd hd (by decide +kernel), rfl⟩
  refine ⟨_, ?_, ?_, ?_, ?_, handler_set h5⟩ <;> decide +kernel

/-- **A one-shot start after a signal leaves the default action.** The kernel has reset the handler of the first
one-shot handle, which is in the tree until its message is dispatched; the second start installs nothing. -/
theorem handler_lost : ¬∀ s, (system fun _ => true).Reachable s → HandlerSet s := by
  intro hall
  obtain ⟨s, hs, hsig, hd, hdisp⟩ : ∃ s : State,
      [Label.init 10 1, .init 10 2, .start 1 7 15 true, .signal 15 fun _ => true, .start 2 8 15 true].foldlM
        (step fun _ => true) State.fresh = some s ∧
      (s.handles 2).signum = 15 ∧ (s.ghost 2).delivered = false ∧ s.disp 15 = .dfl := by
    refine ⟨_, rfl, ?_, ?_, ?_⟩ <;> decide +kernel
  have h := (LTS.Reachable.init (T := system fun _ => true) rfl).foldlM (fun _ _ _ h => h) hs
  apply hall s h 2 (by omega) hd
  rw [hsig]
  exact hdisp

/-! ## One-shot mode -/

/-- The flag of a started handle is the mode of its last start. -/
def FlagIsMode (s : State) : Prop :=
  ∀ x, (s.handles x).signum ≠ 0 → ((s.handles x).oneShot = true ↔ (s.ghost x).oneshot = true)

/-- A persistent start finds the flag clear; a start on the number that the handle has finds its own mode. -/
def KeepsMode (valid : ℤ → Bool) (s : State) : Label → Prop
  | .start h _ n b =>
    n ≠ 0 → (n = (s.handles h).signum → (s.handles h).oneShot = b) ∧
      ((s.handles h).signum = 0 → Accepted valid s n b → b = false → (s.handles h).oneShot = false)
  | .lock L => ∀ h cb n b back, s.pc L = .starting h cb n b back → Accepted valid s n b → b = false →
      (s.handles h).oneShot = false
  | _ => True

theorem FlagIsMode.step (hs : Tree s) (hp : FlagIsMode s) (hc : KeepsMode valid s l) (he : Effect valid s t l) : FlagIsMode t := by
  intro x hx
  cases he with
  | same modes disp =>
    rw [(modes x).signum] at hx
    rw [(modes x).oneShot, (modes x).mode]
    exact hp x hx
  | stopped h h0 modes disp =>
    have hxh : x ≠ h := by
      rintro rfl
      exact hx h0
    rw [(modes x hxh).signum] at hx
    rw [(modes x hxh).oneShot, (modes x hxh).mode]
    exact hp x hx
  | again h cb n b hl hn he handles ghost disp =>
    subst hl
    rw [handles, ghost]
    rcases eq_or_ne x h with rfl | hxh
    · simp [Ghost.start, (hc hn).1 he.symm]
    · rw [handles, update_of_ne hxh] at hx
      rw [update_of_ne hxh, update_of_ne hxh]
      exact hp x hx
  | started h cb n b hl hn h0 ha handles ghost disp =>
    have hflag : b = false → (s.handles h).oneShot = false := by
      cases l with
      | start h' cb' n' b' =>
        obtain ⟨rfl, rfl, rfl, rfl, -⟩ := hl
        exact (hc hn).2 h0 ha
      | lock L =>
        obtain ⟨back, hpc⟩ := hl
        exact hc h cb n b back hpc ha
      | _ => cases hl
    rw [handles, ghost]
    rcases eq_or_ne x h with rfl | hxh
    · cases b with
      | false => simp [Ghost.start, hflag rfl]
      | true => simp [Ghost.start]
    · rw [handles, update_of_ne hxh] at hx
      rw [update_of_ne hxh, update_of_ne hxh]
      exact hp x hx
  | arrived n ok hl ht =>
    subst ht
    rw [arrive_handles hs] at hx ⊢
    rw [arrive_ghost hs]
    split_ifs at hx ⊢ <;> exact hp x hx

/-- The calls of the user that may stop `x`. -/
def Label.Stops (s : State) (x : ℕ) : Label → Prop
  | .stop h => h = x
  | .close h => h = x
  | .start h _ n _ => h = x ∧ n ≠ (s.handles x).signum
  | _ => False

theorem stays_started (hs : Wf s) (ht : step valid s l = some t) (hx : (s.handles x).signum ≠ 0) (hl : ¬l.Stops s x)
    (hd : ∀ L m msgs full called, l = .complete L → s.pc L = .handled m msgs full called → m.handle ≠ x) :
    (t.handles x).signum = (s.handles x).signum := by
  have hlock (h cb : ℕ) (n : ℤ) (b : Bool) (hxh : x ≠ h) :
      ((startLocked valid s h cb n b).handles x).signum = (s.handles x).signum := by
    rw [((startLocked_frame valid s h cb n b).2.2.2 x hxh).1]
  cases step_cases ht with
  | @init L h h0 =>
    have hxh : x ≠ h := by
      rintro rfl
      rw [(hs.own x hx).1] at h0
      cases h0
    simp [signalInit, hxh]
  | zero | read | drained | next | runClosing | closed => rfl
  | @again h =>
    rcases eq_or_ne x h with rfl | hxh
    · simp
    · simp [hxh]
  | @restart h _ _ _ _ _ hsig =>
    have hxh : x ≠ h := by
      rintro rfl
      exact hl ⟨rfl, hsig⟩
    simp [signalStop_handles, hxh]
  | start _ _ h0 =>
    apply hlock
    rintro rfl
    exact hx h0
  | lock hp =>
    apply hlock
    rintro rfl
    exact hx (hs.waits _ _ _ _ _ _ hp).stopped
  | @stop h =>
    have hxh : x ≠ h := fun e => hl e.symm
    simp [signalStop_handles, hxh]
  | @close h =>
    have hxh : x ≠ h := fun e => hl e.symm
    simp [close_handles, hxh]
  | signal =>
    rw [arrive_handles hs.tree]
    split_ifs <;> rfl
  | pick => split_ifs <;> rfl
  | @complete L m _ _ _ hp =>
    have hxm : x ≠ m.handle := fun e => hd _ _ _ _ _ rfl hp e.symm
    simp [complete_handles, hxm]
  | @finishClose L h =>
    unfold finishClose
    dsimp only
    split_ifs
    · rfl
    · rcases eq_or_ne x h with rfl | hxh
      · simp
      · simp [hxh]

/-- **One-shot mode belongs to the start.** In a run in which a persistent start finds `UV_SIGNAL_ONE_SHOT` clear, and a start
on the number that the handle has finds the flag as it asks for: the dispatch of a message to a started handle stops it
if its last start was one-shot, and only then; nothing else but calls of the user stops it. -/
theorem one_shot_mode (h : ((system valid).restrict (KeepsMode valid)).Reachable s) (ht : step valid s l = some t)
    (hx : (s.handles x).signum ≠ 0) :
    (∀ L m msgs full called, l = .complete L → s.pc L = .handled m msgs full called → m.handle = x →
      ((t.handles x).signum = 0 ↔ (s.ghost x).oneshot = true)) ∧
    ((t.handles x).signum = 0 → l.Stops s x ∨ ∃ L m msgs full called, l = .complete L ∧
      s.pc L = .handled m msgs full called ∧ m.handle = x ∧ (s.ghost x).oneshot = true) := by
  have hinv : ((system valid).restrict (KeepsMode valid)).Inductive fun s => Wf s ∧ FlagIsMode s := by
    apply (wf.restrict _).with_
    · intro s hs x hx
      cases hs
      exact absurd rfl hx
    · intro s l t hw hp ht
      exact hp.step hw.tree ht.1 (step_effect hw ht.2)
  obtain ⟨hw, hp⟩ := hinv.reachable h
  have hdispatch : ∀ L m msgs full called, l = .complete L → s.pc L = .handled m msgs full called → m.handle = x →
      ((t.handles x).signum = 0 ↔ (s.ghost x).oneshot = true) := by
    rintro L m msgs full called rfl hpc rfl
    simp only [step, hpc] at ht
    cases ht
    rw [← hp _ hx, setPc_handles, complete_handles]
    cases ho : (s.handles m.handle).oneShot with
    | false => simpa using hx
    | true => simp
  refine ⟨hdispatch, fun h0 => ?_⟩
  by_contra hno
  obtain ⟨hstop, hmsg⟩ := not_or.1 hno
  apply hx
  rw [← h0]
  symm
  apply stays_started hw ht hx hstop
  rintro L m msgs full called hl hpc hm
  exact hmsg ⟨L, m, msgs, full, called, hl, hpc, hm, (hdispatch L m msgs full called hl hpc hm).1 h0⟩

/-- A one-shot handle is stopped by its first message. -/
theorem one_shot_mode_first : ∃ s t : State, step (fun _ => true) s (.complete 10) = some t ∧ s.pc 10 = .handled ⟨1, 15, 1⟩ [] false true ∧
    (s.handles 1).signum = 15 ∧ ((t.handles 1).signum = 0 ↔ (s.ghost 1).oneshot = true) := by
  have h0 : ((system fun _ => true).restrict (KeepsMode fun _ => true)).Reachable State.fresh := .init rfl
  have h1 := h0.step (l := Label.init 10 1) ⟨trivial, rfl⟩
  have h2 := h1.step (l := Label.start 1 7 15 true) ⟨by simp only [KeepsMode]; decide +kernel, rfl⟩
  have h3 := h2.step (l := Label.signal 15 fun _ => true) ⟨trivial, rfl⟩
  have h4 := h3.step (l := Label.read 10 1) ⟨trivial, rfl⟩
  have h5 := h4.step (l := Label.pick 10) ⟨trivial, rfl⟩
  refine ⟨_, _, rfl, ?_, ?_, (one_shot_mode h5 (x := 1) rfl ?_).1 10 ⟨1, 15, 1⟩ [] false true rfl ?_ rfl⟩ <;> decide +kernel

/-- **A persistent start is stopped by its first signal** if the handle was one-shot before: the flag is never cleared. -/
theorem mode_sticks : ∃ s t : State, (system fun _ => true).Reachable s ∧ step (fun _ => true) s (.complete 10) = some t ∧
    s.pc 10 = .handled ⟨1, 15, 2⟩ [] false true ∧ (s.handles 1).signum = 15 ∧ (s.ghost 1).oneshot = false ∧ (t.handles 1).signum = 0 := by
  obtain ⟨s, hs, hpc, hsig, hg, t, ht, h0⟩ : ∃ s : State,
      [Label.init 10 1, .start 1 7 15 true, .stop 1, .start 1 7 15 false, .signal 15 fun _ => true, .read 10 1, .pick 10].foldlM
        (step fun _ => true) State.fresh = some s ∧
      s.pc 10 = .handled ⟨1, 15, 2⟩ [] false true ∧ (s.handles 1).signum = 15 ∧ (s.ghost 1).oneshot = false ∧
      ∃ t, step (fun _ => true) s (.complete 10) = some t ∧ (t.handles 1).signum = 0 := by
    refine ⟨_, rfl, ?_, ?_, ?_, _, rfl, ?_⟩ <;> decide +kernel
  exact ⟨s, t, (LTS.Reachable.init (T := system fun _ => true) rfl).foldlM (fun _ _ _ h => h) hs, ht, hpc, hsig, hg, h0⟩

end Step

end Libuv.L2.Signal
