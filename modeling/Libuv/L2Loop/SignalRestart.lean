import Libuv.L2Loop.SignalRun

/-!
# Signal watchers: restarts

The dispatch of a message stops a one-shot handle whatever start the message belongs to. `promised` is the start that
has to stand: from a successful `uv_signal_start` until the user stops or closes the handle or a message written since
is dispatched to the callback.

* `start_kept`: it stands as long as one-shot handles get the messages of their last start only, and no started handle is
  restarted with a number that the kernel refuses.
-/
namespace Libuv.L2.Signal

/-- The message whose callback was, or was not, called. -/
def Pc.current : Pc → Option Msg
  | .handled msg _ _ _ => some msg
  | .starting _ _ _ _ back => back.current
  | _ => none

/-- A start of `x` waits for the lock. -/
def Waiting (s : State) (x : ℕ) : Prop := ∃ cb n b back, s.pc (s.handles x).loop = .starting x cb n b back

/-- Every start that has to stand does; between the internal stop and the lock the handle is on its way. -/
def StartKept (s : State) : Prop := ∀ x, (s.ghost x).promised = true → (s.handles x).signum ≠ 0 ∨ Waiting s x

/-- A one-shot handle that is started gets no message of an earlier start; a restart is not refused. -/
def KeepsStart (valid : ℤ → Bool) (s : State) : Label → Prop
  | .complete L => ∀ m msgs full called, s.pc L = .handled m msgs full called → (s.handles m.handle).oneShot = true →
      (s.handles m.handle).signum ≠ 0 → m.start = (s.ghost m.handle).starts
  | .lock L => ∀ h cb n b back, s.pc L = .starting h cb n b back → (s.ghost h).promised = true → Accepted valid s n b
  | _ => True

structure Kept (s : State) : Prop where
  open_ : ∀ x, (s.ghost x).promised = true → (s.handles x).live = true ∧ (s.handles x).closing = false
  current : ∀ L m, (s.pc L).current = some m → m.start = (s.ghost m.handle).starts →
    (s.handles m.handle).signum ≠ 0 → (s.ghost m.handle).promised = false
  kept : StartKept s

section Step
variable {valid : ℤ → Bool} {s t : State} {l : Label} {L h x cb : ℕ} {n : ℤ} {b : Bool} {m : Msg} {back : Pc}

theorem current_mem {pc : Pc} (h : pc.current = some m) : m ∈ pc.msgs := by
  induction pc with
  | handled msg msgs full called =>
    cases h
    exact .head _
  | starting h' cb n b back ih => exact ih h
  | _ => cases h

theorem Wf.current_le (hw : Wf s) (h : (s.pc L).current = some m) : m.start ≤ (s.ghost m.handle).starts :=
  (hw.sound L m (List.mem_append_left _ (current_mem h))).start

/-- Where `x` stands after a step: as before, or stopped, or started anew. -/
def Stands (s t : State) (x : ℕ) : Prop :=
  (t.ghost x).starts = (s.ghost x).starts ∧ ((t.handles x).signum = (s.handles x).signum ∨ (t.handles x).signum = 0) ∧
      ((t.ghost x).promised = true → (s.ghost x).promised = true) ∨ (s.ghost x).starts < (t.ghost x).starts

/-- A start that has to stand is an old one of a handle that was left alone, or a new one. -/
def Holds (s t : State) (x : ℕ) : Prop :=
  (t.ghost x).promised = true →
    ((s.ghost x).promised = true ∧ (t.handles x).live = (s.handles x).live ∧ (t.handles x).closing = (s.handles x).closing ∧
        (t.handles x).loop = (s.handles x).loop ∧ ((t.handles x).signum = (s.handles x).signum ∨ Waiting t x)) ∨
      (t.handles x).live = true ∧ (t.handles x).closing = false ∧ (t.handles x).signum ≠ 0

theorem Stands.of_eq (hh : t.handles x = s.handles x) (hg : t.ghost x = s.ghost x) : Stands s t x :=
  .inl ⟨by rw [hg], .inl (by rw [hh]), by rw [hg]; exact id⟩

theorem Holds.of_eq (hh : t.handles x = s.handles x) (hg : t.ghost x = s.ghost x) : Holds s t x := fun hp =>
  .inl ⟨hg ▸ hp, by rw [hh], by rw [hh], by rw [hh], .inl (by rw [hh])⟩

theorem Kept.next (hs : Kept s) (hw : Wf s) (pc : ∀ M, M ≠ L → t.pc M = s.pc M)
    (nw : t.pc L = s.pc L ∨ ∀ h cb n b back, s.pc L ≠ .starting h cb n b back) (stands : ∀ x, Stands s t x)
    (holds : ∀ x, Holds s t x)
    (cur : ∀ m, (t.pc L).current = some m → (s.pc L).current = some m ∨
      (m.start = (t.ghost m.handle).starts → (t.handles m.handle).signum ≠ 0 → (t.ghost m.handle).promised = false)) :
    Kept t where
  open_ x hp := by
    rcases holds x hp with ⟨hp', hlive, hclosing, -⟩ | ⟨hlive, hclosing, -⟩
    · rw [hlive, hclosing]
      exact hs.open_ x hp'
    · exact ⟨hlive, hclosing⟩
  current M m hm hst hn := by
    have hold : (s.pc M).current = some m → (t.ghost m.handle).promised = false := by
      intro hm'
      have hle := hw.current_le hm'
      rcases stands m.handle with ⟨e, hsig, hprom⟩ | hlt
      · have hn' : (s.handles m.handle).signum ≠ 0 := by
          rcases hsig with e | e
          · rwa [← e]
          · exact absurd e hn
        have hf := hs.current M m hm' (hst.trans e) hn'
        cases hp : (t.ghost m.handle).promised with
        | false => rfl
        | true => rw [hprom hp] at hf; cases hf
      · omega
    rcases eq_or_ne M L with rfl | hM
    · rcases cur m hm with hm' | hnew
      · exact hold hm'
      · exact hnew hst hn
    · rw [pc M hM] at hm
      exact hold hm
  kept x hp := by
    rcases holds x hp with ⟨hp', -, -, hloop, hsig⟩ | ⟨-, -, hsig⟩
    · rcases hsig with hsig | hwait
      · rcases hs.kept x hp' with hn | ⟨cb, n, b, back, hwait⟩
        · exact .inl (hsig ▸ hn)
        · refine .inr ⟨cb, n, b, back, ?_⟩
          rw [hloop]
          rcases eq_or_ne (s.handles x).loop L with hL | hL
          · rcases nw with e | e
            · rw [hL] at hwait ⊢
              rw [e]
              exact hwait
            · exact absurd (hL ▸ hwait) (e _ _ _ _ _)
          · rw [pc _ hL]
            exact hwait
      · exact .inr hwait
    · exact .inl hsig

theorem Kept.quiet (hs : Kept s) (hw : Wf s) (hh : t.handles = s.handles) (hg : t.ghost = s.ghost)
    (pc : ∀ M, M ≠ L → t.pc M = s.pc M) (nw : ∀ h cb n b back, s.pc L ≠ .starting h cb n b back)
    (cur : (t.pc L).current = none) : Kept t := by
  apply hs.next hw pc (.inr nw)
  · exact fun x => .of_eq (by rw [hh]) (by rw [hg])
  · exact fun x => .of_eq (by rw [hh]) (by rw [hg])
  · intro m hm
    rw [cur] at hm
    cases hm

theorem not_starting {pc : Pc} (hc : pc.Calls) : ∀ h cb n b back, pc ≠ .starting h cb n b back := by
  rintro h cb n b back rfl
  exact hc

theorem Kept.call (hs : Kept s) (hw : Wf s) (pc : t.pc = s.pc) (hne : ∀ y, y ≠ x → t.handles y = s.handles y ∧ t.ghost y = s.ghost y)
    (stands : Stands s t x) (holds : Holds s t x) : Kept t := by
  apply hs.next (L := 0) hw (fun M _ => by rw [pc]) (.inl (by rw [pc]))
  · intro y
    rcases eq_or_ne y x with rfl | hy
    · exact stands
    · exact .of_eq (hne y hy).1 (hne y hy).2
  · intro y
    rcases eq_or_ne y x with rfl | hy
    · exact holds
    · exact .of_eq (hne y hy).1 (hne y hy).2
  · intro m hm
    rw [pc] at hm
    exact .inl hm

theorem Kept.init (hs : Kept s) (hw : Wf s) (h0 : (s.handles h).live = false) : Kept (signalInit s L h) := by
  have hprom : (s.ghost h).promised = false := by
    cases hp : (s.ghost h).promised with
    | false => rfl
    | true =>
      rw [(hs.open_ h hp).1] at h0
      cases h0
  apply hs.call hw (x := h)
  · rfl
  · exact fun y hy => ⟨by simp [signalInit, hy], rfl⟩
  · exact .inl ⟨rfl, .inr (by simp [signalInit]), id⟩
  · intro hp
    rw [show (signalInit s L h).ghost h = s.ghost h from rfl, hprom] at hp
    cases hp

theorem Kept.again (hs : Kept s) (hw : Wf s) (hx : Own s h) (hn : n ≠ 0) (he : n = (s.handles h).signum) :
    Kept (mark (put s h { s.handles h with signalCb := cb }) h ((s.ghost h).start b)) := by
  apply hs.call hw (x := h)
  · rfl
  · exact fun y hy => ⟨by simp [hy], by simp [hy]⟩
  · right
    simp [Ghost.start]
  · intro _
    right
    simpa [← he] using ⟨hx.1, hx.2.1, hn⟩

theorem Kept.start (hs : Kept s) (hw : Wf s) (hx : Own s h) (hn : n ≠ 0) : Kept (startLocked valid s h cb n b) := by
  by_cases ha : Accepted valid s n b
  · have hst := @startLocked_started valid s h cb n b ha
    apply hs.call hw (x := h) hst.pc
    · exact fun y hy => ⟨by simp [hst.handles, hy], by simp [hst.ghost, hy]⟩
    · right
      simp [hst.ghost, Ghost.start]
    · intro _
      right
      simpa [hst.handles] using ⟨hx.1, hx.2.1, hn⟩
  · rwa [startLocked_refused ha]

theorem Kept.restart (hs : Kept s) (hw : Wf s) (hx : Own s h) :
    Kept ((signalStop s h).setPc (s.handles h).loop (.starting h cb n b (s.pc (s.handles h).loop))) := by
  obtain ⟨hpipe, hpc, hcl, hg⟩ := signalStop_frame (s := s) h
  apply hs.next (L := (s.handles h).loop) hw
  · intro M hM
    simp [hM, hpc]
  · exact .inr (not_starting hx.2.2)
  · intro x
    refine .inl ⟨by simp [hg], ?_, by simp [hg]⟩
    rcases eq_or_ne x h with rfl | hxh
    · simp [signalStop_handles]
    · simp [signalStop_handles, hxh]
  · intro x hp
    rcases eq_or_ne x h with rfl | hxh
    · refine .inl ⟨?_, ?_, ?_, ?_, .inr ⟨cb, n, b, s.pc (s.handles x).loop, ?_⟩⟩
      · simpa [hg] using hp
      all_goals simp [signalStop_handles]
    · exact Holds.of_eq (by simp [signalStop_handles, hxh]) (by simp [hg]) hp
  · intro m hm
    left
    simpa [Pc.current] using hm

theorem Kept.lock (hs : Kept s) (hw : Wf s) (hp : s.pc L = .starting h cb n b back)
    (hc : (s.ghost h).promised = true → Accepted valid s n b) : Kept ((startLocked valid s h cb n b).setPc L back) := by
  have hwt := hw.waits _ _ _ _ _ _ hp
  obtain ⟨hpc, -, -, hne⟩ := startLocked_frame valid s h cb n b
  -- the handles other than `h` do not wait in this loop
  have hother {x} (hxh : x ≠ h) : (s.ghost x).promised = true → (s.handles x).signum ≠ 0 ∨
      Waiting ((startLocked valid s h cb n b).setPc L back) x := by
    intro hx
    rcases hs.kept x hx with hn | ⟨cb', n', b', back', hwait⟩
    · exact .inl hn
    · refine .inr ⟨cb', n', b', back', ?_⟩
      rw [setPc_handles, (hne x hxh).1, setPc_pc, hpc]
      rw [Function.update_of_ne]
      · exact hwait
      · rintro e
        rw [e, hp, Pc.starting.injEq] at hwait
        exact hxh hwait.1.symm
  have hcur {M m} (hm : (((startLocked valid s h cb n b).setPc L back).pc M).current = some m) : (s.pc M).current = some m := by
    rcases eq_or_ne M L with rfl | hM
    · rw [hp]
      simpa [Pc.current] using hm
    · simpa [hM, hpc] using hm
  by_cases ha : Accepted valid s n b
  · have hst := @startLocked_started valid s h cb n b ha
    constructor
    · intro x hx
      rcases eq_or_ne x h with rfl | hxh
      · simpa [hst.handles] using ⟨hwt.live, hwt.open_⟩
      · rw [setPc_handles, (hne x hxh).1]
        rw [setPc_ghost, (hne x hxh).2] at hx
        exact hs.open_ x hx
    · intro M m hm heq hn
      rcases eq_or_ne m.handle h with hmh | hmh
      · have hle := hw.current_le (hcur hm)
        rw [setPc_ghost, hst.ghost, hmh, Function.update_self] at heq
        rw [hmh] at hle
        simp only [Ghost.start] at heq
        omega
      · rw [setPc_handles, (hne _ hmh).1] at hn
        rw [setPc_ghost, (hne _ hmh).2] at heq ⊢
        exact hs.current M m (hcur hm) heq hn
    · intro x hx
      rcases eq_or_ne x h with rfl | hxh
      · left
        simpa [hst.handles] using hwt.number
      · rw [setPc_ghost, (hne x hxh).2] at hx
        rcases hother hxh hx with hn | hwait
        · left
          rwa [setPc_handles, (hne x hxh).1]
        · exact .inr hwait
  · rw [startLocked_refused ha] at hother hcur ⊢
    constructor
    · exact hs.open_
    · intro M m hm
      exact hs.current M m (hcur hm)
    · intro x hx
      apply hother _ hx
      rintro rfl
      exact ha (hc hx)

theorem Kept.stop (hs : Kept s) (hw : Wf s) : Kept (mark (signalStop s h) h { (signalStop s h).ghost h with promised := false }) := by
  obtain ⟨-, hpc, -, hg⟩ := signalStop_frame (s := s) h
  apply hs.call hw (x := h)
  · exact hpc
  · exact fun y hy => ⟨by simp [signalStop_handles, hy], by simp [hg, hy]⟩
  · exact .inl ⟨by simp [hg], by simp [signalStop_handles], by simp⟩
  · intro hp
    simp at hp

theorem Kept.close (hs : Kept s) (hw : Wf s) : Kept (mark (close s h) h { (close s h).ghost h with promised := false }) := by
  obtain ⟨-, hpc, hg, -⟩ := close_frame (s := s) h
  apply hs.call hw (x := h)
  · exact hpc
  · exact fun y hy => ⟨by simp [close_handles, hy], by simp [hg, hy]⟩
  · exact .inl ⟨by simp [hg], by simp [close_handles], by simp⟩
  · intro hp
    simp at hp

theorem Kept.arrive (hs : Kept s) (hw : Wf s) (n : ℤ) (ok : ℕ → Bool) : Kept (arrive s n ok) := by
  have hpc := (arrive_frame (s := s) n ok).2.1
  have hh (x) : ((Signal.arrive s n ok).handles x).live = (s.handles x).live ∧
      ((Signal.arrive s n ok).handles x).closing = (s.handles x).closing ∧
      ((Signal.arrive s n ok).handles x).loop = (s.handles x).loop ∧
      ((Signal.arrive s n ok).handles x).signum = (s.handles x).signum := by
    rw [arrive_handles hw.tree]
    split_ifs <;> exact ⟨rfl, rfl, rfl, rfl⟩
  have hg (x) : ((Signal.arrive s n ok).ghost x).starts = (s.ghost x).starts ∧
      ((Signal.arrive s n ok).ghost x).promised = (s.ghost x).promised := by
    rw [arrive_ghost hw.tree]
    split_ifs <;> exact ⟨rfl, rfl⟩
  apply hs.next (L := 0) hw (fun M _ => by rw [hpc]) (.inl (by rw [hpc]))
  · exact fun x => .inl ⟨(hg x).1, .inl (hh x).2.2.2, by rw [(hg x).2]; exact id⟩
  · exact fun x hp => .inl ⟨(hg x).2 ▸ hp, (hh x).1, (hh x).2.1, (hh x).2.2.1, .inl (hh x).2.2.2⟩
  · intro m hm
    rw [hpc] at hm
    exact .inl hm

theorem Kept.pick (hs : Kept s) (hw : Wf s) {msgs : List Msg} {full called : Bool} (hp : s.pc L = .messages (m :: msgs) full)
    (hcalled : called = true ↔ m.signum = (s.handles m.handle).signum) :
    Kept (State.setPc (if called = true ∧ m.start = (s.ghost m.handle).starts then
      mark s m.handle { s.ghost m.handle with promised := false } else s) L (.handled m msgs full called)) := by
  have hsound := hw.sound L m (by simp [outstanding, hp, Pc.msgs])
  have hnw : ∀ h cb n b back, s.pc L ≠ .starting h cb n b back := by
    rw [hp]
    simp
  split_ifs with hc
  · apply hs.next (L := L) hw (fun M hM => by simp [hM]) (.inr hnw)
    · intro x
      refine .inl ⟨?_, .inl rfl, ?_⟩ <;> rcases eq_or_ne x m.handle with rfl | hx <;> simp [*]
    · intro x hx
      rcases eq_or_ne x m.handle with rfl | hxm
      · simp at hx
      · exact Holds.of_eq rfl (by simp [hxm]) hx
    · intro m' hm'
      simp only [setPc_pc, Function.update_self, Pc.current, Option.some.injEq] at hm'
      subst hm'
      right
      simp
  · apply hs.next (L := L) hw (fun M hM => by simp [hM]) (.inr hnw)
    · exact fun x => .of_eq rfl rfl
    · exact fun x => .of_eq rfl rfl
    · intro m' hm'
      simp only [setPc_pc, Function.update_self, Pc.current, Option.some.injEq] at hm'
      subst hm'
      refine .inr fun hst hn => ?_
      exact absurd ⟨hcalled.2 (hsound.current hst hn), hst⟩ hc

theorem Kept.complete (hs : Kept s) (hw : Wf s) {msgs : List Msg} {full called : Bool} (hp : s.pc L = .handled m msgs full called)
    (hc : (s.handles m.handle).oneShot = true → (s.handles m.handle).signum ≠ 0 → m.start = (s.ghost m.handle).starts) :
    Kept ((complete s m.handle).setPc L (.messages msgs full)) := by
  obtain ⟨-, hpc, -, hg⟩ := complete_frame (s := s) m.handle
  have hcur := hs.current L m (by rw [hp]; rfl)
  apply hs.next (L := L) hw
  · intro M hM
    simp [hM, hpc]
  · right
    rw [hp]
    nofun
  · intro x
    refine .inl ⟨by simp [hg], ?_, by simp [hg]⟩
    rcases eq_or_ne x m.handle with rfl | hx
    · cases ho : (s.handles m.handle).oneShot <;> simp [complete_handles, ho]
    · simp [complete_handles, hx]
  · intro x hx
    rw [setPc_ghost, hg] at hx
    rcases eq_or_ne x m.handle with rfl | hxm
    · refine .inl ⟨hx, by simp [complete_handles], by simp [complete_handles], by simp [complete_handles], .inl ?_⟩
      simp only [setPc_handles, complete_handles, Function.update_self]
      split_ifs with ho
      · by_contra hn
        have hf := hcur (hc ho fun e => hn e.symm) fun e => hn e.symm
        rw [hf] at hx
        cases hx
      · rfl
    · exact Holds.of_eq (by simp [complete_handles, hxm]) (by simp [hg]) (by rwa [setPc_ghost, hg])
  · intro m' hm'
    simp [Pc.current] at hm'

theorem Kept.finishClose (hs : Kept s) (hw : Wf s) {p : List ℕ} (hp : s.pc L = .closing (h :: p)) :
    Kept ((finishClose s h).setPc L (.closing p)) := by
  have hclosing := (hw.closes_head hp).2.1.closing
  have hnw : ∀ h cb n b back, s.pc L ≠ .starting h cb n b back := by
    rw [hp]
    nofun
  have hprom : (s.ghost h).promised = false := by
    cases hpr : (s.ghost h).promised with
    | false => rfl
    | true =>
      rw [(hs.open_ h hpr).2] at hclosing
      cases hclosing
  unfold Signal.finishClose
  dsimp only
  split_ifs
  · exact hs.quiet (L := L) hw rfl rfl (fun M hM => by simp [hM]) hnw (by simp [Pc.current])
  · apply hs.next (L := L) hw (fun M hM => by simp [hM]) (.inr hnw)
    · intro x
      refine .inl ⟨rfl, .inl ?_, id⟩
      rcases eq_or_ne x h with rfl | hx <;> simp [*]
    · intro x hx
      rcases eq_or_ne x h with rfl | hxh
      · rw [setPc_ghost, put_ghost, hprom] at hx
        cases hx
      · exact Holds.of_eq (by simp [hxh]) rfl hx
    · intro m hm
      simp [Pc.current] at hm

theorem Kept.step (hs : Kept s) (hw : Wf s) (hc : KeepsStart valid s l) (ht : step valid s l = some t) : Kept t := by
  cases step_cases ht with
  | init h0 => exact hs.init hw h0
  | zero => exact hs
  | again own hn hsig => exact hs.again hw own hn hsig
  | restart own => exact hs.restart hw own
  | start own hn => exact hs.start hw own hn
  | lock hp => exact hs.lock hw hp (hc _ _ _ _ _ hp)
  | stop => exact hs.stop hw
  | close => exact hs.close hw
  | signal => exact hs.arrive hw _ _
  | @read L _ hp =>
    apply hs.quiet (L := L) hw
    · rfl
    · rfl
    · exact fun M hM => by simp [hM]
    · rcases hp with e | e <;> rw [e] <;> simp
    · simp [Pc.current]
  | @drained L hp | @runClosing L hp | @closed L hp =>
    apply hs.quiet (L := L) hw
    · rfl
    · rfl
    · exact fun M hM => by simp [hM]
    · rw [hp]
      simp
    · simp [Pc.current]
  | pick hp called hcalled => exact hs.pick hw hp hcalled
  | complete hp => exact hs.complete hw hp (hc _ _ _ _ hp)
  | @next L full hp =>
    apply hs.quiet (L := L) hw
    · rfl
    · rfl
    · exact fun M hM => by simp [hM]
    · rw [hp]
      simp
    · cases full <;> simp [Pc.current]
  | finishClose hp => exact hs.finishClose hw hp

/-- **A start is not undone by an older signal.** In a run in which a one-shot handle that is started is sent no message of an
earlier start, and no restart of a started handle is refused by the kernel: a handle stays started from a successful start
until it is stopped or closed by the user or a message written since is dispatched to its callback. -/
theorem start_kept (h : ((system valid).restrict (KeepsStart valid)).Reachable s) : StartKept s := by
  have hinv : ((system valid).restrict (KeepsStart valid)).Inductive fun s => Wf s ∧ Kept s := by
    apply (wf.restrict _).with_
    · intro s hs
      cases hs
      constructor <;> nofun
    · intro s l t hw hk ht
      exact hk.step hw ht.1 ht.2
  exact (hinv.reachable h).2.kept

/-- A persistent handle is stopped and started on another signal while a message is on its way. -/
theorem start_kept_restarted : ∃ s : State, (s.handles 1).dispatchedSignals = 1 ∧ (s.ghost 1).starts = 2 ∧
    (s.handles 1).signum = 12 ∧ StartKept s := by
  have h0 : ((system fun _ => true).restrict (KeepsStart fun _ => true)).Reachable State.fresh := .init rfl
  have h1 := h0.step (l := Label.init 10 1) ⟨trivial, rfl⟩
  have h2 := h1.step (l := Label.start 1 7 15 false) ⟨trivial, rfl⟩
  have h3 := h2.step (l := Label.signal 15 fun _ => true) ⟨trivial, rfl⟩
  have h4 := h3.step (l := Label.start 1 7 12 false) ⟨trivial, rfl⟩
  have h5 := h4.step (l := Label.lock 10) ⟨fun _ _ _ _ _ _ _ _ => rfl, rfl⟩
  have h6 := h5.step (l := Label.read 10 1) ⟨trivial, rfl⟩
  have h7 := h6.step (l := Label.pick 10) ⟨trivial, rfl⟩
  have h8 := h7.step (l := Label.complete 10) ⟨?_, rfl⟩
  · refine ⟨_, ?_, ?_, ?_, start_kept h8⟩ <;> decide +kernel
  · intro m msgs full called hp ho
    obtain ⟨rfl, -⟩ : (⟨1, 15, 1⟩ : Msg) = m ∧ True := by
      refine ⟨?_, trivial⟩
      injection hp
    exact absurd ho (by decide +kernel)

/-- **A one-shot handle is stopped by a signal that arrived before its last start**: here on another number, so that not even
the callback is called. -/
theorem start_undone : ¬∀ s, (system fun _ => true).Reachable s → StartKept s := by
  intro hall
  obtain ⟨s, hs, hp, hsig, hl, hpc⟩ : ∃ s : State,
      [Label.init 10 1, .start 1 7 15 true, .signal 15 fun _ => true, .start 1 7 12 true, .lock 10, .read 10 1, .pick 10,
        .complete 10].foldlM (step fun _ => true) State.fresh = some s ∧
      (s.ghost 1).promised = true ∧ (s.handles 1).signum = 0 ∧ (s.handles 1).loop = 10 ∧ s.pc 10 = .messages [] false := by
    refine ⟨_, rfl, ?_, ?_, ?_, ?_⟩ <;> decide +kernel
  have h := (LTS.Reachable.init (T := system fun _ => true) rfl).foldlM (fun _ _ _ h => h) hs
  rcases hall s h 1 hp with hn | ⟨cb, n, b, back, hw⟩
  · exact hn hsig
  · rw [hl, hpc] at hw
    cases hw

end Step

end Libuv.L2.Signal
