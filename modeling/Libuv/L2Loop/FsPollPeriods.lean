import Libuv.L2Loop.FsPoll

/-!
# The periods of an fs_poll handle (`fs-poll.c`)

`poll_cb` asks whether the handle is active, not whether it is active for its own context. A
stat request that is in flight over a stop and a new start finds the handle active: the callback
of the old period is called, the old timer is started, and when it expires the assertion of
`timer_cb` fails. The same happens when the user's callback stops the handle and starts it again.

* `periods_isolated`: while every result that the handle takes notice of belongs to its
  context, no callback of an ended period is called, only the timer of the active period runs
  and nothing fails; a result that does not, breaks this at once.
* `periods_overlap`: the old callback is called and the assertion fails.
-/
namespace Libuv.L2.FsPoll

variable {s t : State} {c : ℕ} {x y : PollCtx} {l : List ℕ}

/-- If the handle takes notice of a result for `c`, `c` is its context. -/
def Current (s : State) (c : ℕ) : Prop := ¬ Off s → s.pollCtx = some c

/-- The results taken up by a step, at both places where `poll_cb` looks at the handle. -/
def Timely (s : State) : Label → Prop
  | .stat c _ _ => Current s c
  | .ret => ∀ c, s.pc.ctx = some c → Current s c
  | _ => True

/-- No callback has been called after its period, and no timer runs outside of its own. -/
structure Isolated (s : State) : Prop where
  quiet : s.late = []
  running : ∀ c x, s.ctxs c = some x → x.timer.isActive = true → s.active = true ∧ s.period = some c

theorem Isolated.congr (hs : Isolated s) (hl : t.late = s.late) (ha : t.active = s.active) (hp : t.period = s.period)
    (hx : ∀ c y, t.ctxs c = some y → y.timer.isActive = true → ∃ x, s.ctxs c = some x ∧ x.timer.isActive = true) :
    Isolated t := by
  refine ⟨hl.trans hs.quiet, fun c y hy hr => ?_⟩
  obtain ⟨x, h1, h2⟩ := hx c y hy hr
  rw [ha, hp]
  exact hs.running c x h1 h2

theorem Isolated.put (hs : Isolated s) (hy : y.timer.isActive = true → s.active = true ∧ s.period = some c) (pc : Pc) :
    Isolated { s.put c y with pc := pc } := by
  refine ⟨hs.quiet, fun d z hz hr => ?_⟩
  by_cases hd : d = c
  · subst hd
    rw [put_ctxs_self] at hz
    cases hz
    exact hy hr
  · rw [put_ctxs_other hd] at hz
    exact hs.running d z hz hr

theorem active_of_not_off (ho : ¬ Off s) : s.active = true := by
  cases ha : s.active with
  | true => rfl
  | false => exact absurd (.inl ha) ho

theorem Contexts.current_iff (hs : Contexts s l) (ha : s.active = true) : s.pollCtx = some c ↔ s.period = some c := by
  obtain ⟨d, x, h1, h2, -⟩ := hs.current ha
  rw [h1, h2]

/-- A timer that `out` has started, or is about to, runs in its own period if the result is timely. -/
theorem Contexts.settled_iff (hs : Contexts s l) (ho : Off s → y.timer = .closing) (hn : ¬ Off s → y.timer.isActive = true) :
    (y.timer.isActive = true → s.active = true ∧ s.period = some c) ↔ Current s c := by
  constructor
  · intro h hoff
    exact (hs.current_iff (active_of_not_off hoff)).2 (h (hn hoff)).2
  · intro hc hr
    have hoff : ¬ Off s := by
      intro h
      rw [ho h] at hr
      cases hr
    have ha := active_of_not_off hoff
    exact ⟨ha, (hs.current_iff ha).1 (hc hoff)⟩

theorem isolated_put_iff (hs : Isolated s) (pc : Pc) :
    Isolated { s.put c y with pc := pc } ↔ (y.timer.isActive = true → s.active = true ∧ s.period = some c) :=
  ⟨fun h hr => h.running c y put_ctxs_self hr, fun h => hs.put h pc⟩

theorem Contexts.mem_ended_iff (hs : Contexts s l) (hc : c ∈ l) (ha : s.active = true) : c ∈ s.ended ↔ s.pollCtx ≠ some c := by
  rw [Ne, hs.current_iff ha]
  constructor
  · exact fun h => hs.open_ ha c h
  · intro h
    exact (hs.ended c hc).resolve_right fun h' => h h'.2

/-- **A result** keeps the periods apart exactly if it is timely. -/
theorem Isolated.pollCb (hs : Isolated s) (hi : Inv s l) (hx : s.ctxs c = some x) (ht : x.timer = .inactive)
    {result : ℤ} {statbuf : Stat} (h : s.pollCb c result statbuf = some t) : Isolated t ↔ Current s c := by
  have hc : c ∈ l := (hi.mem c).2 ⟨x, hx⟩
  obtain ⟨y, -, -, ⟨he, h1, h2⟩ | ⟨hn, he, hy⟩⟩ := pollCb_spec hx ht result statbuf
  · rw [he] at h
    cases h
    exact (isolated_put_iff hs s.pc).trans (hi.toContexts.settled_iff h1 h2)
  · rw [he] at h
    cases h
    have ha := active_of_not_off hn
    have hmem := hi.toContexts.mem_ended_iff hc ha
    by_cases hcur : s.pollCtx = some c
    · refine iff_of_true ⟨?_, ?_⟩ fun _ => hcur
      · show (if c ∈ s.ended then s.late ++ [c] else s.late) = []
        rw [if_neg (by rw [hmem]; exact fun h => h hcur)]
        exact hs.quiet
      · exact (hs.put (c := c) (y := y) (fun hr => by rw [hy] at hr; cases hr) s.pc).running
    · refine iff_of_false (fun h => ?_) fun h => hcur (h hn)
      have := h.quiet
      change (if c ∈ s.ended then s.late ++ [c] else s.late) = [] at this
      rw [if_pos (hmem.2 hcur)] at this
      simp at this

theorem Isolated.returned (hs : Isolated s) (hi : Inv s l) {result : ℤ} {statbuf : Stat}
    (hpc : s.pc = .callback c result statbuf) (h : s.returned c result statbuf = some t) : Isolated t ↔ Current s c := by
  have hctx : s.pc.ctx = some c := by rw [hpc]; rfl
  obtain ⟨x, hx⟩ := (hi.mem c).1 (hi.calling c hctx)
  have hw := hi.waits c x hx
  rw [Waits, if_pos hctx] at hw
  obtain ⟨y, -, -, he, h1, h2⟩ := returned_spec hx hw.2 hw.1 result statbuf
  rw [he] at h
  cases h
  exact (isolated_put_iff hs .idle).trans (hi.toContexts.settled_iff h1 h2)

theorem Isolated.start (hs : Isolated s) (mem ok : Bool) (interval : ℕ) : Isolated (s.start mem ok interval) := by
  unfold State.start
  by_cases ha : s.active = true
  · rwa [if_pos ha]
  rw [if_neg ha]
  by_cases hm : mem = false
  · rwa [if_pos hm]
  rw [if_neg hm]
  by_cases hk : ok = false
  · rw [if_pos hk]
    exact ⟨hs.quiet, hs.running⟩
  rw [if_neg hk]
  refine ⟨hs.quiet, fun c x hx hr => ?_⟩
  by_cases hc : c = s.fresh
  · subst hc
    simp only [Function.update_self, Option.some.injEq] at hx
    rw [← hx] at hr
    cases hr
  · have hx : s.ctxs c = some x := by simpa [hc] using hx
    exact absurd (hs.running c x hx hr).1 ha

theorem Isolated.stop (hs : Isolated s) (hc : Contexts s l) (h : s.stop = some t) : Isolated t := by
  obtain ⟨u, hu, -, -, -, -, -, -, hl, hr⟩ := hc.stop
  rw [h] at hu
  cases hu
  refine ⟨hl.trans hs.quiet, fun c x hx hact => ?_⟩
  obtain ⟨h1, h2⟩ := hr c x hx hact
  obtain ⟨ha, hp⟩ := hs.running c x h1 hact
  exact absurd hp (h2 ha)

/-- Nothing has changed but the contexts, `closePending` and where the chain begins. -/
structure Same (s t : State) : Prop where
  late : t.late = s.late
  active : t.active = s.active
  period : t.period = s.period
  fresh : t.fresh = s.fresh
  pc : t.pc = s.pc

theorem makeClosePending_same (h : s.makeClosePending = some t) : Same s t ∧ t.ctxs = s.ctxs := by
  unfold State.makeClosePending at h
  split at h
  · cases h
    exact ⟨⟨rfl, rfl, rfl, rfl, rfl⟩, rfl⟩
  · cases h

theorem Isolated.close (hs : Isolated s) (hc : Contexts s l) (h : s.close = some t) : Isolated t := by
  unfold State.close at h
  split at h
  · cases h
  obtain ⟨u, hu, h⟩ := Option.bind_eq_some_iff.1 h
  have hi : Isolated u := Isolated.stop (s := { s with closing := true }) ⟨hs.quiet, hs.running⟩ { hc with } hu
  split at h
  · obtain ⟨hsame, hx⟩ := makeClosePending_same h
    exact hi.congr hsame.late hsame.active hsame.period fun c y hy hr => ⟨y, hx ▸ hy, hr⟩
  · cases h
    exact hi

theorem Isolated.timerCb (hs : Isolated s) (h : s.timerCb c = some t) : Isolated t := by
  obtain ⟨x, -, h⟩ := Option.bind_eq_some_iff.1 h
  simp only at h
  split at h
  · cases h
    exact hs.put (y := { x with timer := .inactive, startTime := s.now, stat := true }) (fun hr => by cases hr) s.pc
  · cases h

theorem unlink_same (h : s.unlink c x = some t) : Same s t ∧
    ∀ d y, t.ctxs d = some y → ∃ x, s.ctxs d = some x ∧ y.timer = x.timer := by
  unfold State.unlink at h
  split at h
  · simp only at h
    split at h
    · obtain ⟨⟨h1, h2, h3, h4, h5⟩, hx⟩ := makeClosePending_same h
      exact ⟨⟨h1, h2, h3, h4, h5⟩, fun d y hy => ⟨y, by rw [hx] at hy; exact hy, rfl⟩⟩
    · cases h
      exact ⟨⟨rfl, rfl, rfl, rfl, rfl⟩, fun d y hy => ⟨y, hy, rfl⟩⟩
  · obtain ⟨a, -, h⟩ := Option.bind_eq_some_iff.1 h
    obtain ⟨b, -, h⟩ := Option.bind_eq_some_iff.1 h
    obtain ⟨z, hz, h⟩ := Option.bind_eq_some_iff.1 h
    cases h
    refine ⟨⟨rfl, rfl, rfl, rfl, rfl⟩, fun d y hy => ?_⟩
    by_cases hd : d = b
    · subst hd
      rw [put_ctxs_self] at hy
      cases hy
      exact ⟨z, hz, rfl⟩
    · exact ⟨y, by rwa [put_ctxs_other hd] at hy, rfl⟩

theorem timerCloseCb_same (h : s.timerCloseCb c = some t) : Same s t ∧ t.ctxs c = none ∧
    ∀ d y, t.ctxs d = some y → ∃ x, s.ctxs d = some x ∧ y.timer = x.timer := by
  obtain ⟨x, -, h⟩ := Option.bind_eq_some_iff.1 h
  obtain ⟨u, hu, h⟩ := Option.bind_eq_some_iff.1 h
  cases h
  obtain ⟨⟨h1, h2, h3, h4, h5⟩, hx⟩ := unlink_same hu
  refine ⟨⟨h1, h2, h3, h4, h5⟩, Function.update_self .., fun d y hy => ?_⟩
  have hd : d ≠ c := by
    intro e
    simp [e] at hy
  exact hx d y (by simpa [hd] using hy)

theorem Isolated.timerCloseCb (hs : Isolated s) (h : s.timerCloseCb c = some t) : Isolated t := by
  obtain ⟨hsame, -, hx⟩ := timerCloseCb_same h
  refine hs.congr hsame.late hsame.active hsame.period fun d y hy hr => ?_
  obtain ⟨z, hz, ht⟩ := hx d y hy
  exact ⟨z, hz, by rwa [← ht]⟩

theorem Isolated.step (hs : Isolated s) (hi : Inv s l) {lab : Label} (he : enabled s lab) (h : step s lab = some t) :
    Isolated t ↔ Timely s lab := by
  cases lab with
  | start mem ok interval =>
    cases h
    exact iff_of_true (hs.start mem ok interval) trivial
  | stop => exact iff_of_true (hs.stop hi.toContexts h) trivial
  | close => exact iff_of_true (hs.close hi.toContexts h) trivial
  | stat c result statbuf =>
    obtain ⟨hpc, x, hx, hst⟩ : s.pc = .idle ∧ ∃ x, s.ctxs c = some x ∧ x.stat = true := by
      simpa [enabled, Option.any_eq_true] using he
    exact hs.pollCb hi hx (hi.toContexts.timer_inactive hpc hx hst) h
  | timer c => exact iff_of_true (hs.timerCb h) trivial
  | timerClosed c => exact iff_of_true (hs.timerCloseCb h) trivial
  | ret =>
    cases hpc : s.pc with
    | idle => simp [enabled, hpc] at he
    | callback c result statbuf =>
      rw [FsPoll.step, hpc] at h
      refine (hs.returned hi hpc h).trans ?_
      simp [Timely, hpc, Pc.ctx]
  | updateTime now =>
    cases h
    exact iff_of_true ⟨hs.quiet, hs.running⟩ trivial

theorem Isolated.defined (hs : Isolated s) (hi : Inv s l) {lab : Label} (he : enabled s lab) : ∃ t, FsPoll.step s lab = some t := by
  refine (hi.step he).1 ?_
  cases lab with
  | timer c =>
    obtain ⟨-, x, hx, hr⟩ : s.pc = .idle ∧ ∃ x, s.ctxs c = some x ∧ x.timer.isActive = true := by
      simpa [enabled, Option.any_eq_true] using he
    obtain ⟨ha, hp⟩ := hs.running c x hx hr
    exact (hi.toContexts.current_iff ha).2 hp
  | _ => trivial

theorem isolated_inductive : (system.restrict Timely).Inductive fun s => (∃ l, Inv s l) ∧ Isolated s := by
  refine (inv_inductive.restrict Timely).with_ ?_ ?_
  · rintro s ⟨now, rfl⟩
    refine ⟨rfl, fun c x hx hr => ?_⟩
    simp [initial] at hx
  · rintro s lab t ⟨l, hi⟩ hs hst
    exact (hs.step hi hst.2.1 hst.2.2).2 hst.1

/-- **Periods are isolated** in every run whose results are timely: no callback is called after
the stop that ended its period, the only timer that runs is the one of the active period, whose
stat request is not in flight then, and nothing that may happen next fails. A step that is
not timely ends this, whatever its result. -/
theorem periods_isolated (h : (system.restrict Timely).Reachable s) : s.late = [] ∧
    (∀ c x, s.ctxs c = some x → x.timer.isActive = true → s.active = true ∧ s.period = some c ∧ x.stat = false) ∧
    (∀ l, enabled s l → ∃ t, step s l = some t) ∧
    (∀ l t, enabled s l → step s l = some t → (Isolated t ↔ Timely s l)) := by
  obtain ⟨⟨l, hi⟩, hs⟩ := isolated_inductive.reachable h
  refine ⟨hs.quiet, fun c x hx hr => ?_, fun lab he => ?_, fun lab t he ht => hs.step hi he ht⟩
  · obtain ⟨ha, hp⟩ := hs.running c x hx hr
    refine ⟨ha, hp, ?_⟩
    have hw := hi.waits c x hx
    unfold Waits at hw
    split at hw
    · exact hw.1
    · rcases hw with h | h
      · rw [h.2] at hr
        cases hr
      · exact h.1
  · exact hs.defined hi he

/-- A path that is not there is reported, the handle stopped with its timer running, and started again
before the timer is closed. -/
theorem periods_isolated_restart : ∃ s : State, (system.restrict Timely).Reachable s ∧ s.period = some 1 ∧
    s.freed = [0] ∧ s.late = [] := by
  have h := LTS.Reachable.init (T := system.restrict Timely) (s := initial 0) ⟨0, rfl⟩
  have h := h.step (l := Label.start true true 5) ⟨trivial, rfl, rfl⟩
  have h := h.step (l := Label.stat 0 (-2) zeroStatbuf) ⟨fun _ => rfl, rfl, rfl⟩
  have h := h.step (l := Label.ret) ⟨fun _ hc _ => hc, rfl, rfl⟩
  have h := h.step (l := Label.stop) ⟨trivial, rfl, rfl⟩
  have h := h.step (l := Label.start true true 5) ⟨trivial, rfl, rfl⟩
  have h := h.step (l := Label.timerClosed 0) ⟨trivial, rfl, rfl⟩
  exact ⟨_, h, rfl, rfl, (periods_isolated h).1⟩

/-- The handle is stopped and started again with the first stat request in flight: its result goes
to the first callback, its timer is started, and `timer_cb` fails when it expires. -/
theorem periods_overlap : ∃ s : State, system.Reachable s ∧ s.late = [0] ∧ enabled s (.timer 0) ∧ step s (.timer 0) = none := by
  obtain ⟨s, hs, hl, he, hn⟩ : ∃ s : State,
      [Label.start true true 5, .stop, .start true true 5, .stat 0 (-2) zeroStatbuf, .ret].foldlM
        (fun s l => if enabled s l then step s l else none) (initial 0) = some s ∧
      s.late = [0] ∧ enabled s (.timer 0) = true ∧ step s (.timer 0) = none := by
    refine ⟨_, rfl, rfl, rfl, rfl⟩
  refine ⟨s, (LTS.Reachable.init (T := system) ⟨0, rfl⟩).foldlM (fun s l t h => ?_) hs, hl, he, hn⟩
  split at h
  · next he => exact ⟨he, h⟩
  · cases h

end Libuv.L2.FsPoll
