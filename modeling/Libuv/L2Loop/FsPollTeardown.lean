import Libuv.L2Loop.FsPollPeriods

/-!
# The teardown of an fs_poll handle (`fs-poll.c`)

After `uv_close` the contexts of all periods are in the chain, each with its stat request in flight
or its timer closing, and leave it in the order in which these are taken up. `left` says how
many callbacks of the loop are still to come.

* `teardown`: the same for the runs in which nothing is taken up before `uv_close`.
-/
namespace Libuv.L2.FsPoll

variable {s t : State} {c : ℕ} {x y : PollCtx} {l : List ℕ}

def weight (x : Option PollCtx) : ℕ :=
  match x with
  | none => 0
  | some x => if x.timer = .closing then 1 else 2

def left (s : State) : ℕ := ∑ c ∈ Finset.range s.fresh, weight (s.ctxs c)

/-- A callback of the loop, or the return from the user's. -/
def Completes : Label → Prop
  | .stat .. => True
  | .timer _ => True
  | .timerClosed _ => True
  | .ret => True
  | _ => False

theorem left_lt (hc : c < s.fresh) (hf : t.fresh = s.fresh) (hlt : weight (t.ctxs c) < weight (s.ctxs c))
    (hle : ∀ d, d ≠ c → weight (t.ctxs d) ≤ weight (s.ctxs d)) : left t < left s := by
  unfold left
  rw [hf]
  refine Finset.sum_lt_sum (fun d _ => ?_) ⟨c, Finset.mem_range.2 hc, hlt⟩
  by_cases hd : d = c
  · rw [hd]
    exact hlt.le
  · exact hle d hd

theorem left_put (hx : s.ctxs c = some x) (hc : c < s.fresh) (ht : x.timer ≠ .closing) (hy : y.timer = .closing) (pc : Pc) :
    left { s.put c y with pc := pc } < left s := by
  refine left_lt hc rfl ?_ fun d hd => ?_
  · show weight ((s.put c y).ctxs c) < _
    rw [put_ctxs_self, hx, weight, weight, if_pos hy, if_neg ht]
    exact Nat.lt_succ_self 1
  · show weight ((s.put c y).ctxs d) ≤ _
    rw [put_ctxs_other hd]

theorem Inv.left_lt (hs : Inv s l) (hiso : Isolated s) (hc : s.closing = true) {lab : Label} (hl : Completes lab)
    (he : enabled s lab) (h : FsPoll.step s lab = some t) : left t < left s := by
  have hoff : Off s := .inr hc
  have hlt : ∀ {c x}, s.ctxs c = some x → c < s.fresh := fun hx => (hs.fresh _).2 (.inl ((hs.mem _).2 ⟨_, hx⟩))
  cases lab with
  | start | stop | close | updateTime => cases hl
  | stat c result statbuf =>
    obtain ⟨hpc, x, hx, hst⟩ : s.pc = .idle ∧ ∃ x, s.ctxs c = some x ∧ x.stat = true := by
      simpa [enabled, Option.any_eq_true] using he
    have ht := hs.toContexts.timer_inactive hpc hx hst
    obtain ⟨y, -, -, ⟨he, h1, -⟩ | ⟨hn, -, -⟩⟩ := pollCb_spec hx ht result statbuf
    · rw [FsPoll.step, he] at h
      cases h
      exact left_put hx (hlt hx) (by rw [ht]; simp) (h1 hoff) s.pc
    · exact absurd hoff hn
  | timer c =>
    obtain ⟨-, x, hx, hr⟩ : s.pc = .idle ∧ ∃ x, s.ctxs c = some x ∧ x.timer.isActive = true := by
      simpa [enabled, Option.any_eq_true] using he
    have := (hiso.running c x hx hr).1
    rw [hs.closed hc] at this
    cases this
  | timerClosed c =>
    obtain ⟨-, x, hx, hcl⟩ : s.pc = .idle ∧ ∃ x, s.ctxs c = some x ∧ x.timer = .closing := by
      simpa [enabled, Option.any_eq_true] using he
    obtain ⟨hsame, hnone, hto⟩ := timerCloseCb_same h
    refine FsPoll.left_lt (hlt hx) hsame.fresh ?_ fun d _ => ?_
    · simp [weight, hnone, hx, hcl]
    · cases hy : t.ctxs d with
      | none => exact Nat.zero_le _
      | some y =>
        obtain ⟨w, hw, ht⟩ := hto d y hy
        rw [hw, weight, weight, ht]
  | ret =>
    cases hpc : s.pc with
    | idle => simp [enabled, hpc] at he
    | callback c result statbuf =>
      have hctx : s.pc.ctx = some c := by rw [hpc]; rfl
      obtain ⟨x, hx⟩ := (hs.mem c).1 (hs.calling c hctx)
      have hw := hs.waits c x hx
      rw [Waits, if_pos hctx] at hw
      obtain ⟨y, -, -, he, h1, -⟩ := returned_spec hx hw.2 hw.1 result statbuf
      rw [FsPoll.step, hpc] at h
      change s.returned c result statbuf = some t at h
      rw [he] at h
      cases h
      exact left_put hx (hlt hx) (by rw [hw.2]; simp) (h1 hoff) .idle

theorem Inv.left_le (hs : Inv s l) (hiso : Isolated s) (hc : s.closing = true) {lab : Label} (he : enabled s lab)
    (h : FsPoll.step s lab = some t) : left t ≤ left s ∧ (Completes lab → left t < left s) := by
  have hcase : Completes lab → left t ≤ left s ∧ (Completes lab → left t < left s) := fun hl =>
    ⟨(hs.left_lt hiso hc hl he h).le, fun hl => hs.left_lt hiso hc hl he h⟩
  cases lab with
  | start | close => simp [enabled, hc] at he
  | stop =>
    rw [FsPoll.step, State.stop, if_pos (hs.closed hc)] at h
    cases h
    exact ⟨le_rfl, False.elim⟩
  | updateTime =>
    cases h
    exact ⟨le_rfl, False.elim⟩
  | _ => exact hcase trivial

/-- **Teardown.** In a run whose results are timely: while a handle is closing the chain holds the
contexts that are left, each once; a context is freed once; nothing fails; whatever a context
waits for may come next, and brings the end nearer; the handle is made pending once, with the
last context. -/
theorem teardown_timely (h : (system.restrict Timely).Reachable s) (hc : s.closing = true) :
    (∃ l, Chain s.previous s.pollCtx l ∧ l.Nodup ∧ (∀ c, c ∈ l ↔ ∃ x, s.ctxs c = some x) ∧
      s.closePending = if l = [] then 1 else 0) ∧ (s.freed.Nodup ∧ ∀ c, c ∈ s.freed ↔ c < s.fresh ∧ s.ctxs c = none) ∧
    (∀ lab, enabled s lab → ∃ t, step s lab = some t) ∧ (∀ c x, s.ctxs c = some x → s.pc = .idle →
      (x.stat = true ∧ ∀ result statbuf, enabled s (.stat c result statbuf)) ∨ (x.timer = .closing ∧ enabled s (.timerClosed c))) ∧
    (∀ lab t, enabled s lab → step s lab = some t → left t ≤ left s ∧ (Completes lab → left t < left s)) := by
  obtain ⟨⟨l, hi⟩, hs⟩ := isolated_inductive.reachable h
  refine ⟨⟨l, hi.chain, hi.nodup, hi.mem, ?_⟩, ⟨hi.once, fun c => ?_⟩, fun lab he => hs.defined hi he, fun c x hx hpc => ?_,
    fun lab t he ht => hi.left_le hs hc he ht⟩
  · rw [hi.pending]
    simp [hc]
  · have hmem : s.ctxs c = none ↔ c ∉ l := by
      rw [hi.mem]
      cases s.ctxs c <;> simp
    rw [hmem, hi.fresh]
    constructor
    · exact fun h => ⟨.inr h, hi.freed c h⟩
    · exact fun h => h.1.resolve_left h.2
  · rcases (waits_idle (by rw [hpc]; rfl)).1 (hi.waits c x hx) with ⟨h1, -⟩ | ⟨-, h1⟩
    · refine .inl ⟨h1, fun result statbuf => ?_⟩
      simp [enabled, hpc, hx, h1]
    · have ht : x.timer = .closing := by
        cases htm : x.timer with
        | inactive => exact absurd htm h1
        | closing => rfl
        | active n =>
          have := (hs.running c x hx (by rw [htm]; rfl)).1
          rw [hi.closed hc] at this
          cases this
      refine .inr ⟨ht, ?_⟩
      simp [enabled, hpc, hx, ht]

/-- Nothing is taken up by the loop before `uv_close`. -/
def Teardown (s : State) : Label → Prop
  | .stat .. => s.closing = true
  | .timer _ => s.closing = true
  | .timerClosed _ => s.closing = true
  | .ret => s.closing = true
  | _ => True

theorem Teardown.timely (lab : Label) (h : Teardown s lab) : Timely s lab := by
  cases lab with
  | stat c => exact fun ho => absurd (.inr h) ho
  | ret => exact fun _ _ ho => absurd (.inr h) ho
  | _ => trivial

theorem idle_inductive : (system.restrict Teardown).Inductive fun s => ((∃ l, Inv s l) ∧ s.pc = .idle) := by
  refine (inv_inductive.restrict Teardown).with_ ?_ ?_
  · intro s ⟨now, hs⟩
    subst hs
    rfl
  · intro s lab t ⟨l, hi⟩ hpc ⟨hlate, he, h⟩
    cases lab with
    | start mem ok interval =>
      cases h
      show (s.start mem ok interval).pc = .idle
      unfold State.start
      split_ifs <;> exact hpc
    | stop =>
      obtain ⟨u, hu, -, -, -, -, -, hp, -⟩ := hi.toContexts.stop
      rw [step, hu] at h
      cases h
      exact hp.trans hpc
    | close =>
      rw [step, State.close] at h
      split at h
      · cases h
      obtain ⟨u, hu, h⟩ := Option.bind_eq_some_iff.1 h
      obtain ⟨v, hv, -, -, -, -, -, hp, -⟩ := Contexts.stop (s := { s with closing := true }) { hi.toContexts with }
      rw [hu] at hv
      cases hv
      split at h
      · exact (makeClosePending_same h).1.pc.trans (hp.trans hpc)
      · cases h
        exact hp.trans hpc
    | stat c result statbuf =>
      obtain ⟨-, x, hx, hst⟩ : s.pc = .idle ∧ ∃ x, s.ctxs c = some x ∧ x.stat = true := by
        simpa [enabled, Option.any_eq_true] using he
      obtain ⟨y, -, -, ⟨he, -⟩ | ⟨hn, -⟩⟩ := pollCb_spec hx (hi.toContexts.timer_inactive hpc hx hst) result statbuf
      · rw [step, he] at h
        cases h
        exact hpc
      · exact absurd (.inr hlate) hn
    | timer c =>
      obtain ⟨x, -, h⟩ := Option.bind_eq_some_iff.1 h
      simp only at h
      split at h
      · cases h
        exact hpc
      · cases h
    | timerClosed c => exact (timerCloseCb_same h).1.pc.trans hpc
    | ret => simp [enabled, hpc] at he
    | updateTime now =>
      cases h
      exact hpc

/-- **Teardown after any starts and stops.** The handle has been started and stopped in any order before
`uv_close`, and the loop takes up the stat requests and the closings of the timers afterwards,
in any order. The chain holds the contexts that are left, each once; nothing fails, the walk of
`timer_close_cb` included; a context that is left has its stat request or the closing of its timer
to come, and each of these brings the end nearer; a context that is not left has been freed,
once; `uv__make_close_pending` has been called once if no context is left, and not before. -/
theorem teardown (h : (system.restrict Teardown).Reachable s) (hc : s.closing = true) :
    (∃ l, Chain s.previous s.pollCtx l ∧ l.Nodup ∧ (∀ c, c ∈ l ↔ ∃ x, s.ctxs c = some x) ∧
      s.closePending = if l = [] then 1 else 0) ∧ (s.freed.Nodup ∧ ∀ c, c ∈ s.freed ↔ c < s.fresh ∧ s.ctxs c = none) ∧
    (∀ lab, enabled s lab → ∃ t, step s lab = some t) ∧ (∀ c x, s.ctxs c = some x →
      (x.stat = true ∧ ∀ result statbuf, enabled s (.stat c result statbuf)) ∨ (x.timer = .closing ∧ enabled s (.timerClosed c))) ∧
    (∀ lab t, enabled s lab → step s lab = some t → left t ≤ left s ∧ (Completes lab → left t < left s)) := by
  have hpc := (idle_inductive.reachable h).2
  obtain ⟨h1, h2, h3, h4, h5⟩ := teardown_timely (h.restrict_mono fun _ => Teardown.timely) hc
  exact ⟨h1, h2, h3, fun c x hx => h4 c x hx hpc, h5⟩

/-- Two periods; the context of the first leaves the chain before that of the second. -/
theorem teardown_two : ∃ s : State, s.closing = true ∧ s.freed = [0, 1] ∧ s.pollCtx = none ∧ s.closePending = 1 ∧
    ∀ lab, enabled s lab → ∃ t, step s lab = some t := by
  have h := LTS.Reachable.init (T := system.restrict Teardown) (s := initial 0) ⟨0, rfl⟩
  have h := h.step (l := Label.start true true 5) ⟨trivial, rfl, rfl⟩
  have h := h.step (l := Label.stop) ⟨trivial, rfl, rfl⟩
  have h := h.step (l := Label.start true true 5) ⟨trivial, rfl, rfl⟩
  have h := h.step (l := Label.close) ⟨trivial, rfl, rfl⟩
  have h := h.step (l := Label.stat 0 0 zeroStatbuf) ⟨rfl, rfl, rfl⟩
  have h := h.step (l := Label.timerClosed 0) ⟨rfl, rfl, rfl⟩
  have h := h.step (l := Label.stat 1 0 zeroStatbuf) ⟨rfl, rfl, rfl⟩
  have h := h.step (l := Label.timerClosed 1) ⟨rfl, rfl, rfl⟩
  exact ⟨_, rfl, rfl, rfl, rfl, (teardown h rfl).2.2.1⟩

end Libuv.L2.FsPoll
