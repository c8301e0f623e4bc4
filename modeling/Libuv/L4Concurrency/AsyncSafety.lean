import Libuv.L4Concurrency.Async

/-!
# What an async wakeup cannot lose

`Inv s` ties the three values of `pending` to the senders that are between their two
compare-exchanges (`Flags`), says which handles are in the loop's lists (`Lists`), and
that a sender that has written, or a handle with `pending` 2, is followed by a readable fd
or by the loop's visit (`Woken`).
-/
namespace Libuv.L4.Async

open List

variable {H I : Type*}

/-! ## Definitions -/

def Sender.holds (p : Sender H) (h : H) : Prop := p = .write h ∨ p = .swap12 h

def Linked (s : State H I) (h : H) : Prop := h ∈ s.asyncHandles ∨ h ∈ s.queue

/-- The loop thread is in `uv__async_io`, past the drain, and has still to visit `h`. -/
def ToVisit (s : State H I) (h : H) : Prop :=
  s.pc = .move ∧ h ∈ s.asyncHandles ∨ h ∈ s.queue ∨ s.pc = .spin h

/-- The loop thread is not in the walk over the local queue. -/
def Pc.noWalk : Pc H → Prop
  | .run (.outside _) | .closing _ (.outside _) | .drain | .move => True
  | _ => False

structure Flags (s : State H I) : Prop where
  le : ∀ h, s.pending h ≤ 2
  holder : ∀ i h, (s.senders i).holds h → s.pending h = 1
  held : ∀ h, s.pending h = 1 → ∃ i, (s.senders i).holds h
  unique : ∀ i j h, (s.senders i).holds h → (s.senders j).holds h → i = j
  noAbort : ∀ i, s.senders i ≠ .aborted

structure Lists (s : State H I) : Prop where
  nodup : (s.asyncHandles ++ s.queue).Nodup
  opened : ∀ h, s.opened h = true → Linked s h
  linked : ∀ h, Linked s h → s.opened h = true ∨ ∃ c, s.pc = .closing h c
  closing : ∀ h c, s.pc = .closing h c → s.opened h = false
  empty : s.pc.noWalk → s.queue = []

def Woken (s : State H I) : Prop :=
  ∀ h, Linked s h → (s.pending h = 2 ∨ ∃ i, s.senders i = .swap12 h) → s.fd ≠ 0 ∨ ToVisit s h

structure Inv (s : State H I) : Prop where
  flags : Flags s
  lists : Lists s
  woken : Woken s

theorem Sender.not_holds_idle (h : H) : ¬ (Sender.idle : Sender H).holds h := by
  simp [Sender.holds]

variable {cap : ℕ} {cb : H → Bool} {s t : State H I}

/-! ## Sender steps -/

structure SenderStep (s t : State H I) : Prop where
  opened : t.opened = s.opened
  asyncHandles : t.asyncHandles = s.asyncHandles
  queue : t.queue = s.queue
  pc : t.pc = s.pc

theorem SenderStep.linked (h : SenderStep s t) (x : H) : Linked t x ↔ Linked s x := by
  unfold Linked; rw [h.asyncHandles, h.queue]

theorem SenderStep.lists (h : SenderStep s t) (hl : Lists s) : Lists t where
  nodup := by rw [h.asyncHandles, h.queue]; exact hl.nodup
  opened x hx := (h.linked x).mpr (hl.opened x (h.opened ▸ hx))
  linked x hx := by rw [h.opened, h.pc]; exact hl.linked x ((h.linked x).mp hx)
  closing x c hx := by rw [h.opened]; exact hl.closing x c (h.pc ▸ hx)
  empty hp := by rw [h.queue]; exact hl.empty (h.pc ▸ hp)

section Senders
variable [DecidableEq I]

@[simp] theorem State.setSender_senders (i j : I) (p : Sender H) :
    (s.setSender i p).senders j = if j = i then p else s.senders j := by
  simp [State.setSender, Function.update_apply]

@[simp] theorem State.setSender_pending (i : I) (p : Sender H) : (s.setSender i p).pending = s.pending := rfl
@[simp] theorem State.setSender_fd (i : I) (p : Sender H) : (s.setSender i p).fd = s.fd := rfl

theorem setSender_step (i : I) (p : Sender H) : SenderStep s (s.setSender i p) := ⟨rfl, rfl, rfl, rfl⟩

theorem setSender_inv (h : Inv s) {i : I} {p : Sender H} (hs : ∀ x, ¬ (s.senders i).holds x)
    (hp : ∀ x, ¬ p.holds x) (ha : p ≠ .aborted) : Inv (s.setSender i p) := by
  have hhold : ∀ j x, ((s.setSender i p).senders j).holds x ↔ (s.senders j).holds x := by
    intro j x
    rw [State.setSender_senders]
    split
    · next e => subst e; exact ⟨fun h' => absurd h' (hp x), fun h' => absurd h' (hs x)⟩
    · rfl
  refine ⟨⟨h.flags.le, fun j x hx => h.flags.holder j x ((hhold j x).mp hx), fun x hx => ?_,
    fun j k x hj hk => h.flags.unique j k x ((hhold j x).mp hj) ((hhold k x).mp hk), fun j => ?_⟩,
    (setSender_step i p).lists h.lists, fun x hl hx => ?_⟩
  · obtain ⟨j, hj⟩ := h.flags.held x hx
    exact ⟨j, (hhold j x).mpr hj⟩
  · rw [State.setSender_senders]
    split
    · exact ha
    · exact h.flags.noAbort j
  · refine h.woken x hl (hx.imp id fun ⟨j, hj⟩ => ⟨j, ?_⟩)
    rw [State.setSender_senders] at hj
    split at hj
    · exact absurd (.inr hj) (hp x)
    · exact hj

theorem load_spec (i : I) (h : H) :
    s.load i h = s.setSender i .idle ∧ s.pending h ≠ 0 ∨
      s.load i h = s.setSender i (.swap01 h) ∧ s.pending h = 0 := by
  unfold State.load
  split
  · exact .inl ⟨rfl, by assumption⟩
  · exact .inr ⟨rfl, by omega⟩

theorem load_inv (h : Inv s) {i : I} {x : H} (hi : s.senders i = .load x) : Inv (s.load i x) := by
  rcases load_spec (s := s) i x with ⟨e, -⟩ | ⟨e, -⟩ <;> rw [e] <;>
    exact setSender_inv h (by simp [hi, Sender.holds]) (by simp [Sender.holds]) (by simp)

theorem write_inv (h : Inv s) {i : I} {x : H} (hcap : 0 < cap) (hi : s.senders i = .write x) :
    Inv (s.write cap i x) := by
  have hhold : ∀ j y, ((s.write cap i x).senders j).holds y ↔ (s.senders j).holds y := by
    intro j y
    unfold State.write
    rw [State.setSender_senders]
    split
    · next e => subst e; simp [hi, Sender.holds]
    · rfl
  have hfd : (s.write cap i x).fd ≠ 0 := by
    simp only [State.write, State.setSender_fd]
    split <;> omega
  refine ⟨⟨h.flags.le, fun j y hj => h.flags.holder j y ((hhold j y).mp hj), fun y hy => ?_,
    fun j k y hj hk => h.flags.unique j k y ((hhold j y).mp hj) ((hhold k y).mp hk), fun j => ?_⟩,
    SenderStep.lists (s := s) ⟨rfl, rfl, rfl, rfl⟩ h.lists, fun _ _ _ => .inl hfd⟩
  · obtain ⟨j, hj⟩ := h.flags.held y hy
    exact ⟨j, (hhold j y).mpr hj⟩
  · unfold State.write
    rw [State.setSender_senders]
    split
    · simp
    · exact h.flags.noAbort j

end Senders

section Swaps
variable [DecidableEq H]

@[simp] theorem State.setPending_pending (h h' : H) (v : ℕ) :
    (s.setPending h v).pending h' = if h' = h then v else s.pending h' := by
  simp [State.setPending, Function.update_apply]

theorem State.setPending_self {h : H} {v : ℕ} (hv : s.pending h = v) : s.setPending h v = s := by
  unfold State.setPending
  rw [← hv, Function.update_eq_self]

@[simp] theorem State.setPending_senders (h : H) (v : ℕ) : (s.setPending h v).senders = s.senders := rfl

variable [DecidableEq I]

theorem swap01_spec (i : I) (h : H) :
    s.swap01 i h = s.setSender i .idle ∧ s.pending h ≠ 0 ∨
      s.swap01 i h = (s.setPending h 1).setSender i (.write h) ∧ s.pending h = 0 := by
  unfold State.swap01 State.cmpxchgi
  rcases eq_or_ne (s.pending h) 0 with h0 | h0
  · exact .inr ⟨by simp [h0], h0⟩
  · exact .inl ⟨by simp [h0], h0⟩

theorem swap12_spec (i : I) (h : H) (h1 : s.pending h = 1) :
    s.swap12 i h = (s.setPending h 2).setSender i .idle := by
  unfold State.swap12 State.cmpxchgi
  simp [h1]

theorem swap01_inv (h : Inv s) {i : I} {x : H} (hi : s.senders i = .swap01 x) : Inv (s.swap01 i x) := by
  rcases swap01_spec (s := s) i x with ⟨e, -⟩ | ⟨e, h0⟩
  · rw [e]
    exact setSender_inv h (by simp [hi, Sender.holds]) (by simp [Sender.holds]) (by simp)
  rw [e]
  -- nobody held the handle, now `i` does
  have hfree : ∀ j, ¬ (s.senders j).holds x := fun j hj => by
    have := h.flags.holder j x hj
    omega
  have hhold : ∀ j y, (((s.setPending x 1).setSender i (.write x)).senders j).holds y ↔
      j = i ∧ y = x ∨ j ≠ i ∧ (s.senders j).holds y := by
    intro j y
    by_cases e : j = i
    · simp [e, Sender.holds, eq_comm]
    · simp [e]
  refine ⟨⟨fun y => ?_, fun j y hj => ?_, fun y hy => ?_, fun j k y hj hk => ?_, fun j => ?_⟩,
    SenderStep.lists (s := s) ⟨rfl, rfl, rfl, rfl⟩ h.lists, fun y hl hy => ?_⟩
  · rcases eq_or_ne y x with e | e <;> simp [e, h.flags.le]
  · rw [hhold] at hj
    rcases hj with ⟨-, rfl⟩ | ⟨-, hj⟩
    · simp
    · have hyx : y ≠ x := fun e => hfree j (e ▸ hj)
      simpa [hyx] using h.flags.holder j y hj
  · simp only [hhold]
    by_cases e : y = x
    · exact ⟨i, .inl ⟨rfl, e⟩⟩
    · obtain ⟨j, hj⟩ := h.flags.held y (by simpa [e] using hy)
      refine ⟨j, .inr ⟨fun e' => ?_, hj⟩⟩
      rw [e', hi] at hj
      simp [Sender.holds] at hj
  · rw [hhold] at hj hk
    rcases hj with ⟨e1, e2⟩ | ⟨-, hj⟩
    · rcases hk with ⟨e3, -⟩ | ⟨-, hk⟩
      · rw [e1, e3]
      · exact absurd (e2 ▸ hk) (hfree k)
    · rcases hk with ⟨-, e2⟩ | ⟨-, hk⟩
      · exact absurd (e2 ▸ hj) (hfree j)
      · exact h.flags.unique j k y hj hk
  · rw [State.setSender_senders]
    split
    · simp
    · exact h.flags.noAbort j
  · refine h.woken y hl (hy.imp (fun h2 => ?_) fun ⟨j, hj⟩ => ⟨j, ?_⟩)
    · rcases eq_or_ne y x with e | e
      · simp [e] at h2
      · simpa [e] using h2
    · rw [State.setSender_senders] at hj
      split at hj
      · cases hj
      · exact hj

theorem swap12_inv (h : Inv s) {i : I} {x : H} (hi : s.senders i = .swap12 x) : Inv (s.swap12 i x) := by
  rw [swap12_spec i x (h.flags.holder i x (.inr hi))]
  have hhold : ∀ j y, (((s.setPending x 2).setSender i .idle).senders j).holds y ↔ y ≠ x ∧ (s.senders j).holds y := by
    intro j y
    rw [State.setSender_senders]
    split
    · next e =>
      subst e
      refine ⟨fun h' => absurd h' (Sender.not_holds_idle y), fun ⟨h', hj⟩ => ?_⟩
      rw [hi] at hj
      simp [Sender.holds] at hj
      exact absurd hj.symm h'
    · next e => exact ⟨fun hj => ⟨fun e' => e (h.flags.unique j i y hj (e' ▸ .inr hi)), hj⟩, And.right⟩
  refine ⟨⟨fun y => ?_, fun j y hj => ?_, fun y hy => ?_, fun j k y hj hk => ?_, fun j => ?_⟩,
    SenderStep.lists (s := s) ⟨rfl, rfl, rfl, rfl⟩ h.lists, fun y hl hy => ?_⟩
  · rcases eq_or_ne y x with e | e <;> simp [e, h.flags.le]
  · rw [hhold] at hj
    simpa [hj.1] using h.flags.holder j y hj.2
  · have hyx : y ≠ x := fun e => by simp [e] at hy
    obtain ⟨j, hj⟩ := h.flags.held y (by simpa [hyx] using hy)
    exact ⟨j, (hhold j y).mpr ⟨hyx, hj⟩⟩
  · rw [hhold] at hj hk
    exact h.flags.unique j k y hj.2 hk.2
  · rw [State.setSender_senders]
    split
    · simp
    · exact h.flags.noAbort j
  · by_cases e : y = x
    · -- the sender wrote before
      exact h.woken y hl (.inr ⟨i, e ▸ hi⟩)
    · refine h.woken y hl (hy.imp (fun h2 => by simpa [e] using h2) fun ⟨j, hj⟩ => ⟨j, ?_⟩)
      rw [State.setSender_senders] at hj
      split at hj
      · cases hj
      · exact hj

end Swaps

/-! ## Loop steps -/

/-- The senders stay, and a `pending` that is not 1 may become 0. -/
structure LoopStep (s t : State H I) : Prop where
  senders : t.senders = s.senders
  pending : ∀ h, t.pending h = s.pending h ∨ s.pending h ≠ 1 ∧ t.pending h = 0

theorem LoopStep.flags (h : LoopStep s t) (hf : Flags s) : Flags t where
  le x := by rcases h.pending x with e | ⟨-, e⟩ <;> rw [e] <;> simp [hf.le]
  holder i x hx := by
    rw [h.senders] at hx
    have h1 := hf.holder i x hx
    rcases h.pending x with e | ⟨e, -⟩
    · rw [e, h1]
    · exact absurd h1 e
  held x hx := by
    rw [h.senders]
    rcases h.pending x with e | ⟨-, e⟩
    · exact hf.held x (by rw [← e, hx])
    · omega
  unique := by rw [h.senders]; exact hf.unique
  noAbort := by rw [h.senders]; exact hf.noAbort

theorem Flags.same (hf : Flags s) (hs : t.senders = s.senders) (hp : t.pending = s.pending) : Flags t :=
  LoopStep.flags ⟨hs, fun _ => .inl (by rw [hp])⟩ hf

theorem LoopStep.asks (h : LoopStep s t) {x : H} (hx : t.pending x = 2 ∨ ∃ i, t.senders i = .swap12 x) :
    s.pending x = 2 ∨ ∃ i, s.senders i = .swap12 x := by
  rw [h.senders] at hx
  refine hx.imp (fun h2 => ?_) id
  rcases h.pending x with e | ⟨-, e⟩ <;> omega

theorem setPc_inv (h : Inv s) {p : Pc H} (hm : s.pc ≠ .move) (hs : ∀ x, s.pc ≠ .spin x)
    (hc : ∀ x c, s.pc ≠ .closing x c) (hp : ∀ x c, p ≠ .closing x c) (hn : p.noWalk → s.queue = []) :
    Inv { s with pc := p } := by
  refine ⟨h.flags.same rfl rfl,
    ⟨h.lists.nodup, h.lists.opened, fun x hx => ?_, fun x c e => absurd e (hp x c), hn⟩, fun x hl hx => ?_⟩
  · exact .inl ((h.lists.linked x hx).resolve_right fun ⟨c, e⟩ => hc x c e)
  · refine (h.woken x hl hx).imp id fun hv => ?_
    rcases hv with ⟨e, -⟩ | hq | e
    · exact absurd e hm
    · exact .inr (.inl hq)
    · exact absurd e (hs x)

theorem drain_inv (h : Inv s) (hp : s.pc = .drain) : Inv { s with fd := 0, pc := .move } := by
  have hq : s.queue = [] := h.lists.empty (by rw [hp]; trivial)
  refine ⟨h.flags.same rfl rfl,
    ⟨h.lists.nodup, h.lists.opened, fun x hx => ?_, fun _ _ e => (nomatch e), fun _ => hq⟩, fun x hl _ => .inr ?_⟩
  · exact .inl ((h.lists.linked x hx).resolve_right fun ⟨c, e⟩ => by rw [hp] at e; cases e)
  · -- every handle is in the list that is about to be moved
    exact .inl ⟨rfl, hl.resolve_right fun hx => by rw [hq] at hx; cases hx⟩

theorem move_inv (h : Inv s) (hp : s.pc = .move) :
    Inv { s with queue := s.asyncHandles, asyncHandles := [], pc := .walk } := by
  have hq : s.queue = [] := h.lists.empty (by rw [hp]; trivial)
  have hl : ∀ x, x ∈ s.asyncHandles ↔ Linked s x := fun x => by simp [Linked, hq]
  refine ⟨h.flags.same rfl rfl, ⟨?_, fun x hx => ?_, fun x hx => ?_,
    fun _ _ e => (nomatch e), fun e => e.elim⟩, fun x hx _ => .inr (.inr (.inl ?_))⟩
  · simpa [hq] using h.lists.nodup
  · exact .inr ((hl x).mpr (h.lists.opened x hx))
  · refine .inl ((h.lists.linked x ((hl x).mp ?_)).resolve_right fun ⟨c, e⟩ => by rw [hp] at e; cases e)
    exact hx.resolve_left not_mem_nil
  · exact hx.resolve_left not_mem_nil

theorem visit_inv (h : Inv s) {x : H} {rest : List H} (hp : s.pc = .walk) (hq : s.queue = x :: rest) :
    Inv { s with queue := rest, asyncHandles := s.asyncHandles ++ [x], pc := .spin x } := by
  have hl : ∀ y, y ∈ s.asyncHandles ++ [x] ∨ y ∈ rest ↔ Linked s y := fun y => by
    simp [Linked, hq, or_assoc]
  refine ⟨h.flags.same rfl rfl, ⟨?_, fun y hy => ?_, fun y hy => ?_,
    fun _ _ e => (nomatch e), fun e => e.elim⟩, fun y hy ha => ?_⟩
  · simpa [hq] using h.lists.nodup
  · exact (hl y).mpr (h.lists.opened y hy)
  · exact .inl ((h.lists.linked y ((hl y).mp hy)).resolve_right fun ⟨c, e⟩ => by rw [hp] at e; cases e)
  · refine (h.woken y ((hl y).mp hy) ha).imp id fun hv => ?_
    rcases hv with ⟨e, -⟩ | hm | e
    · rw [hp] at e; cases e
    · rw [hq, mem_cons] at hm
      rcases hm with rfl | hm
      · exact .inr (.inr rfl)
      · exact .inr (.inl hm)
    · rw [hp] at e; cases e

section Calls
variable [DecidableEq H]

theorem asyncSpin_spec (hf : Flags s) (cb : H → Bool) (x : H) :
    s.pending x = 1 ∧ s.asyncSpin cb x = s ∨
      s.pending x ≠ 1 ∧ ∃ p, s.asyncSpin cb x = { s.setPending x 0 with pc := p } ∧
        (p = .walk ∨ p = .call x) ∧ (s.pending x = 2 → cb x = true → p = .call x) := by
  have hle := hf.le x
  unfold State.asyncSpin State.cmpxchgi
  obtain h0 | h1 | h2 : s.pending x = 0 ∨ s.pending x = 1 ∨ s.pending x = 2 := by omega
  · exact .inr ⟨by omega, .walk, by simp [h0, State.setPending_self h0], .inl rfl, fun h2 => by omega⟩
  · exact .inl ⟨h1, by simp [h1]⟩
  · cases hcb : cb x
    · exact .inr ⟨by omega, .walk, by simp [h2], .inl rfl, fun _ h => by cases h⟩
    · exact .inr ⟨by omega, .call x, by simp [h2], .inr rfl, fun _ _ => rfl⟩

theorem asyncClose_spec (hf : Flags s) (x : H) (c : Ctx) :
    s.pending x = 1 ∧ s.asyncClose x c = s ∨ s.pending x ≠ 1 ∧ s.asyncClose x c = { s.setPending x 0 with
        asyncHandles := s.asyncHandles.erase x, queue := s.queue.erase x, pc := .run c } := by
  have hle := hf.le x
  unfold State.asyncClose State.cmpxchgi
  obtain h0 | h1 | h2 : s.pending x = 0 ∨ s.pending x = 1 ∨ s.pending x = 2 := by omega
  · exact .inr ⟨by omega, by simp [h0, State.setPending_self h0]⟩
  · exact .inl ⟨h1, by simp [h1]⟩
  · exact .inr ⟨by omega, by simp [h2, State.setPending]⟩

theorem setPending_step {x : H} (hx : s.pending x ≠ 1) (hs : t.senders = s.senders)
    (hp : t.pending = (s.setPending x 0).pending) : LoopStep s t := by
  refine ⟨hs, fun y => ?_⟩
  rw [hp, State.setPending_pending]
  split
  · next e => exact .inr ⟨e ▸ hx, rfl⟩
  · exact .inl rfl

omit [DecidableEq H] in
theorem Flags.quiet (hf : Flags s) {x : H} (h0 : s.pending x = 0) :
    ¬ (s.pending x = 2 ∨ ∃ i, s.senders i = .swap12 x) := by
  intro ha
  rcases ha with h2 | ⟨i, hi⟩
  · omega
  · have := hf.holder i x (.inr hi)
    omega

theorem asyncSpin_inv (h : Inv s) {x : H} (hp : s.pc = .spin x) : Inv (s.asyncSpin cb x) := by
  rcases asyncSpin_spec h.flags cb x with ⟨-, e⟩ | ⟨h1, p, e, hw, -⟩
  · rw [e]; exact h
  · rw [e]
    have hstep : LoopStep s { s.setPending x 0 with pc := p } := setPending_step h1 rfl rfl
    have hflags := hstep.flags h.flags
    refine ⟨hflags, ⟨h.lists.nodup, h.lists.opened, fun y hy => ?_, fun y c e => ?_, fun e => ?_⟩, fun y hl ha => ?_⟩
    · exact .inl ((h.lists.linked y hy).resolve_right fun ⟨c, e⟩ => by rw [hp] at e; cases e)
    · rcases hw with rfl | rfl <;> cases e
    · rcases hw with rfl | rfl <;> exact e.elim
    · refine (h.woken y hl (hstep.asks ha)).imp id fun hv => ?_
      rcases hv with ⟨e, -⟩ | hq | e
      · rw [hp] at e; cases e
      · exact .inr (.inl hq)
      · -- `x` itself: its flag has been taken
        rw [hp] at e
        cases e
        exact absurd ha (hflags.quiet (by simp))

theorem asyncClose_inv (h : Inv s) {x : H} {c : Ctx} (hp : s.pc = .closing x c) :
    Inv (s.asyncClose x c) := by
  rcases asyncClose_spec h.flags x c with ⟨-, e⟩ | ⟨h1, e⟩
  · rw [e]; exact h
  · rw [e]
    have hnd := nodup_append.mp h.lists.nodup
    have hl : ∀ y, y ∈ s.asyncHandles.erase x ∨ y ∈ s.queue.erase x ↔ y ≠ x ∧ Linked s y := fun y => by
      rw [hnd.1.mem_erase_iff, hnd.2.1.mem_erase_iff]
      unfold Linked
      rw [and_or_left]
    have hstep : LoopStep s { s.setPending x 0 with
        asyncHandles := s.asyncHandles.erase x, queue := s.queue.erase x, pc := .run c } :=
      setPending_step h1 rfl rfl
    refine ⟨hstep.flags h.flags, ⟨?_, fun y hy => ?_, fun y hy => ?_, fun _ _ e => (nomatch e), fun hn => ?_⟩,
      fun y hy ha => ?_⟩
    · exact h.lists.nodup.sublist (List.Sublist.append erase_sublist erase_sublist)
    · refine (hl y).mpr ⟨fun e => ?_, h.lists.opened y hy⟩
      have := h.lists.closing x c hp
      rw [← e] at this
      rw [show s.opened y = true from hy] at this
      cases this
    · obtain ⟨k1, k2⟩ := (hl y).mp hy
      refine .inl ((h.lists.linked y k2).resolve_right fun ⟨c', e⟩ => k1 ?_)
      rw [hp] at e; cases e; rfl
    · have : s.queue = [] := h.lists.empty (by rw [hp]; cases c <;> trivial)
      simp [this]
    · obtain ⟨k1, k2⟩ := (hl y).mp hy
      refine (h.woken y k2 (hstep.asks ha)).imp id fun hv => ?_
      rcases hv with ⟨e, -⟩ | hq | e
      · rw [hp] at e; cases e
      · exact .inr (.inl ((hnd.2.1.mem_erase_iff).mpr ⟨k1, hq⟩))
      · rw [hp] at e; cases e

theorem asyncInit_inv (h : Inv s) {x : H} {c c' : Ctx} (hp : s.pc = .run c) (hc : c.Next c')
    (ho : s.opened x = false) (hs : ∀ i, ¬ (s.senders i).on x) :
    Inv { s.asyncInit x with pc := .run c' } := by
  have hnl : ¬ Linked s x := fun hl => by
    rcases h.lists.linked x hl with e | ⟨c, e⟩
    · rw [ho] at e; cases e
    · rw [hp] at e; cases e
  have h1 : s.pending x ≠ 1 := fun e => by
    obtain ⟨i, hi⟩ := h.flags.held x e
    exact hs i (.inr (.inr hi))
  have hstep : LoopStep s { s.asyncInit x with pc := .run c' } := setPending_step h1 rfl rfl
  have hflags := hstep.flags h.flags
  have hl : ∀ y, y ∈ s.asyncHandles ++ [x] ∨ y ∈ s.queue ↔ y = x ∨ Linked s y := fun y => by
    simp only [Linked, mem_append, mem_singleton]
    tauto
  refine ⟨hflags, ⟨?_, fun y hy => ?_, fun y hy => ?_, fun _ _ e => (nomatch e), fun hn => ?_⟩, fun y hy ha => ?_⟩
  · have hx : x ∉ s.asyncHandles ++ s.queue := fun hm => hnl (mem_append.mp hm)
    have hnd : (s.asyncHandles ++ x :: s.queue).Nodup :=
      perm_middle.nodup_iff.mpr (nodup_cons.mpr ⟨hx, h.lists.nodup⟩)
    show (s.asyncHandles ++ [x] ++ s.queue).Nodup
    rw [append_assoc]
    exact hnd
  · refine (hl y).mpr (or_iff_not_imp_left.mpr fun e => h.lists.opened y ?_)
    simpa [State.asyncInit, Function.update_of_ne e] using hy
  · refine .inl ?_
    rcases (hl y).mp hy with e | hy'
    · simp [State.asyncInit, e]
    · have hne : y ≠ x := fun e => hnl (e ▸ hy')
      simpa [State.asyncInit, Function.update_of_ne hne] using
        (h.lists.linked y hy').resolve_right fun ⟨c, e⟩ => by rw [hp] at e; cases e
  · refine h.lists.empty ?_
    rw [hp]
    cases hc with
    | outside => trivial
    | callback => exact hn.elim
  · rcases (hl y).mp hy with e | hy'
    · exact absurd ha (hflags.quiet (by simp [State.asyncInit, e]))
    · refine (h.woken y hy' (hstep.asks ha)).imp id fun hv => ?_
      rcases hv with ⟨e, -⟩ | hq | e
      · rw [hp] at e; cases e
      · exact .inr (.inl hq)
      · rw [hp] at e; cases e

theorem close_inv (h : Inv s) {x : H} {c c' : Ctx} (hp : s.pc = .run c) (hc : c.Next c') :
    Inv { s with opened := Function.update s.opened x false, pc := .closing x c' } := by
  refine ⟨h.flags.same rfl rfl, ⟨h.lists.nodup, fun y hy => ?_, fun y hy => ?_,
    fun y c e => ?_, fun hn => ?_⟩, fun y hy ha => ?_⟩
  · simp only [Function.update_apply] at hy
    split at hy
    · cases hy
    · exact h.lists.opened y hy
  · by_cases e : y = x
    · exact .inr ⟨c', by rw [e]⟩
    · refine .inl ?_
      simp only [Function.update_of_ne e]
      exact (h.lists.linked y hy).resolve_right fun ⟨c, e⟩ => by rw [hp] at e; cases e
  · cases e; simp
  · refine h.lists.empty ?_
    rw [hp]
    cases hc with
    | outside => trivial
    | callback => exact hn.elim
  · refine (h.woken y hy ha).imp id fun hv => ?_
    rcases hv with ⟨e, -⟩ | hq | e
    · rw [hp] at e; cases e
    · exact .inr (.inl hq)
    · rw [hp] at e; cases e

end Calls

/-! ## Runs -/

section Runs
variable [DecidableEq H] [DecidableEq I]

variable {l : Label H I} {ls : List (Label H I)} {x : H}

theorem inv_step (hcap : 0 < cap) (h : Inv s) (hs : Step cap cb s l t) : Inv t := by
  have hrun : ∀ {c c' : Ctx}, s.pc = .run c → c.Next c' → (Pc.run c' : Pc H).noWalk → s.queue = [] := by
    intro c c' hp hc hn
    refine h.lists.empty ?_
    rw [hp]
    cases hc with
    | outside => trivial
    | callback => exact hn.elim
  cases hs with
  | send hi _ => exact setSender_inv h (by simp [hi, Sender.holds]) (by simp [Sender.holds]) (by simp)
  | load hi => exact load_inv h hi
  | swap01 hi => exact swap01_inv h hi
  | write hi => exact write_inv h hcap hi
  | swap12 hi => exact swap12_inv h hi
  | init hp hc ho hs => exact asyncInit_inv h hp hc ho hs
  | close hp hc _ => exact close_inv h hp hc
  | closeBusy hp _ | closed hp _ => exact asyncClose_inv h hp
  | work hp hc => exact setPc_inv h (by simp [hp]) (by simp [hp]) (by simp [hp]) (by simp) (hrun hp hc)
  | iterate n hp _ | poll hp _ =>
    exact setPc_inv h (by simp [hp]) (by simp [hp]) (by simp [hp]) (by simp)
      fun _ => h.lists.empty (by rw [hp]; trivial)
  | drain hp => exact drain_inv h hp
  | move hp => exact move_inv h hp
  | visit hp hq => exact visit_inv h hp hq
  | done n hp hq => exact setPc_inv h (by simp [hp]) (by simp [hp]) (by simp [hp]) (by simp) fun _ => hq
  | spin hp => exact asyncSpin_inv h hp
  | callback n hp =>
    exact setPc_inv h (by simp [hp]) (by simp [hp]) (by simp [hp]) (by simp) fun hn => hn.elim
  | ret hp => exact setPc_inv h (by simp [hp]) (by simp [hp]) (by simp [hp]) (by simp) fun hn => hn.elim

theorem inv_run (hcap : 0 < cap) (cb : H → Bool) : (system (I := I) cap cb).Inductive Inv where
  init s h := by
    obtain ⟨h1, h2, h3, h4, -, h6, n, h7⟩ := h
    refine ⟨⟨fun x => by simp [h1], fun i x hx => ?_, fun x hx => by simp [h1] at hx, fun i j x hx => ?_,
      fun i => by simp [h6]⟩, ⟨by simp [h3, h4], fun x hx => by simp [h2] at hx, fun x hx => ?_,
      fun x c e => by simp [h7] at e, fun _ => h4⟩, fun x hx => ?_⟩
    · rw [h6] at hx; exact absurd hx (Sender.not_holds_idle x)
    · rw [h6] at hx; exact absurd hx (Sender.not_holds_idle x)
    · simp [Linked, h3, h4] at hx
    · simp [Linked, h3, h4] at hx
  step _ _ _ h hs := inv_step hcap h hs

/-! ## Handles that are not in the lists -/

/-- The handle was closed, and not initialised since. -/
def ClosedIn (ls : List (Label H I)) (h : H) : Prop :=
  ∃ pre post, ls = pre ++ .closed h :: post ∧ .init h ∉ post

/-- .. and a send has got past its first compare-exchange after that. -/
def SentAfterClose (ls : List (Label H I)) (h : H) : Prop :=
  ∃ pre post, ls = pre ++ .closed h :: post ∧ .init h ∉ post ∧ ∃ i, .swap01 i h ∈ post

omit [DecidableEq H] [DecidableEq I] in
theorem ClosedIn.snoc (h : ClosedIn ls x)
    (hl : l ≠ .init x) : ClosedIn (ls ++ [l]) x := by
  obtain ⟨pre, post, rfl, hi⟩ := h
  exact ⟨pre, post ++ [l], by simp, by simp [hi, hl.symm]⟩

omit [DecidableEq H] [DecidableEq I] in
theorem SentAfterClose.snoc (h : SentAfterClose ls x)
    (hl : l ≠ .init x) : SentAfterClose (ls ++ [l]) x := by
  obtain ⟨pre, post, rfl, hi, i, hs⟩ := h
  exact ⟨pre, post ++ [l], by simp, by simp [hi, hl.symm], i, by simp [hs]⟩

omit [DecidableEq H] [DecidableEq I] in
theorem ClosedIn.sent {i : I} (h : ClosedIn ls x) :
    SentAfterClose (ls ++ [.swap01 i x]) x := by
  obtain ⟨pre, post, rfl, hi⟩ := h
  exact ⟨pre, post ++ [.swap01 i x], by simp, by simp [hi], i, by simp⟩

theorem step_unlinked (h : Inv s) (hs : Step cap cb s l t) (hx : ¬ Linked t x) :
    l = .closed x ∨ ¬ Linked s x ∧ l ≠ .init x := by
  have hspin : ∀ y, Linked (s.asyncSpin cb y) x ↔ Linked s x := fun y => by
    rcases asyncSpin_spec h.flags cb y with ⟨-, e⟩ | ⟨-, p, e, -⟩ <;> rw [e]
    rfl
  cases hs with
  | load _ =>
    refine .inr ⟨fun hl => hx ?_, by simp⟩
    rcases load_spec (s := s) _ _ with ⟨e, -⟩ | ⟨e, -⟩ <;> rw [e] <;> exact hl
  | swap01 _ =>
    refine .inr ⟨fun hl => hx ?_, by simp⟩
    rcases swap01_spec (s := s) _ _ with ⟨e, -⟩ | ⟨e, -⟩ <;> rw [e] <;> exact hl
  | swap12 hi =>
    refine .inr ⟨fun hl => hx ?_, by simp⟩
    rw [swap12_spec _ _ (h.flags.holder _ _ (.inr hi))]
    exact hl
  | @init y c c' hp hc ho hs =>
    refine .inr ⟨fun hl => hx ?_, fun e => hx ?_⟩
    · exact hl.imp (fun hm => mem_append_left _ hm) id
    · cases e
      exact .inl (mem_append_right _ (mem_singleton_self x))
  | closeBusy hp hb =>
    rcases asyncClose_spec h.flags _ _ with ⟨-, e⟩ | ⟨h1, -⟩
    · exact .inr ⟨fun hl => hx (by rw [e]; exact hl), by simp⟩
    · exact absurd hb h1
  | @closed y c hp hb =>
    rcases eq_or_ne x y with e | hne
    · exact .inl (by rw [e])
    · rcases asyncClose_spec h.flags y c with ⟨h1, -⟩ | ⟨-, e⟩
      · exact absurd h1 hb
      · refine .inr ⟨fun hl => hx ?_, by simp⟩
        rw [e]
        exact hl.imp (mem_erase_of_ne hne).mpr (mem_erase_of_ne hne).mpr
  | move hp =>
    refine .inr ⟨fun hl => hx ?_, by simp⟩
    have hq : s.queue = [] := h.lists.empty (by rw [hp]; trivial)
    exact .inr (hl.resolve_right fun hm => by rw [hq] at hm; cases hm)
  | @visit y rest hp hq =>
    refine .inr ⟨fun hl => hx ?_, by simp⟩
    unfold Linked at hl ⊢
    simp only [hq, mem_cons, mem_append, not_mem_nil, or_false] at hl ⊢
    tauto
  | spin _ => exact .inr ⟨fun hl => hx ((hspin _).mpr hl), by simp⟩
  | send | write | close | work | iterate | poll | drain | done | callback | ret =>
    exact .inr ⟨hx, by simp⟩

theorem step_on (h : Inv s) (hs : Step cap cb s l t) {i : I}
    (hx : (t.senders i).on x) : (s.senders i).on x ∨ l = .send i x := by
  have hset : ∀ {u : State H I} {j : I} {p : Sender H}, u.senders = s.senders →
      ((u.setSender j p).senders i).on x → (∀ y, p.on y → (s.senders j).on y) → (s.senders i).on x := by
    intro u j p hu hon hp
    rw [State.setSender_senders] at hon
    split at hon
    · next e => exact e ▸ hp x hon
    · rw [← hu]; exact hon
  cases hs with
  | @send j y hi ho =>
    rw [State.setSender_senders] at hx
    split at hx
    · next e =>
      right
      rw [e]
      simp only [Sender.on, reduceCtorEq, or_false, Sender.load.injEq] at hx
      rw [hx]
    · exact .inl hx
  | load hi =>
    rcases load_spec (s := s) _ _ with ⟨e, -⟩ | ⟨e, -⟩ <;> rw [e] at hx <;>
      exact .inl (hset rfl hx fun y hy => by simp_all [Sender.on])
  | swap01 hi =>
    rcases swap01_spec (s := s) _ _ with ⟨e, -⟩ | ⟨e, -⟩ <;> rw [e] at hx
    · exact .inl (hset rfl hx fun y hy => by simp_all [Sender.on])
    · exact .inl (hset (State.setPending_senders ..) hx fun y hy => by simp_all [Sender.on])
  | write hi =>
    exact .inl (hset (u := { s with fd := _ }) rfl hx fun y hy => by simp_all [Sender.on])
  | swap12 hi =>
    rw [swap12_spec _ _ (h.flags.holder _ _ (.inr hi))] at hx
    exact .inl (hset (State.setPending_senders ..) hx fun y hy => by simp_all [Sender.on])
  | closeBusy _ _ | closed _ _ =>
    rcases asyncClose_spec h.flags _ _ with ⟨-, e⟩ | ⟨-, e⟩ <;> rw [e] at hx <;> exact .inl hx
  | spin _ =>
    rcases asyncSpin_spec h.flags cb _ with ⟨-, e⟩ | ⟨-, p, e, -⟩ <;> rw [e] at hx <;> exact .inl hx
  | init | close | work | iterate | poll | drain | move | visit | done | callback | ret => exact .inl hx

theorem step_pending (h : Inv s) (hs : Step cap cb s l t) (hx : t.pending x ≠ 0) :
    s.pending x ≠ 0 ∨ ∃ i, l = .swap01 i x ∧ (s.senders i).on x := by
  have hset : ∀ y v, (s.setPending y v).pending x ≠ 0 → (v ≠ 0 → s.pending y ≠ 0) → s.pending x ≠ 0 := by
    intro y v hv hy
    rw [State.setPending_pending] at hv
    split at hv
    · next e => rw [e]; exact hy hv
    · exact hv
  cases hs with
  | load hi =>
    rcases load_spec (s := s) _ _ with ⟨e, -⟩ | ⟨e, -⟩ <;> rw [e] at hx <;> exact .inl hx
  | @swap01 i y hi =>
    rcases swap01_spec (s := s) i y with ⟨e, -⟩ | ⟨e, -⟩ <;> rw [e] at hx
    · exact .inl hx
    · rcases eq_or_ne x y with e | hne
      · exact .inr ⟨i, by rw [e], by rw [hi, e]; exact .inr (.inl rfl)⟩
      · refine .inl ?_
        rw [State.setSender_pending, State.setPending_pending, if_neg hne] at hx
        exact hx
  | swap12 hi =>
    have h1 := h.flags.holder _ _ (.inr hi)
    rw [swap12_spec _ _ h1] at hx
    exact .inl (hset _ _ hx fun _ => by omega)
  | init _ _ _ _ => exact .inl (hset _ _ hx fun h0 => absurd rfl h0)
  | closeBusy _ _ | closed _ _ =>
    rcases asyncClose_spec h.flags _ _ with ⟨-, e⟩ | ⟨-, e⟩ <;> rw [e] at hx
    · exact .inl hx
    · exact .inl (hset _ _ hx fun h0 => absurd rfl h0)
  | spin _ =>
    rcases asyncSpin_spec h.flags cb _ with ⟨-, e⟩ | ⟨-, p, e, -⟩ <;> rw [e] at hx
    · exact .inl hx
    · exact .inl (hset _ _ hx fun h0 => absurd rfl h0)
  | send | write | close | work | iterate | poll | drain | move | visit | done | callback | ret => exact .inl hx

/-- What is left of a handle that is in none of the lists. -/
structure Late (ls : List (Label H I)) (s : State H I) : Prop where
  on : ∀ x i, ¬ Linked s x → (s.senders i).on x → ClosedIn ls x
  sent : ∀ x, ¬ Linked s x → s.pending x ≠ 0 → SentAfterClose ls x

theorem late_step (h : Inv s) (hl : Late ls s)
    (hs : Step cap cb s l t) : Late (ls ++ [l]) t where
  on x i hx hon := by
    rcases step_unlinked h hs hx with rfl | ⟨hx', hne⟩
    · exact ⟨ls, [], rfl, not_mem_nil⟩
    · rcases step_on h hs hon with hon' | rfl
      · exact (hl.on x i hx' hon').snoc hne
      · -- only handles in the lists are open
        cases hs with
        | send _ ho => exact absurd (h.lists.opened x ho) hx'
  sent x hx hp := by
    rcases step_unlinked h hs hx with rfl | ⟨hx', hne⟩
    · cases hs with
      | @closed _ c hpc hb =>
        rcases asyncClose_spec h.flags x c with ⟨h1, -⟩ | ⟨-, e⟩
        · exact absurd h1 hb
        · rw [e] at hp
          simp at hp
    · rcases step_pending h hs hp with hp' | ⟨i, rfl, hon⟩
      · exact (hl.sent x hx' hp').snoc hne
      · exact (hl.on x i hx' hon).sent

/-- **A handle out of the lists** has `pending` 0, unless a send went on after the close. -/
theorem late_run (hcap : 0 < cap) {cb : H → Bool} {s : State H I}
    (hr : (system cap cb).History ls s) : Inv s ∧ Late ls s := by
  refine LTS.TraceInductive.run (P := fun ls s => Inv s ∧ Late ls s) ⟨fun s h => ?_, fun ls s l t h hs => ?_⟩ hr
  · refine ⟨(inv_run hcap cb).init s h, fun x i _ hon => ?_, fun x _ hp => absurd (h.1 x) hp⟩
    rw [h.2.2.2.2.2.1 i] at hon
    simp [Sender.on] at hon
  · exact ⟨inv_step hcap h.1 hs, late_step h.1 h.2 hs⟩

end Runs

end Libuv.L4.Async
