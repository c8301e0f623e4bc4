import Libuv.Core.Fairness
import Libuv.L4Concurrency.AsyncSafety

/-!
# Every async send is followed by a callback

A run is fair when the loop thread and every sender in the middle of a call take a step
again and again. A send is followed through four stages:
the flag of its handle is up (`flag_raised`), then 2 (`flag_two`), then the loop has
taken it (`flag_taken`), then the callback starts. In the third the loop may have to
finish a walk that has already passed the handle, poll, drain, and walk again, and on the
way it may spin on other handles until their senders are done: `rank` counts what is left,
and whoever the loop waits for is the thread that makes progress.

* `async_no_lost_wakeup`: the wakeup results.
* `close_swallows`: a fair run with a send that is followed by no callback, because the
  handle is closed first.
-/
namespace Libuv.L4.Async

variable {H I : Type*} [DecidableEq H] [DecidableEq I] {cap : ℕ} {cb : H → Bool} {s t : State H I}

/-! ## Threads -/

theorem step_senders {l : Label H I} (h : Inv s) (hs : Step cap cb s l t) {i : I}
    (hl : l.thread ≠ .sender i) : t.senders i = s.senders i := by
  have hset : ∀ {u : State H I} {j : I} {p : Sender H}, u.senders = s.senders → Thread.sender j ≠ .sender i →
      (u.setSender j p).senders i = s.senders i := by
    intro u j p hu hj
    rw [State.setSender_senders, if_neg fun e => hj (by rw [e]), hu]
  cases hs with
  | send _ _ => exact hset rfl hl
  | load hi =>
    rcases load_spec (s := s) _ _ with ⟨e, -⟩ | ⟨e, -⟩ <;> rw [e] <;> exact hset rfl hl
  | swap01 hi =>
    rcases swap01_spec (s := s) _ _ with ⟨e, -⟩ | ⟨e, -⟩ <;> rw [e] <;> exact hset rfl hl
  | write hi => exact hset (u := { s with fd := _ }) rfl hl
  | swap12 hi =>
    rw [swap12_spec _ _ (h.flags.holder _ _ (.inr hi))]
    exact hset rfl hl
  | closeBusy _ _ | closed _ _ =>
    rcases asyncClose_spec h.flags _ _ with ⟨-, e⟩ | ⟨-, e⟩
    · rw [e]
    · rw [e]; rfl
  | spin _ =>
    rcases asyncSpin_spec h.flags cb _ with ⟨-, e⟩ | ⟨-, p, e, -⟩
    · rw [e]
    · rw [e]; rfl
  | init | close | work | iterate | poll | drain | move | visit | done | callback | ret => rfl

theorem step_opened {l : Label H I} (h : Inv s) (hs : Step cap cb s l t) {x : H} (hx : s.opened x = true)
    (hl : l ≠ .close x) : t.opened x = true := by
  cases hs with
  | load _ => rcases load_spec (s := s) _ _ with ⟨e, -⟩ | ⟨e, -⟩ <;> rw [e] <;> exact hx
  | swap01 _ => rcases swap01_spec (s := s) _ _ with ⟨e, -⟩ | ⟨e, -⟩ <;> rw [e] <;> exact hx
  | swap12 hi =>
    rw [swap12_spec _ _ (h.flags.holder _ _ (.inr hi))]
    exact hx
  | @init y _ _ _ _ ho _ =>
    have hne : x ≠ y := fun e => by rw [← e, hx] at ho; cases ho
    simpa [State.asyncInit, Function.update_of_ne hne] using hx
  | @close y _ _ _ _ _ =>
    have hne : x ≠ y := fun e => hl (by rw [e])
    simpa [Function.update_of_ne hne] using hx
  | closeBusy _ _ | closed _ _ => rcases asyncClose_spec h.flags _ _ with ⟨-, e⟩ | ⟨-, e⟩ <;> rw [e] <;> exact hx
  | spin _ => rcases asyncSpin_spec h.flags cb _ with ⟨-, e⟩ | ⟨-, p, e, -⟩ <;> rw [e] <;> exact hx
  | send | write | work | iterate | poll | drain | move | visit | done | callback | ret => exact hx

theorem sender_cases {l : Label H I} (h : Inv s) (hs : Step cap cb s l t) {i : I} (hl : l.thread = .sender i) :
    (∃ x, s.senders i = .idle ∧ t = s.setSender i (.load x)) ∨
    (∃ x, s.senders i = .load x ∧ (s.pending x ≠ 0 ∧ t = s.setSender i .idle ∨
      s.pending x = 0 ∧ t = s.setSender i (.swap01 x))) ∨
    (∃ x, s.senders i = .swap01 x ∧ (s.pending x ≠ 0 ∧ t = s.setSender i .idle ∨
      s.pending x = 0 ∧ t = (s.setPending x 1).setSender i (.write x))) ∨
    (∃ x f, s.senders i = .write x ∧ t = { s with fd := f }.setSender i (.swap12 x)) ∨
    (∃ x, s.senders i = .swap12 x ∧ s.pending x = 1 ∧ t = (s.setPending x 2).setSender i .idle) := by
  cases hs with
  | send hi _ => cases hl; exact .inl ⟨_, hi, rfl⟩
  | @load j x hi =>
    cases hl
    refine .inr (.inl ⟨x, hi, ?_⟩)
    rcases load_spec (s := s) i x with ⟨e, h0⟩ | ⟨e, h0⟩
    · exact .inl ⟨h0, e⟩
    · exact .inr ⟨h0, e⟩
  | @swap01 j x hi =>
    cases hl
    refine .inr (.inr (.inl ⟨x, hi, ?_⟩))
    rcases swap01_spec (s := s) i x with ⟨e, h0⟩ | ⟨e, h0⟩
    · exact .inl ⟨h0, e⟩
    · exact .inr ⟨h0, e⟩
  | write hi => cases hl; exact .inr (.inr (.inr (.inl ⟨_, _, hi, rfl⟩)))
  | @swap12 j x hi =>
    cases hl
    have h1 := h.flags.holder i x (.inr hi)
    exact .inr (.inr (.inr (.inr ⟨x, hi, h1, swap12_spec i x h1⟩)))
  | init | close | closeBusy | closed | work | iterate | poll | drain | move | visit | done | spin | callback
  | ret => cases hl

/-! ## The flag of the handle -/

section Stages
variable {ρ : (system (I := I) cap cb).InfRun} {x : H}

theorem flag_raised (hcap : 0 < cap) (hfair : ρ.Fair Label.thread active) {i : I} {n : ℕ}
    (ho : (ρ.state n).opened x = true) (hi : (ρ.state n).senders i = .load x) :
    ∃ m, n ≤ m ∧ (ρ.label m = .close x ∨ (ρ.state (m + 1)).opened x = true ∧ (ρ.state (m + 1)).pending x ≠ 0) := by
  let at_ (s : State H I) : Prop := s.senders i = .load x ∨ s.senders i = .swap01 x
  let rank (s : State H I) : ℕ := match s.senders i with
    | .load _ => 1
    | _ => 0
  refine ρ.leads_to_by (fun s => s.opened x = true ∧ at_ s) rank
    (fun _ l s' => l = .close x ∨ s'.opened x = true ∧ s'.pending x ≠ 0) (.sender i) hfair ?_ ?_ n ⟨ho, .inl hi⟩
  · intro s _ h
    show s.senders i ≠ .idle
    rcases h.2 with e | e <;> rw [e] <;> simp
  · intro s l t hr h hs
    have hinv := (inv_run hcap cb).reachable hr
    by_cases hc : l = .close x
    · exact .inl (.inl hc)
    have ho' := step_opened hinv hs h.1 hc
    by_cases hl : l.thread = .sender i
    · -- the sender itself: it sees the flag, or is one step further
      rcases sender_cases hinv hs hl with ⟨y, e, -⟩ | ⟨y, e, hy⟩ | ⟨y, e, hy⟩ | ⟨y, f, e, -⟩ | ⟨y, e, -, -⟩
      · rcases h.2 with e' | e' <;> rw [e'] at e <;> cases e
      · obtain rfl : x = y := by rcases h.2 with e' | e' <;> rw [e'] at e <;> cases e; rfl
        rcases hy with ⟨h0, rfl⟩ | ⟨h0, rfl⟩
        · exact .inl (.inr ⟨ho', h0⟩)
        · refine .inr ⟨⟨ho', .inr (by simp)⟩, .inl ?_⟩
          simp only [rank, State.setSender_senders, if_true, e]
          exact Nat.zero_lt_one
      · obtain rfl : x = y := by rcases h.2 with e' | e' <;> rw [e'] at e <;> cases e; rfl
        rcases hy with ⟨h0, rfl⟩ | ⟨h0, rfl⟩
        · exact .inl (.inr ⟨ho', h0⟩)
        · exact .inl (.inr ⟨ho', by simp⟩)
      · rcases h.2 with e' | e' <;> rw [e'] at e <;> cases e
      · rcases h.2 with e' | e' <;> rw [e'] at e <;> cases e
    · have he := step_senders hinv hs hl
      refine .inr ⟨⟨ho', ?_⟩, .inr ⟨?_, hl⟩⟩
      · simp only [at_, he]; exact h.2
      · simp [rank, he]

theorem flag_two (hcap : 0 < cap) (hfair : ρ.Fair Label.thread active) {n : ℕ}
    (ho : (ρ.state n).opened x = true) (hp : (ρ.state n).pending x ≠ 0) :
    (∃ m, n ≤ m ∧ ρ.label m = .close x) ∨ ∃ m, n ≤ m ∧ (ρ.state m).opened x = true ∧ (ρ.state m).pending x = 2 := by
  have hle := ((inv_run hcap cb).reachable (ρ.reachable n)).flags.le x
  rcases eq_or_ne ((ρ.state n).pending x) 2 with h2 | h2
  · exact .inr ⟨n, Nat.le_refl n, ho, h2⟩
  obtain ⟨i, hi⟩ := ((inv_run hcap cb).reachable (ρ.reachable n)).flags.held x (by omega)
  let rank (s : State H I) : ℕ := match s.senders i with
    | .write _ => 1
    | _ => 0
  obtain ⟨m, hm, hQ⟩ := ρ.leads_to_by (fun s => s.opened x = true ∧ (s.senders i).holds x) rank
    (fun _ l s' => l = .close x ∨ s'.opened x = true ∧ s'.pending x = 2) (.sender i) hfair
    (by
      intro s _ h
      show s.senders i ≠ .idle
      rcases h.2 with e | e <;> rw [e] <;> simp)
    (by
      intro s l t hr h hs
      have hinv := (inv_run hcap cb).reachable hr
      by_cases hc : l = .close x
      · exact .inl (.inl hc)
      have ho' := step_opened hinv hs h.1 hc
      by_cases hl : l.thread = .sender i
      · rcases sender_cases hinv hs hl with ⟨y, e, -⟩ | ⟨y, e, -⟩ | ⟨y, e, -⟩ | ⟨y, f, e, rfl⟩ | ⟨y, e, -, rfl⟩
        · rcases h.2 with e' | e' <;> rw [e'] at e <;> cases e
        · rcases h.2 with e' | e' <;> rw [e'] at e <;> cases e
        · rcases h.2 with e' | e' <;> rw [e'] at e <;> cases e
        · obtain rfl : x = y := by rcases h.2 with e' | e' <;> rw [e'] at e <;> cases e; rfl
          refine .inr ⟨⟨ho', .inr (by simp)⟩, .inl ?_⟩
          simp only [rank, State.setSender_senders, if_true, e]
          exact Nat.zero_lt_one
        · obtain rfl : x = y := by rcases h.2 with e' | e' <;> rw [e'] at e <;> cases e; rfl
          exact .inl (.inr ⟨ho', by simp⟩)
      · have he := step_senders hinv hs hl
        refine .inr ⟨⟨ho', ?_⟩, .inr ⟨?_, hl⟩⟩
        · rw [he]; exact h.2
        · simp [rank, he])
    n ⟨ho, hi⟩
  rcases hQ with hc | ⟨h1, h2⟩
  · exact .inl ⟨m, hm, hc⟩
  · exact .inr ⟨m + 1, by omega, h1, h2⟩

end Stages

/-! ## The loop's way to the handle -/

def Pc.spinsOn (p : Pc H) (x : H) : Prop := p = .spin x ∨ ∃ c, p = .closing x c

/-- The thread that can move the loop on: the loop itself, or the sender it spins for. -/
def Helps (p : Thread I) (s : State H I) : Prop :=
  (p = .loop ∧ ∀ x, s.pc.spinsOn x → s.pending x ≠ 1) ∨ ∃ i x, p = .sender i ∧ s.pc.spinsOn x ∧ (s.senders i).holds x

omit [DecidableEq H] [DecidableEq I] in
theorem exists_helps (h : Inv s) : ∃ p, Helps p s := by
  by_cases hb : ∃ x, s.pc.spinsOn x ∧ s.pending x = 1
  · obtain ⟨x, h1, h2⟩ := hb
    obtain ⟨i, hi⟩ := h.flags.held x h2
    exact ⟨.sender i, .inr ⟨i, x, rfl, h1, hi⟩⟩
  · exact ⟨.loop, .inl ⟨rfl, fun x h1 h2 => hb ⟨x, h1, h2⟩⟩⟩

section Rank
open Classical

/-- Which part of the way: a walk that has passed the handle, back to the drain, or the
walk that gets to it. -/
noncomputable def phase (x : H) (s : State H I) : ℕ :=
  match s.pc with
  | .run (.outside _) | .closing _ (.outside _) | .drain => 1
  | .move => 0
  | .spin y => if x = y ∨ x ∈ s.queue then 0 else 2
  | _ => if x ∈ s.queue then 0 else 2

def left (s : State H I) : ℕ :=
  match s.pc with
  | .move => s.asyncHandles.length + 1
  | _ => s.queue.length

/-- How far the loop is with one handle, or with its iteration. -/
def stage : Pc H → ℕ
  | .spin _ => 3
  | .call _ => 2
  | .run _ | .closing _ _ => 1
  | _ => 0

/-- What is left of a callback, or of the iteration. -/
def rest : Pc H → ℕ
  | .run (.outside n) | .run (.callback n) => 2 * n
  | .closing _ (.outside n) | .closing _ (.callback n) => 2 * n + 1
  | _ => 0

/-- What is left of the send that the loop spins for, or may have to. -/
noncomputable def flagRank (s : State H I) (x : H) : ℕ :=
  if s.pending x = 0 then 3
  else if s.pending x = 1 then if ∃ i, s.senders i = .swap12 x then 1 else 2
  else 0

noncomputable def busy (s : State H I) : ℕ :=
  match s.pc with
  | .spin x | .closing x _ => flagRank s x
  | _ => 0

noncomputable def rank (x : H) (s : State H I) : ℕ ×ₗ ℕ ×ₗ ℕ ×ₗ ℕ ×ₗ ℕ :=
  toLex (phase x s, toLex (left s, toLex (stage s.pc, toLex (rest s.pc, busy s))))

variable {x : H} {l : Label H I} {i : I}

omit [DecidableEq I] in
theorem rank_lt (h : phase x t < phase x s ∨ phase x t = phase x s ∧ (left t < left s ∨
    left t = left s ∧ (stage t.pc < stage s.pc ∨ stage t.pc = stage s.pc ∧ (rest t.pc < rest s.pc ∨
      rest t.pc = rest s.pc ∧ busy t < busy s)))) : rank x t < rank x s := by
  unfold rank
  simpa only [Prod.Lex.toLex_lt_toLex] using h

theorem sender_flag (h : Inv s) (hs : Step cap cb s l t) (hl : l.thread = .sender i)
    (x : H) : flagRank t x < flagRank s x ∨ flagRank t x = flagRank s x ∧ t.pending x = s.pending x ∧
      ∀ j, (s.senders j).holds x → j ≠ i ∧ t.senders j = s.senders j := by
  have hother : ∀ {u : State H I} {p : Sender H}, u.senders = s.senders → u.pending x = s.pending x →
      ¬ (s.senders i).holds x → p ≠ .swap12 x →
      flagRank (u.setSender i p) x = flagRank s x ∧ (u.setSender i p).pending x = s.pending x ∧
        ∀ j, (s.senders j).holds x → j ≠ i ∧ (u.setSender i p).senders j = s.senders j := by
    intro u p hu hp hi hne
    have hsw : (∃ j, (u.setSender i p).senders j = .swap12 x) ↔ ∃ j, s.senders j = .swap12 x := by
      refine exists_congr fun j => ?_
      rw [State.setSender_senders]
      split
      · next e => exact ⟨fun e' => absurd e' hne, fun e' => absurd (.inr (e ▸ e')) hi⟩
      · rw [hu]
    refine ⟨?_, hp, fun j hj => ?_⟩
    · unfold flagRank
      simp only [hsw, State.setSender_pending, hp]
    · have hji : j ≠ i := fun e => hi (e ▸ hj)
      exact ⟨hji, by rw [State.setSender_senders, if_neg hji, hu]⟩
  rcases sender_cases h hs hl with ⟨y, e, rfl⟩ | ⟨y, e, hy⟩ | ⟨y, e, hy⟩ | ⟨y, f, e, rfl⟩ | ⟨y, e, h1, rfl⟩
  · exact .inr (hother rfl rfl (by simp [e, Sender.holds]) (by simp))
  · rcases hy with ⟨-, rfl⟩ | ⟨-, rfl⟩ <;>
      exact .inr (hother rfl rfl (by simp [e, Sender.holds]) (by simp))
  · rcases hy with ⟨-, rfl⟩ | ⟨h0, rfl⟩
    · exact .inr (hother rfl rfl (by simp [e, Sender.holds]) (by simp))
    · by_cases hxy : x = y
      · subst hxy
        left
        simp only [flagRank, State.setSender_pending, State.setPending_pending, if_true, h0,
          Nat.one_ne_zero, if_false]
        split <;> omega
      · exact .inr (hother rfl (by simp [hxy]) (by simp [e, Sender.holds]) (by simp))
  · by_cases hxy : x = y
    · subst hxy
      left
      have h1 := h.flags.holder i x (.inl e)
      have hn : ¬ ∃ j, s.senders j = .swap12 x := by
        rintro ⟨j, hj⟩
        have := h.flags.unique i j x (.inl e) (.inr hj)
        rw [this, hj] at e
        cases e
      have hy : ∃ j, (State.setSender { s with fd := f } i (.swap12 x)).senders j = .swap12 x :=
        ⟨i, by simp⟩
      unfold flagRank
      rw [if_pos hy, if_neg hn]
      simp [h1]
    · exact .inr (hother rfl rfl (by simp [e, Sender.holds, Ne.symm hxy]) (by simp [Ne.symm hxy]))
  · by_cases hxy : x = y
    · subst hxy
      left
      have hy : ∃ j, s.senders j = .swap12 x := ⟨i, e⟩
      simp [flagRank, h1, hy]
    · exact .inr (hother rfl (by simp [hxy]) (by simp [e, Sender.holds, Ne.symm hxy]) (by simp))

theorem sender_frame (h : Inv s) (hs : Step cap cb s l t) (hl : l.thread = .sender i) :
    SenderStep s t := by
  rcases sender_cases h hs hl with ⟨y, -, rfl⟩ | ⟨y, -, hy⟩ | ⟨y, -, hy⟩ | ⟨y, f, -, rfl⟩ | ⟨y, -, -, rfl⟩
  · exact ⟨rfl, rfl, rfl, rfl⟩
  · rcases hy with ⟨-, rfl⟩ | ⟨-, rfl⟩ <;> exact ⟨rfl, rfl, rfl, rfl⟩
  · rcases hy with ⟨-, rfl⟩ | ⟨-, rfl⟩ <;> exact ⟨rfl, rfl, rfl, rfl⟩
  · exact ⟨rfl, rfl, rfl, rfl⟩
  · exact ⟨rfl, rfl, rfl, rfl⟩

omit [DecidableEq I] in
theorem SenderStep.rank (h : SenderStep s t) :
    phase x t = phase x s ∧ left t = left s ∧ stage t.pc = stage s.pc ∧ rest t.pc = rest s.pc := by
  unfold phase left
  rw [h.pc, h.queue, h.asyncHandles]
  exact ⟨rfl, rfl, rfl, rfl⟩

theorem sender_rank (h : Inv s) (hs : Step cap cb s l t) (hl : l.thread = .sender i)
    (x : H) : rank x t < rank x s ∨ rank x t = rank x s ∧ ∀ p, Helps p s → l.thread ≠ p ∧ Helps p t := by
  have hf := sender_frame h hs hl
  obtain ⟨r1, r2, r3, r4⟩ := hf.rank (x := x)
  by_cases hb : ∃ y, s.pc.spinsOn y
  · obtain ⟨y, hy⟩ := hb
    have hbusy : ∀ u : State H I, u.pc = s.pc → busy u = flagRank u y := fun u hu => by
      unfold busy
      rcases hy with e | ⟨c, e⟩ <;> rw [hu, e]
    have hspin : ∀ z, s.pc.spinsOn z → z = y := fun z hz => by
      rcases hy with e | ⟨c, e⟩ <;> rcases hz with e' | ⟨c', e'⟩ <;> rw [e] at e' <;> cases e' <;> rfl
    rcases sender_flag h hs hl y with hlt | ⟨heq, hp, hj⟩
    · left
      refine rank_lt (.inr ⟨r1, .inr ⟨r2, .inr ⟨r3, .inr ⟨r4, ?_⟩⟩⟩⟩)
      rw [hbusy t hf.pc, hbusy s rfl]
      exact hlt
    · refine .inr ⟨?_, fun p hh => ?_⟩
      · unfold rank
        rw [r1, r2, r3, r4, hbusy t hf.pc, hbusy s rfl, heq]
      · rcases hh with ⟨rfl, hn⟩ | ⟨j, z, rfl, hz, hh⟩
        · refine ⟨by rw [hl]; simp, .inl ⟨rfl, fun z hz => ?_⟩⟩
          rw [hf.pc] at hz
          obtain rfl := hspin z hz
          rw [hp]; exact hn z hz
        · obtain rfl := hspin z hz
          obtain ⟨k1, k2⟩ := hj j hh
          exact ⟨by rw [hl]; simpa using k1.symm, .inr ⟨j, z, rfl, by rw [hf.pc]; exact hz, by rw [k2]; exact hh⟩⟩
  · have hbusy : ∀ u : State H I, u.pc = s.pc → busy u = 0 := fun u hu => by
      unfold busy
      split
      · next y e => exact absurd ⟨y, .inl (hu ▸ e)⟩ hb
      · next y c e => exact absurd ⟨y, .inr ⟨c, hu ▸ e⟩⟩ hb
      · rfl
    refine .inr ⟨?_, fun p hh => ?_⟩
    · unfold rank
      rw [r1, r2, r3, r4, hbusy t hf.pc, hbusy s rfl]
    · rcases hh with ⟨rfl, hn⟩ | ⟨j, z, rfl, hz, -⟩
      · exact ⟨by rw [hl]; simp, .inl ⟨rfl, fun z hz => absurd ⟨z, hf.pc ▸ hz⟩ hb⟩⟩
      · exact absurd ⟨z, hz⟩ hb

theorem spin_same (h : Inv s) (hs : Step cap cb s l t) (hl : l.thread = .loop) {y : H}
    (hy : s.pc.spinsOn y) (h1 : s.pending y = 1) : t = s := by
  cases hs with
  | send | load | swap01 | write | swap12 => cases hl
  | closeBusy hp hb => exact ((asyncClose_spec h.flags _ _).resolve_right fun e => e.1 hb).2
  | @closed z c hp hb =>
    have : z = y := by rcases hy with e | ⟨c, e⟩ <;> rw [hp] at e <;> cases e; rfl
    exact absurd (this ▸ h1) hb
  | @spin z hp =>
    have : z = y := by rcases hy with e | ⟨c, e⟩ <;> rw [hp] at e <;> cases e; rfl
    exact ((asyncSpin_spec h.flags cb z).resolve_right fun e => e.1 (this ▸ h1)).2
  | init hp | close hp | work hp | poll hp | drain hp | move hp | visit hp | ret hp | iterate _ hp
  | done _ hp | callback _ hp => rcases hy with e | ⟨c, e⟩ <;> rw [hp] at e <;> cases e

theorem loop_rank (h : Inv s) (hs : Step cap cb s l t) (hl : l.thread = .loop)
    (hcb : cb x = true) (ho : s.opened x = true) (h2 : s.pending x = 2)
    (hspin : ∀ y, s.pc.spinsOn y → s.pending y ≠ 1) :
    l = .close x ∨ t.pc = .call x ∨ t.pending x = 2 ∧ rank x t < rank x s := by
  have hlink := h.lists.opened x ho
  have hrun : ∀ {c c' : Ctx}, s.pc = .run c → c.Next c' → ∀ u : State H I, u.queue = s.queue →
      (u.pc = .run c' ∨ ∃ y, u.pc = .closing y c') → rank x u < rank x s := by
    intro c c' hp hc u hq hu
    refine rank_lt (.inr ?_)
    cases hc <;> rcases hu with e | ⟨y, e⟩ <;> simp [phase, left, stage, rest, hp, e, hq] <;> omega
  cases hs with
  | send | load | swap01 | write | swap12 => cases hl
  | @init y _ _ hp hc ho' _ =>
    have hne : x ≠ y := fun e => by rw [← e, ho] at ho'; cases ho'
    refine .inr (.inr ⟨?_, hrun hp hc _ rfl (.inl rfl)⟩)
    simpa [State.asyncInit, hne] using h2
  | @close y _ _ hp hc _ => exact .inr (.inr ⟨h2, hrun hp hc _ rfl (.inr ⟨y, rfl⟩)⟩)
  | closeBusy hp hb => exact absurd hb (hspin _ (.inr ⟨_, hp⟩))
  | @closed y c hp hb =>
    have hne : x ≠ y := fun e => by
      have := h.lists.closing y c hp
      rw [← e, ho] at this
      cases this
    rcases asyncClose_spec h.flags y c with ⟨h1, -⟩ | ⟨-, e⟩
    · exact absurd h1 hb
    · rw [e]
      refine .inr (.inr ⟨by simpa [hne] using h2, rank_lt ?_⟩)
      have hlen := List.length_erase_le (a := y) (l := s.queue)
      cases c <;> simp [phase, left, stage, rest, hp, List.mem_erase_of_ne hne] <;> omega
  | work hp hc => exact .inr (.inr ⟨h2, hrun hp hc _ rfl (.inl rfl)⟩)
  | iterate n hp hf =>
    -- the fd is readable: the handle is not in a walk
    have hq : s.queue = [] := h.lists.empty (by rw [hp]; trivial)
    rcases h.woken x hlink (.inl h2) with e | ⟨e, -⟩ | e | e
    · exact absurd hf e
    · rw [hp] at e; cases e
    · rw [hq] at e; cases e
    · rw [hp] at e; cases e
  | poll hp _ =>
    refine .inr (.inr ⟨h2, rank_lt ?_⟩)
    simp [phase, left, stage, hp]
  | drain hp =>
    refine .inr (.inr ⟨h2, rank_lt ?_⟩)
    simp [phase, hp]
  | move hp =>
    have hq : s.queue = [] := h.lists.empty (by rw [hp]; trivial)
    have hx : x ∈ s.asyncHandles := hlink.resolve_right fun e => by rw [hq] at e; cases e
    refine .inr (.inr ⟨h2, rank_lt ?_⟩)
    simp [phase, left, hp, hx]
  | visit hp hq =>
    refine .inr (.inr ⟨h2, rank_lt ?_⟩)
    simp [phase, left, hp, hq]
  | done n hp hq =>
    refine .inr (.inr ⟨h2, rank_lt ?_⟩)
    simp [phase, hp, hq]
  | @spin y hp =>
    rcases asyncSpin_spec h.flags cb y with ⟨h1, -⟩ | ⟨-, p, e, hw, hcall⟩
    · exact absurd h1 (hspin y (.inl hp))
    · rw [e]
      by_cases hxy : x = y
      · subst hxy
        exact .inr (.inl (hcall h2 hcb))
      · refine .inr (.inr ⟨by simpa [hxy] using h2, rank_lt ?_⟩)
        rcases hw with rfl | rfl <;> simp [phase, left, stage, hp, hxy, State.setPending]
  | callback n hp | ret hp =>
    refine .inr (.inr ⟨h2, rank_lt ?_⟩)
    simp [phase, left, stage, hp]

theorem sender_two (h : Inv s) (hs : Step cap cb s l t) (hl : l.thread = .sender i)
    (h2 : s.pending x = 2) : t.pending x = 2 := by
  rcases sender_flag h hs hl x with hlt | ⟨-, hp, -⟩
  · unfold flagRank at hlt
    simp [h2] at hlt
  · rw [hp, h2]

end Rank

section Stages
variable {ρ : (system (I := I) cap cb).InfRun} {x : H}

theorem flag_taken (hcap : 0 < cap) (hfair : ρ.Fair Label.thread active) (hcb : cb x = true) {n : ℕ}
    (ho : (ρ.state n).opened x = true) (hp : (ρ.state n).pending x = 2) :
    ∃ m, n ≤ m ∧ (ρ.label m = .close x ∨ (ρ.state (m + 1)).pc = .call x) := by
  refine ρ.leads_to (fun s => s.opened x = true ∧ s.pending x = 2) Helps (rank x)
    (fun _ l s' => l = .close x ∨ s'.pc = .call x) hfair ?_
    (fun s hr _ => exists_helps ((inv_run hcap cb).reachable hr)) ?_ n ⟨ho, hp⟩
  · rintro p s - - (⟨rfl, -⟩ | ⟨i, y, rfl, -, hy⟩)
    · exact trivial
    · show s.senders i ≠ .idle
      rcases hy with e | e <;> rw [e] <;> simp
  · intro s l t hr h hs
    have hinv := (inv_run hcap cb).reachable hr
    by_cases hc : l = .close x
    · exact .inl (.inl hc)
    have ho' := step_opened hinv hs h.1 hc
    cases hl : l.thread with
    | sender i =>
      exact .inr ⟨⟨ho', sender_two hinv hs hl h.2⟩, hl ▸ sender_rank hinv hs hl x⟩
    | loop =>
      by_cases hb : ∃ y, s.pc.spinsOn y ∧ s.pending y = 1
      · -- the loop spins, and waits for a sender
        obtain ⟨y, hy, h1⟩ := hb
        obtain rfl := spin_same hinv hs hl hy h1
        refine .inr ⟨h, .inr ⟨rfl, fun p hh => ⟨fun e => ?_, hh⟩⟩⟩
        rcases hh with ⟨-, hn⟩ | ⟨i, z, rfl, -⟩
        · exact hn y hy h1
        · cases e
      · rcases loop_rank hinv hs hl hcb h.1 h.2 (fun y h1 h2 => hb ⟨y, h1, h2⟩) with e | e | ⟨e, hlt⟩
        · exact absurd e hc
        · exact .inl (.inr e)
        · exact .inr ⟨⟨ho', e⟩, .inl hlt⟩

theorem callback_started (hcap : 0 < cap) (hfair : ρ.Fair Label.thread active) {n : ℕ}
    (hp : (ρ.state n).pc = .call x) : ∃ m, n ≤ m ∧ ρ.label m = .callback x := by
  refine ρ.leads_to_by (fun s => s.pc = .call x) (fun _ => 0) (fun _ l _ => l = .callback x) .loop hfair ?_ ?_ n hp
  · exact fun _ _ _ => trivial
  intro s l t hr hpc hs
  cases hl : l.thread with
  | sender i =>
    have hf := sender_frame ((inv_run hcap cb).reachable hr) hs hl
    exact .inr ⟨hf.pc.trans hpc, .inr ⟨rfl, by simp⟩⟩
  | loop =>
    cases hs with
    | callback _ hp' => rw [hpc] at hp'; cases hp'; exact .inl rfl
    | send | load | swap01 | write | swap12 => cases hl
    | init hp | close hp | closeBusy hp | closed hp | work hp | poll hp | drain hp | move hp | visit hp
    | ret hp | spin hp | iterate _ hp | done _ hp => rw [hpc] at hp; cases hp

end Stages

/-! ## Results -/

theorem send_step {i : I} {x : H} (hs : Step cap cb s (.send i x) t) :
    s.opened x = true ∧ t = s.setSender i (.load x) := by
  cases hs with
  | send _ ho => exact ⟨ho, rfl⟩

/-- **No lost wakeup.** The `abort()` of `uv_async_send` is not reached. A handle with
`pending` 2 has a readable fd or the loop's visit before it, or it was closed while a
send was going on. In a fair run, a call of `uv_async_send` on a handle with a callback is
followed by the start of the callback, or the handle is closed. -/
theorem async_no_lost_wakeup {cap : ℕ} (hcap : 0 < cap) (cb : H → Bool) :
    (∀ ls (s : State H I), (system cap cb).History ls s → (∀ i, s.senders i ≠ .aborted) ∧
      ∀ x, s.pending x = 2 → s.fd ≠ 0 ∨ ToVisit s x ∨ SentAfterClose ls x) ∧
    ∀ ρ : (system (I := I) cap cb).InfRun, ρ.Fair Label.thread active → ∀ n i x,
      ρ.label n = .send i x → cb x = true → ∃ m, n < m ∧ (ρ.label m = .callback x ∨ ρ.label m = .close x) := by
  refine ⟨fun ls s hr => ?_, fun ρ hfair n i x hl hcb => ?_⟩
  · obtain ⟨h, hlate⟩ := late_run hcap hr
    refine ⟨h.flags.noAbort, fun x h2 => ?_⟩
    by_cases hx : Linked s x
    · exact (h.woken x hx (.inl h2)).imp id .inl
    · exact .inr (.inr (hlate.sent x hx (by omega)))
  · have hs : Step cap cb (ρ.state n) (.send i x) (ρ.state (n + 1)) := hl ▸ ρ.step n
    obtain ⟨ho, ht⟩ := send_step hs
    obtain ⟨m₁, h₁, hc | ⟨ho₁, hp₁⟩⟩ := flag_raised (n := n + 1) hcap hfair (i := i) (x := x)
      (by rw [ht]; exact ho) (by rw [ht]; simp)
    · exact ⟨m₁, by omega, .inr hc⟩
    rcases flag_two hcap hfair ho₁ hp₁ with ⟨m₂, h₂, hc⟩ | ⟨m₂, h₂, ho₂, hp₂⟩
    · exact ⟨m₂, by omega, .inr hc⟩
    obtain ⟨m₃, h₃, hc | hp₃⟩ := flag_taken hcap hfair hcb ho₂ hp₂
    · exact ⟨m₃, by omega, .inr hc⟩
    obtain ⟨m₄, h₄, hc⟩ := callback_started hcap hfair hp₃
    exact ⟨m₄, by omega, .inl hc⟩

theorem fair_of_idle (hcap : 0 < cap) (ρ : (system (I := I) cap cb).InfRun) {N : ℕ}
    (hidle : ∀ n, N ≤ n → ∀ i, (ρ.state n).senders i = .idle)
    (hloop : ∀ n, N ≤ n → (ρ.label n).thread = .loop) : ρ.Fair Label.thread active := by
  intro p n ha
  cases p with
  | loop => exact ⟨max n N, le_max_left _ _, hloop _ (le_max_right _ _)⟩
  | sender i =>
    by_contra hn
    -- without a step of its own it stays where it is
    have hsame : ∀ d, (ρ.state (n + d)).senders i = (ρ.state n).senders i := by
      intro d
      induction d with
      | zero => rfl
      | succ d ih =>
        rw [← ih]
        exact step_senders ((inv_run hcap cb).reachable (ρ.reachable (n + d))) (ρ.step (n + d))
          fun e => hn ⟨n + d, Nat.le_add_right n d, e⟩
    exact ha ((hsame N).symm.trans (hidle (n + N) (Nat.le_add_left N n) i))

/-! ## One handle, one sender -/

abbrev one : LTS (State Unit Unit) (Label Unit Unit) := system 1 fun _ => true

/-- A send has returned, and the loop has not polled. -/
def sent : State Unit Unit :=
  ⟨fun _ => 2, fun _ => true, [()], [], 1, fun _ => .idle, .run (.outside 1)⟩

theorem sent_history : one.History
    [.init (), .send () (), .load (), .swap01 () (), .write (), .swap12 ()] sent := by
  let s0 : State Unit Unit := ⟨fun _ => 0, fun _ => false, [], [], 0, fun _ => .idle, .run (.outside 2)⟩
  have h0 : one.History [] s0 :=
    .nil ⟨fun _ => rfl, fun _ => rfl, rfl, rfl, rfl, fun _ => rfl, 2, rfl⟩
  have h1 := h0.snoc (.init (h := ()) rfl (.outside 1) rfl (by simp [s0, Sender.on]))
  have h2 := h1.snoc (.send (i := ()) (h := ()) rfl rfl)
  have h3 := h2.snoc (.load (i := ()) (h := ()) rfl)
  have h4 := h3.snoc (.swap01 (i := ()) (h := ()) rfl)
  have h5 := h4.snoc (.write (i := ()) (h := ()) rfl)
  exact h5.snoc (.swap12 (i := ()) (h := ()) rfl)

theorem forever_fair {ls : List (Label Unit Unit)} {s : State Unit Unit} (h : one.History ls s)
    (hp : s.pc = .run (.outside 0)) (hf : s.fd = 0) (hi : s.senders () = .idle) :
    ∃ ρ : one.InfRun, ρ.Fair Label.thread active ∧ ∀ n, ρ.label n = ls[n]?.getD .iterate := by
  have hs : one.step s .iterate s := by
    have hs : one.step s .iterate { s with pc := .run (.outside 0) } := Step.iterate 0 hp hf
    rwa [← hp] at hs
  obtain ⟨ρ, hlabel, hstate⟩ := h.forever hs
  refine ⟨ρ, fair_of_idle Nat.one_pos ρ (N := ls.length) (fun n hn _ => ?_) (fun n hn => ?_), hlabel⟩
  · rw [hstate n hn]; exact hi
  · rw [hlabel, List.getElem?_eq_none hn]; rfl

/-- The handle is left open: the callback starts. -/
theorem async_no_lost_wakeup_served : ∃ ρ : one.InfRun, ρ.label 1 = .send () () ∧
    (∀ m, ρ.label m ≠ .close ()) ∧ ∃ m, 1 < m ∧ ρ.label m = .callback () := by
  have h1 := sent_history.snoc (.work rfl (.outside 0))
  have h2 := h1.snoc (.poll rfl (by decide))
  have h3 := ((h2.snoc (.drain rfl)).snoc (.move rfl)).snoc (.visit rfl rfl)
  have h4 := ((h3.snoc (.spin rfl)).snoc (.callback 0 rfl)).snoc (.ret rfl)
  obtain ⟨ρ, hfair, hlabel⟩ := forever_fair (h4.snoc (.done 0 rfl rfl)) rfl rfl rfl
  have hclose : ∀ m, ρ.label m ≠ .close () := fun m => by
    rw [hlabel]
    rcases Nat.lt_or_ge m 15 with hm | hm
    · interval_cases m <;> simp
    · rw [List.getElem?_eq_none (by simpa using hm)]; simp
  have hsend : ρ.label 1 = .send () () := hlabel 1
  obtain ⟨m, hm, hc⟩ := (async_no_lost_wakeup Nat.one_pos fun _ => true).2 ρ hfair 1 () () hsend rfl
  exact ⟨ρ, hsend, hclose, m, hm, hc.resolve_right (hclose m)⟩

/-- The handle is closed before the loop polls: `uv__async_close` takes the flag, and no
callback starts. -/
theorem close_swallows : ∃ ρ : one.InfRun, ρ.Fair Label.thread active ∧ ρ.label 1 = .send () () ∧
    ρ.label 5 = .swap12 () ∧ ρ.label 6 = .close () ∧ ∀ m, ρ.label m ≠ .callback () := by
  have h1 := sent_history.snoc (.close (h := ()) rfl (.outside 0) rfl)
  have h2 := h1.snoc (.closed rfl (by decide))
  have h3 := ((h2.snoc (.poll rfl (by decide))).snoc (.drain rfl)).snoc (.move rfl)
  obtain ⟨ρ, hfair, hlabel⟩ := forever_fair (h3.snoc (.done 0 rfl rfl)) rfl rfl rfl
  refine ⟨ρ, hfair, hlabel 1, hlabel 5, hlabel 6, fun m => ?_⟩
  rw [hlabel]
  rcases Nat.lt_or_ge m 12 with hm | hm
  · interval_cases m <;> simp
  · rw [List.getElem?_eq_none (by simpa using hm)]; simp

end Libuv.L4.Async
