import Libuv.L2Loop.IoWatcher

/-!
# The watcher table agrees with the watchers and the kernel

`Agrees s` says what the table, its counter, the queue, the masks of the watchers and
the kernel's interest list have to do with each other. Every operation keeps it
(`ioStart_agrees`, `ioStop_agrees`, `ioClose_agrees`, `register_agrees`, ..), at any moment
of a run of `uv__io_poll` and its callbacks.

* `watcher_table`: what it means for `uv__io_poll`: the assertions at its head hold, and
  after the registration loop the kernel watches exactly what the watchers want.
-/
namespace Libuv.L2.IoWatcher

open List Function

variable {W : Type*} [DecidableEq W]

/-! ## Growing the table -/

theorem le_smear (x k : UInt32) : x.toNat ≤ (x ||| x >>> k).toNat := by
  rw [UInt32.toNat_or]; exact Nat.left_le_or

theorem le_nextPowerOfTwo {v : UInt32} (h1 : 1 ≤ v.toNat) (h0 : Loop.nextPowerOfTwo v ≠ 0) :
    v.toNat ≤ (Loop.nextPowerOfTwo v).toNat := by
  unfold Loop.nextPowerOfTwo at h0 ⊢
  simp only at h0 ⊢
  have e0 : (v - 1).toNat = v.toNat - 1 := by
    rw [UInt32.toNat_sub_of_le v 1 (by rw [UInt32.le_iff_toNat_le, UInt32.toNat_one]; exact h1), UInt32.toNat_one]
  have hle := ((le_smear (v - 1) 1).trans ((le_smear _ 2).trans ((le_smear _ 4).trans
    ((le_smear _ 8).trans (le_smear _ 16)))))
  revert h0 hle
  generalize (_ ||| _ >>> (16 : UInt32)) = e
  intro h0 hle
  have hlt := e.toNat_lt
  have hne : e.toNat + 1 ≠ 2 ^ 32 := by
    intro h
    apply h0
    apply UInt32.toNat_inj.mp
    rw [UInt32.toNat_add, UInt32.toNat_one, h]
    rfl
  rw [UInt32.toNat_add, UInt32.toNat_one]
  omega

/-- The table has its two extra slots, and nothing but watchers and `NULL` before them. -/
structure Shaped (s : Loop W) : Prop where
  length : s.watchers = [] ∧ s.nwatchers = 0 ∨ s.watchers.length = s.nwatchers.toNat + 2
  cells : ∀ i, i < s.nwatchers.toNat → s.watchers[i]? = some .null ∨ ∃ w, s.watchers[i]? = some (.watcher w)

omit [DecidableEq W] in
theorem Shaped.length_set {s : Loop W} {i : ℕ} (h : Shaped s) (hi : i < s.nwatchers.toNat) (c : Cell W) :
    s.watchers.set i c = [] ∧ s.nwatchers = 0 ∨ (s.watchers.set i c).length = s.nwatchers.toNat + 2 := by
  rw [List.length_set]
  rcases h.length with ⟨-, h2⟩ | h1
  · rw [h2] at hi
    exact absurd hi (Nat.not_lt_zero i)
  · exact .inr h1

/-- The number of non-`NULL` entries before the extra slots. -/
def entries (s : Loop W) : ℕ := (s.watchers.take s.nwatchers.toNat).countP fun c => decide (c ≠ Cell.null)

/-- What growing the table does: entries and extra slots are carried along. -/
structure Grown (s t : Loop W) : Prop where
  shaped : Shaped t
  le : s.nwatchers.toNat ≤ t.nwatchers.toNat
  old : ∀ i, i < s.nwatchers.toNat → t.watchers[i]? = s.watchers[i]?
  new : ∀ i, s.nwatchers.toNat ≤ i → i < t.nwatchers.toNat → t.watchers[i]? = some .null
  slots : s.watchers ≠ [] → ∀ j, t.watchers[t.nwatchers.toNat + j]? = s.watchers[s.nwatchers.toNat + j]?
  fresh : s.watchers = [] → t.watchers = [] ∨
    t.watchers[t.nwatchers.toNat]? = some .null ∧ t.watchers[t.nwatchers.toNat + 1]? = some .null
  entries : entries t = entries s

theorem Shaped.grown {s : Loop W} (h : Shaped s) : Grown s s where
  shaped := h
  le := Nat.le_refl _
  old _ _ := rfl
  new i h1 h2 := by omega
  slots _ _ := rfl
  fresh h := .inl h
  entries := rfl

theorem grown_of {s : Loop W} {n : UInt32} {a b : Cell W} (h : Shaped s)
    (hn : s.nwatchers.toNat ≤ n.toNat)
    (hs : s.watchers ≠ [] → s.watchers[s.nwatchers.toNat]? = some a ∧ s.watchers[s.nwatchers.toNat + 1]? = some b)
    (hf : s.watchers = [] → a = .null ∧ b = .null) :
    Grown s { s with
      watchers := s.watchers.take s.nwatchers.toNat ++
        List.replicate (n.toNat - s.nwatchers.toNat) .null ++ [a, b]
      nwatchers := n } := by
  have hlen : (s.watchers.take s.nwatchers.toNat).length = s.nwatchers.toNat := by
    rcases h.length with ⟨h1, h2⟩ | h1
    · simp [h1, h2]
    · simp [h1]
  have hold : ∀ i, i < s.nwatchers.toNat → (s.watchers.take s.nwatchers.toNat ++
      List.replicate (n.toNat - s.nwatchers.toNat) .null ++ [a, b])[i]? = s.watchers[i]? := by
    intro i hi
    rw [append_assoc, getElem?_append_left (by omega), getElem?_take_of_lt hi]
  have hnew : ∀ i, s.nwatchers.toNat ≤ i → i < n.toNat → (s.watchers.take s.nwatchers.toNat ++
      List.replicate (n.toNat - s.nwatchers.toNat) .null ++ [a, b])[i]? = some .null := by
    intro i h1 h2
    rw [append_assoc, getElem?_append_right (by omega), hlen,
      getElem?_append_left (by simp; omega), getElem?_replicate, if_pos (by omega)]
  have hslot : ∀ j, (s.watchers.take s.nwatchers.toNat ++
      List.replicate (n.toNat - s.nwatchers.toNat) .null ++ [a, b])[n.toNat + j]? = [a, b][j]? := by
    intro j
    rw [getElem?_append_right (by simp [hlen]; omega)]
    congr 1
    simp [hlen]; omega
  refine ⟨⟨.inr ?_, fun i hi => ?_⟩, hn, hold, hnew, fun hne j => ?_, fun he => .inr ?_, ?_⟩
  · simp [hlen]; omega
  · simp only at hi ⊢
    by_cases h1 : i < s.nwatchers.toNat
    · rw [hold i h1]; exact h.cells i h1
    · exact .inl (hnew i (by omega) hi)
  · obtain ⟨h1, h2⟩ := hs hne
    rw [hslot]
    rcases h.length with ⟨h3, -⟩ | h3
    · exact absurd h3 hne
    · match j with
      | 0 => exact h1.symm
      | 1 => exact h2.symm
      | j + 2 => exact (getElem?_eq_none (by omega : s.watchers.length ≤ _)).symm
  · obtain ⟨rfl, rfl⟩ := hf he
    exact ⟨hslot 0, hslot 1⟩
  · unfold entries
    simp only
    rw [take_left' (by simp [hlen]; omega)]
    simp [countP_replicate]

omit [DecidableEq W] in
theorem maybeResize_eq {s t : Loop W} {len : UInt32} (ht : s.maybeResize len = some t) :
    t = { s with watchers := t.watchers, nwatchers := t.nwatchers } := by
  unfold Loop.maybeResize at ht
  split at ht
  · cases ht
    rfl
  split at ht
  · cases ht
  dsimp only at ht
  split at ht
  · cases ht
  · cases ht
    rfl

theorem maybeResize_spec {s t : Loop W} {len : UInt32} (h : Shaped s) (hlen : len.toNat < 2 ^ 31)
    (ht : s.maybeResize len = some t) : Grown s t ∧ len.toNat ≤ t.nwatchers.toNat := by
  unfold Loop.maybeResize at ht
  split at ht
  · next hle =>
    cases ht
    exact ⟨h.grown, by rwa [UInt32.le_iff_toNat_le] at hle⟩
  · next hgt =>
    rw [UInt32.le_iff_toNat_le] at hgt
    -- the new size covers `len`, unless it wrapped to 0
    have hlen2 : (len + 2).toNat = len.toNat + 2 := by
      rw [UInt32.toNat_add]; simp only [UInt32.reduceToNat]; omega
    have hsize : ∀ {n : UInt32}, n = Loop.nextPowerOfTwo (len + 2) - 2 → n + 2 ≠ 0 → len.toNat ≤ n.toNat := by
      intro n hn h0
      have e : n + 2 = Loop.nextPowerOfTwo (len + 2) := by rw [hn]; simp
      rw [e] at h0
      have hle := le_nextPowerOfTwo (by omega) h0
      rw [hn, UInt32.toNat_sub_of_le _ _ (by rw [UInt32.le_iff_toNat_le]; simp only [UInt32.reduceToNat]; omega)]
      simp only [UInt32.reduceToNat]
      omega
    cases hfake : s.fakeSlots with
    | none => simp [hfake] at ht
    | some ab =>
      simp only [hfake] at ht
      split at ht
      · cases ht
      next h0 =>
      cases ht
      have hle := hsize rfl h0
      refine ⟨grown_of h (by omega) (fun hne => ?_) (fun hnil => ?_), hle⟩
      · simp only [Loop.fakeSlots, if_neg hne] at hfake
        split at hfake
        · cases hfake; exact ⟨by assumption, by assumption⟩
        · cases hfake
      · simp only [Loop.fakeSlots, if_pos hnil] at hfake
        cases hfake; exact ⟨rfl, rfl⟩

/-! ## The invariant -/

structure Agrees (s : Loop W) : Prop where
  shaped : Shaped s
  /-- a watcher that wants something is in the table .. -/
  mapped : ∀ w, (s.io w).pevents ≠ 0 →
    ∃ i : ℕ, i < s.nwatchers.toNat ∧ (s.io w).fd = i ∧ s.watchers[i]? = some (.watcher w)
  /-- .. and nothing else is -/
  owner : ∀ (i : ℕ) w, i < s.nwatchers.toNat → s.watchers[i]? = some (.watcher w) →
    (s.io w).pevents ≠ 0 ∧ (s.io w).fd = i
  count : s.nfds = entries s
  queued : ∀ w, w ∈ s.watcherQueue → (s.io w).pevents ≠ 0
  once : s.watcherQueue.Nodup
  dirty : ∀ w, (s.io w).pevents ≠ 0 → (s.io w).events ≠ (s.io w).pevents → w ∈ s.watcherQueue
  /-- what a watcher has told the kernel the kernel still holds -/
  clean : ∀ w, (s.io w).events ≠ 0 → (s.io w).pevents ≠ 0 ∧ s.kernel (s.io w).fd = some (s.io w).events
  known : ∀ fd, (s.kernel fd).isSome = true → ∃ i : ℕ, i < s.nwatchers.toNat ∧ fd = i
  live : ∀ w, (s.io w).pevents ≠ 0 → s.live w = true
  distinct : ∀ w w', s.live w = true → s.live w' = true → (s.io w).fd ≠ -1 → (s.io w).fd = (s.io w').fd → w = w'
  mask : ∀ w, (s.io w).pevents.sub pollMask

namespace Loop

@[simp] theorem setIo_io (s : Loop W) (w w' : W) (o : Io) :
    (s.setIo w o).io w' = if w' = w then o else s.io w' := by
  simp [setIo, update_apply]

theorem io_same {β : Type} {s u : Loop W} {w : W} {o : Io} (g : Io → β) (hio : ∀ w', u.io w' = if w' = w then o else s.io w')
    (hg : g o = g (s.io w)) (w' : W) : g (u.io w') = g (s.io w') := by
  rw [hio]
  split
  · next e => rw [e, hg]
  · rfl

@[simp] theorem setIo_watchers (s : Loop W) (w : W) (o : Io) : (s.setIo w o).watchers = s.watchers := rfl
@[simp] theorem setIo_pc (s : Loop W) (w : W) (o : Io) : (s.setIo w o).pc = s.pc := rfl
@[simp] theorem setIo_live (s : Loop W) (w : W) (o : Io) : (s.setIo w o).live = s.live := rfl
@[simp] theorem setIo_nfds (s : Loop W) (w : W) (o : Io) : (s.setIo w o).nfds = s.nfds := rfl
@[simp] theorem setIo_kernel (s : Loop W) (w : W) (o : Io) : (s.setIo w o).kernel = s.kernel := rfl

@[simp] theorem setIo_nwatchers (s : Loop W) (w : W) (o : Io) :
    (s.setIo w o).nwatchers = s.nwatchers := rfl
@[simp] theorem setIo_watcherQueue (s : Loop W) (w : W) (o : Io) :
    (s.setIo w o).watcherQueue = s.watcherQueue := rfl

@[simp] theorem enqueue_io (s : Loop W) (w : W) : (s.enqueue w).io = s.io := by
  unfold enqueue; split <;> rfl
@[simp] theorem enqueue_watchers (s : Loop W) (w : W) : (s.enqueue w).watchers = s.watchers := by
  unfold enqueue; split <;> rfl
@[simp] theorem enqueue_nwatchers (s : Loop W) (w : W) : (s.enqueue w).nwatchers = s.nwatchers := by
  unfold enqueue; split <;> rfl
@[simp] theorem enqueue_nfds (s : Loop W) (w : W) : (s.enqueue w).nfds = s.nfds := by
  unfold enqueue; split <;> rfl
@[simp] theorem enqueue_live (s : Loop W) (w : W) : (s.enqueue w).live = s.live := by
  unfold enqueue; split <;> rfl
@[simp] theorem enqueue_kernel (s : Loop W) (w : W) : (s.enqueue w).kernel = s.kernel := by
  unfold enqueue; split <;> rfl
@[simp] theorem enqueue_pc (s : Loop W) (w : W) : (s.enqueue w).pc = s.pc := by
  unfold enqueue; split <;> rfl
@[simp] theorem mem_enqueue (s : Loop W) (w w' : W) :
    w' ∈ (s.enqueue w).watcherQueue ↔ w' ∈ s.watcherQueue ∨ w' = w := by
  unfold enqueue
  split
  · next h => exact ⟨.inl, fun h' => h'.elim id (fun e => e ▸ h)⟩
  · simp

theorem enqueue_nodup (s : Loop W) (w : W) (h : s.watcherQueue.Nodup) :
    (s.enqueue w).watcherQueue.Nodup := by
  unfold enqueue
  split
  · exact h
  · next hn => exact List.Nodup.append h (nodup_singleton w) (by simpa using hn)

end Loop

theorem Mask.or_ne_zero {a b : Mask} (h : b ≠ 0) : a ||| b ≠ 0 := by
  intro e
  apply h
  apply BitVec.eq_of_getLsbD_eq
  intro i hi
  have := congrArg (·.getLsbD i) e
  simp at this ⊢
  exact this.2

theorem Mask.sub_or {a b c : Mask} (ha : a.sub c) (hb : b.sub c) : (a ||| b).sub c := by
  unfold Mask.sub at *
  rw [BitVec.and_or_distrib_right, ha, hb]; rfl

/-! ## Operations -/

section Ops
variable {s t : Loop W} {w : W}

theorem Agrees.under (h : Agrees s) {live : W → Bool} {kernel : ℤ → Option Mask}
    (hl : ∀ w, (s.io w).pevents ≠ 0 → live w = true)
    (hd : ∀ w w', live w = true → live w' = true → (s.io w).fd ≠ -1 → (s.io w).fd = (s.io w').fd → w = w')
    (hc : ∀ w, (s.io w).events ≠ 0 → kernel (s.io w).fd = some (s.io w).events)
    (hk : ∀ fd, (kernel fd).isSome = true → (s.kernel fd).isSome = true) :
    Agrees { s with live := live, kernel := kernel } :=
  ⟨⟨h.shaped.length, h.shaped.cells⟩, h.mapped, h.owner, h.count, h.queued, h.once, h.dirty,
    fun w hw => ⟨(h.clean w hw).1, hc w hw⟩, fun fd hfd => h.known fd (hk fd hfd), hl, hd, h.mask⟩

theorem Agrees.replace (h : Agrees s) (fd : ℤ) (hl : s.live w = false) : Agrees (s.setIo w { fd := fd, events := 0, pevents := 0 }) := by
  have hp : (s.io w).pevents = 0 := by
    by_contra hne
    rw [h.live w hne] at hl; cases hl
  have hne : ∀ w', (s.io w').pevents ≠ 0 → w' ≠ w := fun w' hw' e => hw' (e ▸ hp)
  have hother : ∀ w', w' ≠ w → (s.setIo w { fd := fd, events := 0, pevents := 0 }).io w' = s.io w' := fun w' e => by
    rw [Loop.setIo_io, if_neg e]
  have hself : (s.setIo w { fd := fd, events := 0, pevents := 0 }).io w = { fd := fd, events := 0, pevents := 0 } := by
    rw [Loop.setIo_io, if_pos rfl]
  have hlive : ∀ w', s.live w' = true → w' ≠ w := fun w' e e' => by rw [e', hl] at e; cases e
  refine ⟨⟨h.shaped.length, h.shaped.cells⟩, fun w' hw' => ?_, fun i w' hi hw' => ?_, h.count, fun w' hw' => ?_, h.once,
    fun w' hw' he => ?_, fun w' hw' => ?_, h.known, fun w' hw' => ?_, fun w1 w2 l1 l2 => ?_, fun w' => ?_⟩
  · have e : w' ≠ w := fun e => hw' (by rw [e, hself])
    rw [hother w' e] at hw' ⊢
    exact h.mapped w' hw'
  · have := h.owner i w' hi hw'
    rw [hother w' (hne w' this.1)]
    exact this
  · have := h.queued w' hw'
    rw [hother w' (hne w' this)]
    exact this
  · have e : w' ≠ w := fun e => hw' (by rw [e, hself])
    rw [hother w' e] at hw' he
    exact h.dirty w' hw' he
  · have e : w' ≠ w := fun e => hw' (by rw [e, hself])
    rw [hother w' e] at hw' ⊢
    exact h.clean w' hw'
  · have e : w' ≠ w := fun e => hw' (by rw [e, hself])
    rw [hother w' e] at hw'
    exact h.live w' hw'
  · rw [hother w1 (hlive w1 l1), hother w2 (hlive w2 l2)]
    exact h.distinct w1 w2 l1 l2
  · by_cases e : w' = w
    · rw [e]
      simp [Mask.sub]
    · rw [hother w' e]
      exact h.mask w'

theorem ioInit_agrees (h : Agrees s) {fd : ℤ} (hl : s.live w = false)
    (hd : fd ≠ -1 → ∀ w', s.live w' = true → (s.io w').fd ≠ fd) : Agrees (s.ioInit w fd) := by
  have hr := h.replace fd hl
  refine hr.under (fun w' hw' => ?_) (fun w1 w2 => ?_) (fun w' hw' => (hr.clean w' hw').2) fun _ => id
  · rw [update_apply]
    split
    · rfl
    · exact hr.live w' hw'
  · simp only [update_apply, Loop.setIo_io]
    have := h.distinct w1 w2
    grind

theorem grown_agrees (h : Agrees s) (hg : Grown s t)
    (ht : t = { s with watchers := t.watchers, nwatchers := t.nwatchers }) : Agrees t := by
  have hio : t.io = s.io := by rw [ht]
  have hq : t.watcherQueue = s.watcherQueue := by rw [ht]
  have hl : t.live = s.live := by rw [ht]
  have hk : t.kernel = s.kernel := by rw [ht]
  have hn : t.nfds = s.nfds := by rw [ht]
  refine ⟨hg.shaped, ?_, ?_, ?_, ?_, ?_, ?_, ?_, ?_, ?_, ?_, ?_⟩
  · intro w hw
    rw [hio] at hw ⊢
    obtain ⟨i, h1, h2, h3⟩ := h.mapped w hw
    exact ⟨i, Nat.lt_of_lt_of_le h1 hg.le, h2, by rw [hg.old i h1]; exact h3⟩
  · intro i w hi hw
    rw [hio]
    by_cases h1 : i < s.nwatchers.toNat
    · rw [hg.old i h1] at hw
      exact h.owner i w h1 hw
    · rw [hg.new i (by omega) hi] at hw
      cases hw
  · rw [hn, h.count, hg.entries]
  · rw [hio, hq]; exact h.queued
  · rw [hq]; exact h.once
  · rw [hio, hq]; exact h.dirty
  · rw [hio, hk]; exact h.clean
  · rw [hk]
    intro fd hfd
    obtain ⟨i, h1, h2⟩ := h.known fd hfd
    exact ⟨i, Nat.lt_of_lt_of_le h1 hg.le, h2⟩
  · rw [hio, hl]; exact h.live
  · rw [hio, hl]; exact h.distinct
  · rw [hio]; exact h.mask

theorem Agrees.entry (h : Agrees s) {f : ℕ} (hl : s.live w = true) (hf : (s.io w).fd = f)
    (hlt : f < s.nwatchers.toNat) :
    (s.io w).pevents ≠ 0 ∧ s.watchers[f]? = some (.watcher w) ∨
      (s.io w).pevents = 0 ∧ (s.io w).events = 0 ∧ w ∉ s.watcherQueue ∧ s.watchers[f]? = some .null := by
  by_cases hp : (s.io w).pevents = 0
  · right
    have he : (s.io w).events = 0 := by
      by_contra hne
      exact (h.clean w hne).1 hp
    refine ⟨hp, he, fun hq => h.queued w hq hp, ?_⟩
    rcases h.shaped.cells f hlt with h1 | ⟨w', h1⟩
    · exact h1
    · -- another watcher there would have the same fd
      obtain ⟨h2, h3⟩ := h.owner f w' hlt h1
      have := h.distinct w w' hl (h.live w' h2) (by omega) (by rw [hf, h3])
      rw [← this] at h2
      exact absurd hp h2
  · left
    obtain ⟨i, -, h2, h3⟩ := h.mapped w hp
    have : i = f := by omega
    exact ⟨hp, this ▸ h3⟩

theorem entries_set {l : List (Cell W)} {n i : ℕ} {a c : Cell W} (hi : i < n) (ha : l[i]? = some a) :
    ((l.set i c).take n).countP (fun c => decide (c ≠ Cell.null)) + (if a = .null then 0 else 1) =
      (l.take n).countP (fun c => decide (c ≠ Cell.null)) + (if c = .null then 0 else 1) := by
  obtain ⟨hlt, hget⟩ := List.getElem?_eq_some_iff.mp ha
  have hlt' : i < (l.take n).length := by rw [length_take]; omega
  have hget' : (l.take n)[i] = a := by rw [getElem_take]; exact hget
  have hpos : a ≠ .null → 0 < (l.take n).countP (fun c => decide (c ≠ Cell.null)) := fun hne =>
    countP_pos_iff.mpr ⟨a, hget' ▸ getElem_mem hlt', by simpa using hne⟩
  rw [take_set, countP_set hlt']
  by_cases h1 : a = .null <;> by_cases h2 : c = .null <;> simp_all

theorem setIo_maybeResize (o : Io) (len : UInt32) :
    (s.setIo w o).maybeResize len = (s.maybeResize len).map (·.setIo w o) := by
  unfold Loop.maybeResize
  have hf : (s.setIo w o).fakeSlots = s.fakeSlots := rfl
  rw [hf]
  by_cases hle : len ≤ s.nwatchers
  · have hle' : len ≤ (s.setIo w o).nwatchers := hle
    rw [if_pos hle, if_pos hle']; rfl
  · have hle' : ¬ len ≤ (s.setIo w o).nwatchers := hle
    rw [if_neg hle, if_neg hle']
    cases s.fakeSlots with
    | none => rfl
    | some ab =>
      simp only
      by_cases h0 : Loop.nextPowerOfTwo (len + 2) - 2 + 2 = 0
      · rw [if_pos h0, if_pos h0]; rfl
      · rw [if_neg h0, if_neg h0]; rfl

/-- A watcher in the table wants something else: it is queued, unless the kernel has
been told so before. -/
theorem retarget_agrees (h : Agrees s) {p : Mask} (hw : (s.io w).pevents ≠ 0) (hp : p ≠ 0)
    (hm : p.sub pollMask) :
    ((s.io w).events = p → Agrees (s.setIo w { s.io w with pevents := p })) ∧
      Agrees ((s.setIo w { s.io w with pevents := p }).enqueue w) := by
  have hall : ∀ u : Loop W, u.watchers = s.watchers → u.nwatchers = s.nwatchers → u.nfds = s.nfds →
      u.live = s.live → u.kernel = s.kernel →
      (∀ w', u.io w' = if w' = w then { s.io w with pevents := p } else s.io w') →
      (∀ w', w' ∈ u.watcherQueue ↔ w' ∈ s.watcherQueue ∨ w' = w ∧ w ∈ u.watcherQueue) →
      u.watcherQueue.Nodup → ((s.io w).events = p ∨ w ∈ u.watcherQueue) → Agrees u := by
    intro u e1 e2 e3 e4 e5 hio hq hnd hor
    have hfd := Loop.io_same Io.fd hio rfl
    have hev := Loop.io_same Io.events hio rfl
    have hpe : ∀ w', (u.io w').pevents ≠ 0 ↔ (s.io w').pevents ≠ 0 := fun w' => by
      rw [hio]
      split
      · next e => subst e; exact ⟨fun _ => hw, fun _ => hp⟩
      · rfl
    refine ⟨⟨by rw [e1, e2]; exact h.shaped.length, by rw [e1, e2]; exact h.shaped.cells⟩,
      ?_, ?_, ?_, ?_, hnd, ?_, ?_, ?_, ?_, ?_, ?_⟩
    · intro w' hw'
      rw [hfd, e1, e2]; exact h.mapped w' ((hpe w').mp hw')
    · intro i w' hi hw'
      rw [e2] at hi; rw [e1] at hw'
      rw [hpe, hfd]; exact h.owner i w' hi hw'
    · unfold entries; rw [e1, e2, e3]; exact h.count
    · intro w' hw'
      rw [hpe]
      rcases (hq w').mp hw' with h1 | ⟨rfl, -⟩
      · exact h.queued w' h1
      · exact hw
    · intro w' hw' hne
      rw [hq]
      by_cases e : w' = w
      · subst e
        rcases hor with h1 | h1
        · rw [hio, if_pos rfl] at hne
          exact absurd h1 hne
        · exact .inr ⟨rfl, h1⟩
      · rw [hio, if_neg e] at hne hw'
        exact .inl (h.dirty w' hw' hne)
    · intro w' hw'
      rw [hpe, hfd, hev, e5]
      rw [hev] at hw'
      exact h.clean w' hw'
    · rw [e5, e2]; exact h.known
    · intro w' hw'
      rw [e4]; exact h.live w' ((hpe w').mp hw')
    · intro w1 w2
      rw [e4, hfd, hfd]; exact h.distinct w1 w2
    · intro w'
      rw [hio]
      split
      · exact hm
      · exact h.mask w'
  refine ⟨fun he => ?_, ?_⟩
  · exact hall _ rfl rfl rfl rfl rfl (fun w' => by simp) (fun w' => by
      constructor
      · exact .inl
      · rintro (h1 | ⟨rfl, h1⟩) <;> exact h1) h.once (.inl he)
  · exact hall _ (by simp) (by simp) (by simp) (by simp) (by simp) (fun w' => by simp) (fun w' => by simp)
      (Loop.enqueue_nodup _ _ h.once) (.inr (by simp))

theorem insert_agrees (h : Agrees s) {p : Mask} {f : ℕ} (hl : s.live w = true)
    (hf : (s.io w).fd = f) (hlt : f < s.nwatchers.toNat) (hn : s.watchers[f]? = some .null)
    (hw : (s.io w).pevents = 0) (hp : p ≠ 0) (hm : p.sub pollMask) :
    Agrees { (s.setIo w { s.io w with pevents := p }).enqueue w with
      watchers := s.watchers.set f (.watcher w), nfds := s.nfds + 1 } := by
  have he : (s.io w).events = 0 := by
    by_contra hne
    exact (h.clean w hne).1 hw
  have hget : ∀ i, (s.watchers.set f (.watcher w))[i]? =
      if i = f then some (.watcher w) else s.watchers[i]? := by
    intro i
    rw [getElem?_set]
    split
    · next e =>
      subst e
      rw [if_pos (List.getElem?_eq_some_iff.mp hn).1, if_pos rfl]
    · next e => rw [if_neg (Ne.symm e)]
  have hcount := entries_set (c := Cell.watcher w) hlt hn
  simp only [if_true, reduceCtorEq, if_false, Nat.add_zero] at hcount
  constructor <;> simp [hget]
  · refine ⟨?_, fun i hi => ?_⟩
    · exact h.shaped.length_set hlt _
    · simp only [hget]
      split
      · exact .inr ⟨w, rfl⟩
      · exact h.shaped.cells i (by simpa using hi)
  · intro w' hw'
    by_cases e : w' = w
    · subst e
      exact ⟨f, hlt, by simpa using hf, by simp⟩
    · rw [if_neg e] at hw' ⊢
      obtain ⟨i, h1, h2, h3⟩ := h.mapped w' hw'
      refine ⟨i, h1, h2, ?_⟩
      rw [if_neg (fun e' => by rw [e', hn] at h3; cases h3)]
      exact h3
  · intro i w' hi hw'
    split at hw'
    · next e =>
      cases hw'; subst e
      simpa using ⟨hp, hf⟩
    · next e =>
      have h1 := h.owner i w' hi hw'
      rw [if_neg (fun e' : w' = w => h1.1 (e' ▸ hw))]
      exact h1
  · unfold entries
    simp only
    rw [hcount, h.count]; rfl
  · rintro w' (h1 | rfl)
    · split
      · exact hp
      · exact h.queued w' h1
    · simpa using hp
  · exact Loop.enqueue_nodup _ _ h.once
  · intro w' hw' hne
    by_cases e : w' = w
    · exact .inr e
    · rw [if_neg e] at hw' hne
      exact .inl (h.dirty w' hw' hne)
  · intro w' hw'
    by_cases e : w' = w
    · subst e; simp [he] at hw'
    · rw [if_neg e] at hw' ⊢
      exact h.clean w' hw'
  · exact h.known
  · intro w' hw'
    by_cases e : w' = w
    · exact e ▸ hl
    · rw [if_neg e] at hw'
      exact h.live w' hw'
  · intro w1 w2 l1 l2 hne hfd
    have hfd' : ∀ w', (if w' = w then { s.io w with pevents := p } else s.io w').fd = (s.io w').fd :=
      fun w' => by
        split
        · next e => rw [e]
        · rfl
    rw [hfd'] at hne hfd
    rw [hfd'] at hfd
    exact h.distinct w1 w2 l1 l2 hne hfd
  · intro w'
    split
    · exact hm
    · exact h.mask w'

/-- What `uv__io_start` does to `v`, the loop with its table large enough and the new events in the watcher. -/
inductive Starts (w : W) (f : ℕ) (v : Loop W) : Loop W → Prop
  | told (he : (v.io w).events = (v.io w).pevents) : Starts w f v v
  | entered (he : (v.io w).events ≠ (v.io w).pevents) (hc : v.watchers[f]? = some .null) :
    Starts w f v { v.enqueue w with watchers := (v.enqueue w).watchers.set f (.watcher w), nfds := (v.enqueue w).nfds + 1 }
  | kept (he : (v.io w).events ≠ (v.io w).pevents) (hc : v.watchers[f]? ≠ some .null) : Starts w f v (v.enqueue w)

theorem ioStart_starts {ev : Mask} (ht : s.ioStart w ev = some t) : ∃ (f : ℕ) (u : Loop W), ev.sub pollMask ∧ ev ≠ 0 ∧
    (s.io w).fd = f ∧ f < 2147483647 ∧ (UInt32.ofNat f + 1).toNat = f + 1 ∧ s.maybeResize (UInt32.ofNat f + 1) = some u ∧
    Starts w f (u.setIo w { s.io w with pevents := (s.io w).pevents ||| ev }) t := by
  unfold Loop.ioStart at ht
  split at ht
  · cases ht
  next hg =>
  push Not at hg
  obtain ⟨g1, g2, g3, g4⟩ := hg
  obtain ⟨f, hf⟩ : ∃ f : ℕ, (s.io w).fd = f := ⟨(s.io w).fd.toNat, by omega⟩
  unfold Loop.intMax at g4
  simp only [hf, Int.toNat_natCast, setIo_maybeResize] at ht
  cases hu : s.maybeResize (UInt32.ofNat f + 1) with
  | none => simp [hu] at ht
  | some u =>
    have hlen : (UInt32.ofNat f + 1).toNat = f + 1 := by
      rw [UInt32.toNat_add, UInt32.toNat_one, UInt32.toNat_ofNat']
      omega
    refine ⟨f, u, g1, g2, hf, by omega, hlen, hu, ?_⟩
    simp only [hu, Option.map_some] at ht
    rw [← hf] at ht
    split at ht
    · next he =>
      cases ht
      exact .told he
    · next he =>
      split at ht
      · next hc =>
        cases ht
        rw [Loop.enqueue_watchers] at hc
        exact .entered he hc
      · next hc =>
        cases ht
        exact .kept he fun e => by simp_all
      · cases ht

theorem ioStart_agrees (h : Agrees s) {ev : Mask} (hl : s.live w = true)
    (ht : s.ioStart w ev = some t) : Agrees t := by
  obtain ⟨f, u, hsub, hev, hf, hlt, hlen, hu, hstarts⟩ := ioStart_starts ht
  obtain ⟨hgr, hle⟩ := maybeResize_spec h.shaped (by omega) hu
  have hu' := maybeResize_eq hu
  have hagr := grown_agrees h hgr hu'
  have hio : u.io = s.io := by rw [hu']
  have hlive : u.live w = true := by rw [hu']; exact hl
  have hp := Mask.or_ne_zero (a := (s.io w).pevents) hev
  have hm := Mask.sub_or (h.mask w) hsub
  rw [← hio] at hp hm hf hstarts
  rcases hagr.entry hlive hf (by omega) with ⟨e1, e2⟩ | ⟨e1, e2, -, e4⟩
  · have hretarget := retarget_agrees hagr e1 hp hm
    cases hstarts with
    | told he => exact hretarget.1 (by simpa using he)
    | entered _ hc => cases e2.symm.trans hc
    | kept => exact hretarget.2
  · cases hstarts with
    | told he => exact absurd (by simpa [e2] using he) hp.symm
    | entered => simpa using insert_agrees hagr hlive hf (by omega) e4 e1 hp hm
    | kept _ hc => exact absurd e4 hc

theorem remove_agrees (h : Agrees s) {f : ℕ} (hf : (s.io w).fd = f) (hlt : f < s.nwatchers.toNat) :
    let u : Loop W := { s.setIo w { s.io w with events := 0, pevents := 0 } with
      watcherQueue := s.watcherQueue.erase w }
    (s.watchers[f]? = some .null → Agrees u) ∧ (s.watchers[f]? = some (.watcher w) → s.nfds ≠ 0 ∧
        Agrees { u with watchers := s.watchers.set f .null, nfds := s.nfds - 1 }) := by
  intro u
  have hio : ∀ w', u.io w' = if w' = w then { s.io w with events := 0, pevents := 0 } else s.io w' :=
    fun w' => Loop.setIo_io ..
  have hfd := Loop.io_same Io.fd hio rfl
  have hq : ∀ w', w' ∈ u.watcherQueue ↔ w' ≠ w ∧ w' ∈ s.watcherQueue := fun w' =>
    h.once.mem_erase_iff
  have hpe : ∀ w', (u.io w').pevents ≠ 0 ↔ w' ≠ w ∧ (s.io w').pevents ≠ 0 := fun w' => by
    rw [hio]; split <;> simp_all
  have hev : ∀ w', (u.io w').events ≠ 0 → w' ≠ w ∧ (u.io w').events = (s.io w').events := fun w' => by
    rw [hio]; split <;> simp_all
  -- everything but the table and the counter
  have hall : ∀ v : Loop W, v.nwatchers = s.nwatchers → v.io = u.io → v.watcherQueue = u.watcherQueue →
      v.live = s.live → v.kernel = s.kernel → Shaped v → v.nfds = entries v →
      (∀ i : ℕ, i < s.nwatchers.toNat → ∀ w', w' ≠ w →
        (v.watchers[i]? = some (.watcher w') ↔ s.watchers[i]? = some (.watcher w'))) →
      (∀ i : ℕ, i < s.nwatchers.toNat → v.watchers[i]? ≠ some (.watcher w)) → Agrees v := by
    intro v e1 e2 e3 e4 e5 hsh hcnt hother hself
    refine ⟨hsh, ?_, ?_, hcnt, ?_, ?_, ?_, ?_, ?_, ?_, ?_, ?_⟩
    · intro w' hw'
      rw [e2] at hw' ⊢
      obtain ⟨k1, k2⟩ := (hpe w').mp hw'
      obtain ⟨i, h1, h2, h3⟩ := h.mapped w' k2
      exact ⟨i, by rw [e1]; exact h1, by rw [hfd]; exact h2, (hother i h1 w' k1).mpr h3⟩
    · intro i w' hi hw'
      rw [e1] at hi
      have hne : w' ≠ w := fun e => hself i hi (e ▸ hw')
      obtain ⟨k1, k2⟩ := h.owner i w' hi ((hother i hi w' hne).mp hw')
      rw [e2, hpe, hfd]
      exact ⟨⟨hne, k1⟩, k2⟩
    · intro w' hw'
      rw [e3, hq] at hw'
      rw [e2, hpe]
      exact ⟨hw'.1, h.queued w' hw'.2⟩
    · rw [e3]; exact h.once.erase w
    · intro w' hw' hne
      rw [e2] at hw' hne
      rw [e3, hq]
      obtain ⟨k1, k2⟩ := (hpe w').mp hw'
      rw [hio, if_neg k1] at hne
      exact ⟨k1, h.dirty w' k2 hne⟩
    · intro w' hw'
      rw [e2] at hw' ⊢
      obtain ⟨k1, k2⟩ := hev w' hw'
      rw [k2] at hw' ⊢
      obtain ⟨k3, k4⟩ := h.clean w' hw'
      exact ⟨(hpe w').mpr ⟨k1, k3⟩, by rw [hfd, e5]; exact k4⟩
    · rw [e5, e1]; exact h.known
    · intro w' hw'
      rw [e2] at hw'
      rw [e4]; exact h.live w' ((hpe w').mp hw').2
    · intro w1 w2
      rw [e4, e2, hfd, hfd]; exact h.distinct w1 w2
    · intro w'
      rw [e2, hio]
      split
      · simp [Mask.sub]
      · exact h.mask w'
  refine ⟨fun hn => ?_, fun hw => ⟨?_, ?_⟩⟩
  · refine hall u rfl rfl rfl rfl rfl ⟨h.shaped.length, h.shaped.cells⟩ h.count
      (fun _ _ _ _ => Iff.rfl) fun i hi e => ?_
    have := (h.owner i w hi e).2
    have : i = f := by omega
    rw [this] at e
    exact nomatch hn.symm.trans e
  · have := entries_set (c := Cell.null) hlt hw
    simp only [if_true, reduceCtorEq, if_false] at this
    rw [h.count]
    unfold entries
    omega
  · have hcount := entries_set (c := Cell.null) hlt hw
    simp only [if_true, reduceCtorEq, if_false] at hcount
    have hget : ∀ i, (s.watchers.set f .null)[i]? = if i = f then some .null else s.watchers[i]? := by
      intro i
      rw [getElem?_set]
      split
      · next e =>
        subst e
        rw [if_pos (List.getElem?_eq_some_iff.mp hw).1, if_pos rfl]
      · next e => rw [if_neg (Ne.symm e)]
    refine hall _ rfl rfl rfl rfl rfl ⟨?_, fun i hi => ?_⟩ ?_ (fun i hi w' hne => ?_) fun i hi e => ?_
    · exact h.shaped.length_set hlt _
    · simp only [hget]
      split
      · exact .inl rfl
      · exact h.shaped.cells i hi
    · have := h.count
      unfold entries at this ⊢
      simp only at this ⊢
      show s.nfds - 1 = List.countP _ (List.take s.nwatchers.toNat _)
      omega
    · simp only [hget]
      split
      · next e => subst e; rw [hw]; simp [Ne.symm hne]
      · rfl
    · simp only [hget] at e
      split at e
      · cases e
      · next hne =>
        have := (h.owner i w hi e).2
        exact hne (by omega)

/-- A watcher that wants nothing any more has left the queue. -/
def Loop.idled (s : Loop W) (w : W) : Loop W :=
  { s.setIo w { s.io w with events := 0, pevents := 0 } with watcherQueue := s.watcherQueue.erase w }

/-- What `uv__io_stop` does: nothing without an fd of the table, less is wanted, or nothing, and then the entry of the
watcher is emptied if there is one. -/
inductive Stops (s : Loop W) (w : W) (ev : Mask) : Loop W → Prop
  | unset (hf : (s.io w).fd = -1) : Stops s w ev s
  | outside (f : ℕ) (hf : (s.io w).fd = f) (hle : s.nwatchers.toNat ≤ f) : Stops s w ev s
  | fewer (f : ℕ) (hf : (s.io w).fd = f) (hlt : f < s.nwatchers.toNat) (hp : (s.io w).pevents &&& ~~~ev ≠ 0) :
    Stops s w ev ((s.setIo w { s.io w with pevents := (s.io w).pevents &&& ~~~ev }).enqueue w)
  | absent (f : ℕ) (hf : (s.io w).fd = f) (hlt : f < s.nwatchers.toNat) (hp : (s.io w).pevents &&& ~~~ev = 0)
    (c : Cell W) (hc : s.watchers[f]? = some c) (hne : c ≠ .watcher w) : Stops s w ev (s.idled w)
  | emptied (f : ℕ) (hf : (s.io w).fd = f) (hlt : f < s.nwatchers.toNat) (hp : (s.io w).pevents &&& ~~~ev = 0)
    (hc : s.watchers[f]? = some (.watcher w)) (h0 : s.nfds ≠ 0) :
    Stops s w ev { s.idled w with watchers := s.watchers.set f .null, nfds := s.nfds - 1 }

theorem ioStop_stops {ev : Mask} (ht : s.ioStop w ev = some t) : Stops s w ev t := by
  unfold Loop.ioStop at ht
  split at ht
  · cases ht
  split at ht
  · next hf =>
    cases ht
    exact .unset hf
  split at ht
  · cases ht
  next hne hnn =>
  obtain ⟨f, hf⟩ : ∃ f : ℕ, (s.io w).fd = f := ⟨(s.io w).fd.toNat, by omega⟩
  simp only [hf, Int.toNat_natCast] at ht
  split at ht
  · next hle =>
    cases ht
    exact .outside f hf hle
  next hlt =>
  have hlt : f < s.nwatchers.toNat := by omega
  split at ht
  · next hp =>
    split at ht
    · cases ht
    · next c hc =>
      split at ht
      · next e =>
        subst e
        split at ht
        · cases ht
        · next h0 =>
          cases ht
          rw [← hf]
          exact .emptied f hf hlt hp hc h0
      · next e =>
        cases ht
        rw [← hf]
        exact .absent f hf hlt hp c hc e
  · next hp =>
    cases ht
    rw [← hf]
    exact .fewer f hf hlt hp

theorem ioStop_agrees (h : Agrees s) {ev : Mask} (hl : s.live w = true)
    (ht : s.ioStop w ev = some t) : Agrees t := by
  cases ioStop_stops ht with
  | unset hf | outside f hf hle => exact h
  | fewer f hf hlt hp =>
    have hw : (s.io w).pevents ≠ 0 := fun e => hp (by rw [e]; simp)
    have hm : ((s.io w).pevents &&& ~~~ev).sub pollMask := by
      have := h.mask w
      unfold Mask.sub at this ⊢
      rw [BitVec.and_assoc, BitVec.and_comm (~~~ev), ← BitVec.and_assoc, this]; simp
    exact (retarget_agrees h hw hp hm).2
  | absent f hf hlt hp c hc hne =>
    rcases h.entry hl hf hlt with ⟨-, e⟩ | ⟨-, -, -, e⟩
    · exact absurd (Option.some.inj (hc.symm.trans e)) hne
    · exact (remove_agrees h hf hlt).1 e
  | emptied f hf hlt hp hc h0 => exact ((remove_agrees h hf hlt).2 hc).2

theorem ctlDel_agrees (h : Agrees s) {fd : ℤ} (hd : ∀ w, (s.io w).events ≠ 0 → (s.io w).fd ≠ fd) :
    Agrees (s.ctlDel fd) := by
  have hk : s.ctlDel fd = { s with kernel := update s.kernel fd none } ∨ s.ctlDel fd = s := by
    unfold Loop.ctlDel Loop.epollCtl
    simp only
    cases (s.kernel fd).isSome
    · exact .inr rfl
    · exact .inl rfl
  rcases hk with e | e
  · rw [e]
    refine ⟨⟨h.shaped.length, h.shaped.cells⟩, h.mapped, h.owner, h.count, h.queued, h.once, h.dirty,
      fun w hw => ?_, fun fd' hfd => ?_, h.live, h.distinct, h.mask⟩
    · simp only [update_of_ne (hd w hw)]
      exact h.clean w hw
    · simp only [update_apply] at hfd
      split at hfd
      · simp at hfd
      · exact h.known fd' hfd
  · rw [e]; exact h

theorem setPc_agrees (h : Agrees s) (pc : Pc) : Agrees { s with pc := pc } :=
  ⟨⟨h.shaped.length, h.shaped.cells⟩, h.mapped, h.owner, h.count, h.queued, h.once, h.dirty, h.clean,
    h.known, h.live, h.distinct, h.mask⟩

/-- What `uv__io_stop` does not touch. -/
structure StopFrame (s t : Loop W) : Prop where
  nwatchers : t.nwatchers = s.nwatchers
  live : t.live = s.live
  kernel : t.kernel = s.kernel
  pc : t.pc = s.pc
  fd : ∀ w, (t.io w).fd = (s.io w).fd
  nil : t.watchers = [] ↔ s.watchers = []
  slots : ∀ i, s.nwatchers.toNat ≤ i → t.watchers[i]? = s.watchers[i]?

omit [DecidableEq W] in
theorem StopFrame.refl (s : Loop W) : StopFrame s s :=
  ⟨rfl, rfl, rfl, rfl, fun _ => rfl, Iff.rfl, fun _ _ => rfl⟩

theorem ioStop_frame {ev : Mask} (ht : s.ioStop w ev = some t) : StopFrame s t := by
  have hfd : ∀ (o : Io), o.fd = (s.io w).fd → ∀ w', ((s.setIo w o).io w').fd = (s.io w').fd := by
    intro o ho w'
    rw [Loop.setIo_io]
    split
    · next e => rw [ho, e]
    · rfl
  cases ioStop_stops ht with
  | unset hf | outside f hf hle => exact .refl s
  | fewer f hf hlt hp =>
    exact ⟨by simp, by simp, by simp, by simp, by rw [Loop.enqueue_io]; exact hfd _ rfl, by simp, fun _ _ => by simp⟩
  | absent f hf hlt hp c hc hne => exact ⟨rfl, rfl, rfl, rfl, hfd _ rfl, Iff.rfl, fun _ _ => rfl⟩
  | emptied f hf hlt hp hc h0 =>
    refine ⟨rfl, rfl, rfl, rfl, hfd _ rfl, by simp, fun i hi => ?_⟩
    exact getElem?_set_ne (by omega)

theorem ioStop_wanted (h : Agrees s) {ev : Mask} (hm : (s.io w).pevents.sub ev) (ht : s.ioStop w ev = some t) :
    (t.io w).pevents = 0 ∧ (t.io w).events = 0 := by
  have hidle : (s.io w).pevents = 0 → (s.io w).pevents = 0 ∧ (s.io w).events = 0 := fun hp => by
    refine ⟨hp, ?_⟩
    by_contra hne
    exact (h.clean w hne).1 hp
  have hidled : ((s.idled w).io w).pevents = 0 ∧ ((s.idled w).io w).events = 0 := by simp [Loop.idled]
  cases ioStop_stops ht with
  | unset hf =>
    -- no fd: never started
    refine hidle ?_
    by_contra hp
    obtain ⟨i, -, h2, -⟩ := h.mapped w hp
    omega
  | outside f hf hle =>
    refine hidle ?_
    by_contra hp
    obtain ⟨i, h1, h2, -⟩ := h.mapped w hp
    omega
  | fewer f hf hlt hp => exact absurd hm hp
  | absent f hf hlt hp c hc hne | emptied f hf hlt hp hc h0 => exact hidled

theorem Agrees.drop (h : Agrees s) (hp : (s.io w).pevents = 0) :
    Agrees { s with live := update s.live w false } := by
  refine h.under (fun w' hw' => ?_) (fun w1 w2 => ?_) (fun w' hw' => (h.clean w' hw').2) fun _ => id
  · have : w' ≠ w := fun e => hw' (e ▸ hp)
    rw [update_of_ne this]
    exact h.live w' hw'
  · simp only [update_apply]
    intro l1 l2
    split at l1
    · cases l1
    · split at l2
      · cases l2
      · exact h.distinct w1 w2 l1 l2

theorem ioClose_agrees (h : Agrees s) (hl : s.live w = true) (ht : s.ioClose w = some t) :
    Agrees t := by
  unfold Loop.ioClose at ht
  cases hu : s.ioStop w pollMask with
  | none => simp [hu] at ht
  | some u =>
    have ha := ioStop_agrees h hl hu
    have hf := ioStop_frame hu
    obtain ⟨hp, he⟩ := ioStop_wanted h (h.mask w) hu
    simp only [hu] at ht
    have hb := ha.drop hp
    split at ht
    · next hne =>
      have hd : ∀ w', (u.io w').events ≠ 0 → (u.io w').fd ≠ (u.io w).fd := by
        intro w' hw' e
        have hl' := ha.live w' (ha.clean w' hw').1
        have := ha.distinct w w' (by rw [hf.live]; exact hl) hl' hne e.symm
        exact hw' (this ▸ he)
      unfold Loop.platformInvalidateFd at ht
      split at ht
      · cases ht
      · split at ht
        · cases ht; exact ctlDel_agrees hb hd
        · split at ht
          · cases ht
            exact ctlDel_agrees (setPc_agrees hb _) hd
          · cases ht
        · cases ht
    · cases ht; exact hb

/-! ## `uv__io_poll` -/

theorem register_agrees {rest : List W} (h : Agrees s) (hq : s.watcherQueue = w :: rest) :
    ∃ t, ({ s with watcherQueue := rest } : Loop W).register w = some t ∧ Agrees t ∧
      t.watcherQueue = rest ∧ t.pc = s.pc ∧ t.watchers = s.watchers ∧ t.nwatchers = s.nwatchers ∧
      t.live = s.live ∧ (∀ w', (t.io w').fd = (s.io w').fd ∧ (t.io w').pevents = (s.io w').pevents) := by
  have hp := h.queued w (by rw [hq]; simp)
  obtain ⟨f, h1, h2, h3⟩ := h.mapped w hp
  have hnd := h.once
  rw [hq, nodup_cons] at hnd
  -- whatever the call was, the kernel now holds `pevents`
  have key : ∀ t : Loop W, t = ({ s with
      watcherQueue := rest
      kernel := update s.kernel (s.io w).fd (some (s.io w).pevents) } : Loop W).setIo w
        { s.io w with events := (s.io w).pevents } → Agrees t ∧
      t.watcherQueue = rest ∧ t.pc = s.pc ∧ t.watchers = s.watchers ∧ t.nwatchers = s.nwatchers ∧
      t.live = s.live ∧ (∀ w', (t.io w').fd = (s.io w').fd ∧ (t.io w').pevents = (s.io w').pevents) := by
    rintro t rfl
    set t := ({ s with
      watcherQueue := rest
      kernel := update s.kernel (s.io w).fd (some (s.io w).pevents) } : Loop W).setIo w
        { s.io w with events := (s.io w).pevents } with ht
    have hio : ∀ w', t.io w' = if w' = w then { s.io w with events := (s.io w).pevents } else s.io w' :=
      fun w' => Loop.setIo_io ..
    have hsame := fun w' => And.intro (Loop.io_same Io.fd hio rfl w') (Loop.io_same Io.pevents hio rfl w')
    refine ⟨⟨⟨h.shaped.length, h.shaped.cells⟩, ?_, ?_, h.count, ?_, hnd.2, ?_, ?_, ?_, ?_, ?_, ?_⟩,
      rfl, rfl, rfl, rfl, rfl, hsame⟩
    · intro w' hw'
      rw [(hsame w').2] at hw'
      rw [(hsame w').1]; exact h.mapped w' hw'
    · intro i w' hi hw'
      rw [(hsame w').1, (hsame w').2]; exact h.owner i w' hi hw'
    · intro w' hw'
      rw [(hsame w').2]
      exact h.queued w' (by rw [hq]; exact mem_cons_of_mem _ hw')
    · intro w' hw' hne
      rw [(hsame w').2] at hw' hne
      rw [hio] at hne
      split at hne
      · next e => exact absurd rfl (e ▸ hne)
      · next e =>
        have := h.dirty w' hw' hne
        rw [hq, mem_cons] at this
        exact this.resolve_left e
    · intro w' hw'
      rw [(hsame w').1]
      show _ ∧ update s.kernel (s.io w).fd (some (s.io w).pevents) (s.io w').fd = _
      by_cases e : w' = w
      · subst e
        rw [hio, if_pos rfl, update_self]
        exact ⟨hp, rfl⟩
      · rw [hio, if_neg e] at hw' ⊢
        obtain ⟨k1, k2⟩ := h.clean w' hw'
        have hne : (s.io w').fd ≠ (s.io w).fd := fun e' =>
          e (h.distinct w' w (h.live w' k1) (h.live w hp) (by omega) e')
        rw [update_of_ne hne]
        exact ⟨k1, k2⟩
    · intro fd hfd
      change (update s.kernel (s.io w).fd (some (s.io w).pevents) fd).isSome = true at hfd
      rw [update_apply] at hfd
      split at hfd
      · next e => exact ⟨f, h1, by rw [e]; exact h2⟩
      · exact h.known fd hfd
    · intro w' hw'
      rw [(hsame w').2] at hw'
      exact h.live w' hw'
    · intro w1 w2
      rw [(hsame w1).1, (hsame w2).1]; exact h.distinct w1 w2
    · intro w'
      rw [(hsame w').2]; exact h.mask w'
  have hguard : ¬ ((s.io w).pevents = 0 ∨ (s.io w).fd < 0 ∨ s.nwatchers.toNat ≤ (s.io w).fd.toNat) := by
    rintro (e | e | e)
    · exact hp e
    · omega
    · rw [h2] at e; simp at e; omega
  -- the first call succeeds, or reports `EEXIST` for an fd that is being watched again
  refine ⟨_, ?_, key _ rfl⟩
  unfold Loop.register
  simp only [if_neg hguard]
  by_cases he : (s.io w).events = 0
  · by_cases hk : (s.kernel (s.io w).fd).isSome = true
    · simp [he, Loop.epollCtl, hk]
    · simp [he, Loop.epollCtl, hk]
  · have hk : (s.kernel (s.io w).fd).isSome = true := by rw [(h.clean w he).2]; rfl
    simp only [if_neg he, Loop.epollCtl, hk, if_true]

theorem registerAll_agrees : ∀ (q : List W) (s : Loop W), Agrees s → s.watcherQueue = q →
    ∃ t, Loop.registerAll q s = some t ∧ Agrees t ∧ t.watcherQueue = [] ∧ t.pc = s.pc ∧
      t.watchers = s.watchers ∧ t.nwatchers = s.nwatchers ∧ t.live = s.live ∧
      (∀ w', (t.io w').fd = (s.io w').fd ∧ (t.io w').pevents = (s.io w').pevents) := by
  intro q
  induction q with
  | nil =>
    intro s h hq
    exact ⟨s, rfl, h, hq, rfl, rfl, rfl, rfl, fun _ => ⟨rfl, rfl⟩⟩
  | cons w rest ih =>
    intro s h hq
    obtain ⟨u, h1, h2, h3, h4, h5, h6, h7, h8⟩ := register_agrees h hq
    obtain ⟨t, k1, k2, k3, k4, k5, k6, k7, k8⟩ := ih u h2 h3
    refine ⟨t, ?_, k2, k3, k4.trans h4, k5.trans h5, k6.trans h6, k7.trans h7, fun w' => ?_⟩
    · simp [Loop.registerAll, h1, k1]
    · exact ⟨(k8 w').1.trans (h8 w').1, (k8 w').2.trans (h8 w').2⟩

theorem setSlots_agrees (h : Agrees s) (a b : Cell W) :
    Agrees { s with
      watchers := (s.watchers.set s.nwatchers.toNat a).set (s.nwatchers.toNat + 1) b } := by
  have hget : ∀ i, i < s.nwatchers.toNat →
      ((s.watchers.set s.nwatchers.toNat a).set (s.nwatchers.toNat + 1) b)[i]? = s.watchers[i]? := by
    intro i hi
    rw [getElem?_set_ne (by omega), getElem?_set_ne (by omega)]
  refine ⟨⟨?_, fun i hi => ?_⟩, fun w hw => ?_, fun i w hi hw => ?_, ?_, h.queued, h.once, h.dirty,
    h.clean, h.known, h.live, h.distinct, h.mask⟩
  · rcases h.shaped.length with ⟨h1, h2⟩ | h1
    · exact .inl ⟨by simp [h1], h2⟩
    · exact .inr (by simpa using h1)
  · simp only [hget i hi]; exact h.shaped.cells i hi
  · obtain ⟨i, h1, h2, h3⟩ := h.mapped w hw
    exact ⟨i, h1, h2, by simp only [hget i h1]; exact h3⟩
  · simp only [hget i hi] at hw
    exact h.owner i w hi hw
  · have := h.count
    unfold entries at this ⊢
    rw [this, take_set, take_set, set_eq_of_length_le, set_eq_of_length_le]
    · simp
    · simp

theorem pollHead_agrees (h : Agrees s) :
    ∃ t, s.pollHead = some t ∧ Agrees t ∧ t.watchers = s.watchers ∧ t.nwatchers = s.nwatchers ∧
      (t.pc = s.pc ∨ t.pc = .polled) ∧ t.live = s.live ∧ t.watcherQueue = [] ∧
      (∀ w', (t.io w').fd = (s.io w').fd ∧ (t.io w').pevents = (s.io w').pevents) := by
  unfold Loop.pollHead
  split
  · next h0 =>
    -- no entries: nobody wants anything, so nobody is queued
    have hq : s.watcherQueue = [] := by
      by_contra hne
      obtain ⟨w, hw⟩ := exists_mem_of_ne_nil _ hne
      obtain ⟨i, h1, -, h3⟩ := h.mapped w (h.queued w hw)
      have hc := h.count
      rw [h0] at hc
      have := countP_eq_zero.mp hc.symm (.watcher w)
        (mem_of_getElem? (by rw [getElem?_take_of_lt h1]; exact h3))
      simp at this
    rw [if_pos hq]
    exact ⟨s, rfl, h, rfl, rfl, .inl rfl, rfl, hq, fun _ => ⟨rfl, rfl⟩⟩
  · obtain ⟨t, k1, k2, k3, k4, k5, k6, k7, k8⟩ := registerAll_agrees _ s h rfl
    rw [k1]
    exact ⟨_, rfl, setPc_agrees k2 _, k5, k6, .inr rfl, k7, k3, k8⟩

theorem dispatch_agrees (h : Agrees s) {sig : Option W} {b : Batch} {pe : EpollEvent}
    {c : Option (W × Mask)} (ht : s.dispatch sig b pe = some (t, c)) : Agrees t := by
  unfold Loop.dispatch at ht
  simp only at ht
  split at ht
  · cases ht; exact setPc_agrees h _
  split at ht
  · cases ht
  next hr =>
  push Not at hr
  split at ht
  · next hn =>
    cases ht
    refine ctlDel_agrees (setPc_agrees h _) fun w hw e => ?_
    -- a watcher that has told the kernel something is in the table
    obtain ⟨i, -, h2, h3⟩ := h.mapped w (h.clean w hw).1
    have : pe.fd.toNat = i := by simp only at e; omega
    rw [this, h3] at hn
    cases hn
  · split at ht
    · cases ht; exact setPc_agrees h _
    · split at ht <;> cases ht <;> exact setPc_agrees h _
  · cases ht

end Ops

/-! ## What the calls look at -/

/-- The loop with other live watchers and another interest list: the calls that do not make
a system call look at neither. -/
def Loop.under (s : Loop W) (live : W → Bool) (kernel : ℤ → Option Mask) : Loop W :=
  { s with live := live, kernel := kernel }

section Under
variable {s t : Loop W} {w : W} {live : W → Bool} {kernel : ℤ → Option Mask}

theorem enqueue_under : (s.under live kernel).enqueue w = (s.enqueue w).under live kernel := by
  unfold Loop.enqueue Loop.under
  split <;> rfl

omit [DecidableEq W] in
theorem maybeResize_under (len : UInt32) :
    (s.under live kernel).maybeResize len = (s.maybeResize len).map (·.under live kernel) := by
  unfold Loop.maybeResize
  have hf : (s.under live kernel).fakeSlots = s.fakeSlots := rfl
  have hn : (s.under live kernel).nwatchers = s.nwatchers := rfl
  rw [hf, hn]
  split
  · rfl
  · cases s.fakeSlots with
    | none => rfl
    | some ab =>
      dsimp only
      split <;> rfl

theorem ioStart_under {ev : Mask} : (s.under live kernel).ioStart w ev = (s.ioStart w ev).map (·.under live kernel) := by
  unfold Loop.ioStart
  have hio : (s.under live kernel).io = s.io := rfl
  rw [hio]
  split
  · rfl
  · dsimp only
    have hset : ∀ o, (s.under live kernel).setIo w o = (s.setIo w o).under live kernel := fun _ => rfl
    rw [hset, maybeResize_under]
    cases (s.setIo w { s.io w with pevents := (s.io w).pevents ||| ev }).maybeResize _ with
    | none => rfl
    | some u =>
      simp only [Option.map_some]
      have hiou : (u.under live kernel).io = u.io := rfl
      rw [hiou]
      split
      · rfl
      · rw [enqueue_under]
        have hw : ((u.enqueue w).under live kernel).watchers = (u.enqueue w).watchers := rfl
        rw [hw]
        split <;> rfl

theorem ioStop_under {ev : Mask} : (s.under live kernel).ioStop w ev = (s.ioStop w ev).map (·.under live kernel) := by
  unfold Loop.ioStop
  have hio : (s.under live kernel).io = s.io := rfl
  have hn : (s.under live kernel).nwatchers = s.nwatchers := rfl
  have hset : ∀ o, (s.under live kernel).setIo w o = (s.setIo w o).under live kernel := fun _ => rfl
  rw [hio, hn]
  split
  · rfl
  · split
    · rfl
    · split
      · rfl
      · dsimp only
        split
        · rfl
        · split
          · have hw : (s.under live kernel).watchers = s.watchers := rfl
            dsimp only [Loop.setIo]
            rw [hw]
            split
            · rfl
            · split
              · by_cases h0 : s.nfds = 0 <;> simp [Loop.under, h0]
              · rfl
          · rw [hset, enqueue_under]
            rfl
end Under

/-! ## Runs -/

theorem agrees_step {sig : Option W} {s t : Loop W} {l : Label W} (h : Agrees s)
    (hs : Step sig s l t) : Agrees t := by
  cases hs with
  | init _ hl _ hd => exact ioInit_agrees h hl hd
  | start _ hl _ ht => exact ioStart_agrees h hl ht
  | stop _ hl _ ht => exact ioStop_agrees h hl ht
  | close _ hl _ ht => exact ioClose_agrees h hl ht
  | poll _ ht =>
    obtain ⟨u, h1, h2, -⟩ := pollHead_agrees h
    rw [h1] at ht; cases ht
    exact h2
  | wait _ _ _ _ ht =>
    unfold Loop.waited at ht
    split at ht
    · cases ht
    · cases ht
      exact setPc_agrees (setSlots_agrees h _ _) _
  | next _ _ ht | deliver _ _ ht => exact dispatch_agrees h ht
  | deliverSignal _ _ _ _ => exact setPc_agrees h _
  | finish _ _ _ _ => exact setPc_agrees (setSlots_agrees h _ _) _
  | ret _ => exact setPc_agrees h _

theorem agrees_run (sig : Option W) : (system sig).Inductive Agrees where
  init := by
    rintro s ⟨h1, h2, h3, h4, h5, h6, h7, -⟩
    constructor <;> simp_all [entries, Mask.sub]
    exact ⟨.inl ⟨h1, h2⟩, fun i hi => by simp [h2] at hi⟩
  step _ _ _ h hs := agrees_step h hs

/-- **The watcher table.** In every reachable state, in the middle of a batch too:
`nfds` counts the entries; the entry of a watcher's fd is the watcher while it wants
something, and nothing else is in the table; the queue holds each watcher once, and only
such watchers, and every one of them whose wish the kernel does not know; with `nfds` 0 it
is empty. `uv__io_poll` gets through its registration loop, and then the kernel's
interest in a watched fd is what its watcher wants. -/
theorem watcher_table {sig : Option W} {s : Loop W} (hr : (system sig).Reachable s) :
    s.nfds = (s.watchers.take s.nwatchers.toNat).countP (fun c => decide (c ≠ .null)) ∧
    (∀ w, (s.io w).pevents ≠ 0 → ∃ i : ℕ, i < s.nwatchers.toNat ∧ (s.io w).fd = i ∧
      s.watchers[i]? = some (.watcher w)) ∧ (∀ i : ℕ, i < s.nwatchers.toNat → s.watchers[i]? = some .null ∨
      ∃ w, s.watchers[i]? = some (.watcher w) ∧ (s.io w).pevents ≠ 0 ∧ (s.io w).fd = i) ∧
    (∀ w, s.live w = true → (s.io w).pevents = 0 → ∀ i : ℕ, i < s.nwatchers.toNat →
      (s.io w).fd = i → s.watchers[i]? = some .null) ∧
    (∀ w, w ∈ s.watcherQueue → (s.io w).pevents ≠ 0) ∧ s.watcherQueue.Nodup ∧ (s.nfds = 0 → s.watcherQueue = []) ∧
    (∀ w, (s.io w).pevents ≠ 0 → (s.io w).events ≠ (s.io w).pevents → w ∈ s.watcherQueue) ∧
    (∃ t, s.pollHead = some t ∧ ∀ w, (t.io w).pevents ≠ 0 → t.kernel (t.io w).fd = some (t.io w).pevents) := by
  have h := (agrees_run sig).reachable hr
  refine ⟨h.count, h.mapped, fun i hi => ?_, fun w hl hp i hi hf => ?_, h.queued, h.once, fun h0 => ?_, h.dirty, ?_⟩
  · rcases h.shaped.cells i hi with h1 | ⟨w, h1⟩
    · exact .inl h1
    · exact .inr ⟨w, h1, h.owner i w hi h1⟩
  · rcases h.entry hl hf hi with ⟨h1, -⟩ | ⟨-, -, -, h1⟩
    · exact absurd hp h1
    · exact h1
  · obtain ⟨t, h1, -⟩ := pollHead_agrees h
    unfold Loop.pollHead at h1
    rw [if_pos h0] at h1
    split at h1
    · assumption
    · cases h1
  · obtain ⟨t, h1, h2, -, -, -, -, hq, -⟩ := pollHead_agrees h
    refine ⟨t, h1, fun w hw => ?_⟩
    -- the queue is empty, so the kernel has been told
    have he : (t.io w).events = (t.io w).pevents := by
      by_contra hne
      have := h2.dirty w hw hne
      rw [hq] at this
      exact absurd this not_mem_nil
    rw [← he]
    exact (h2.clean w (he ▸ hw)).2

/-- One watcher on fd 0, started for reading. -/
theorem watcher_table_one : ∃ s : Loop Unit, (system none).Reachable s ∧
    (s.io ()).pevents = POLLIN ∧ (s.io ()).events = 0 ∧ () ∈ s.watcherQueue := by
  have h0 : (system none).Reachable (⟨[], 0, 0, [], fun _ => ⟨-1, 0, 0⟩, fun _ => false, fun _ => none, .idle⟩ : Loop Unit) :=
    .init ⟨rfl, rfl, rfl, rfl, fun _ => rfl, fun _ => rfl, fun _ => rfl, rfl⟩
  have h1 := h0.next (.init () 0) (.init trivial rfl (by decide) (by decide))
  have h2 := h1.next (.start () POLLIN) (.start trivial rfl nofun rfl)
  obtain ⟨-, -, -, -, -, -, -, hdirty, -⟩ := watcher_table h2
  exact ⟨_, h2, rfl, rfl, hdirty () (by decide) (by decide)⟩

end Libuv.L2.IoWatcher
