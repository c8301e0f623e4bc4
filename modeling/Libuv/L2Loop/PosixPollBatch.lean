import Libuv.L2Loop.PosixPoll

/-!
# What `poll()` reports (`unix/posix-poll.c`)

* `Pending`: what is left of a batch, against the entries as `poll()` left them and what has happened since.
* `poll_backend`: the entries at `poll()`, and what becomes of each entry of a batch.
-/
namespace Libuv.L2.PosixPoll

open List
open IoWatcher (Mask POLLIN)

variable {W : Type*} [DecidableEq W]

/-! ## The batch and the history -/

/-- `post` is what happened since `poll()` last returned, with `entries`. -/
structure Since (ls : List (Label W)) (entries : List PollFd) (post : List (Label W)) : Prop where
  split : ∃ pre, ls = pre ++ .wait entries :: post
  last : ∀ entries', .wait entries' ∉ post

def Closed (post : List (Label W)) (fd : ℤ) : Prop := ∃ w, .close w fd ∈ post

def Label.index : Label W → Option ℕ
  | .take i _ => some i
  | _ => none

omit [DecidableEq W] in
theorem Since.snoc {ls post : List (Label W)} {entries : List PollFd} {l : Label W} (h : Since ls entries post)
    (hl : ∀ entries', l ≠ .wait entries') : Since (ls ++ [l]) entries (post ++ [l]) := by
  obtain ⟨pre, rfl⟩ := h.split
  refine ⟨⟨pre, by rw [append_assoc, cons_append]⟩, fun entries' hm => ?_⟩
  rcases mem_append.mp hm with hm | hm
  · exact h.last entries' hm
  · exact hl entries' (mem_singleton.mp hm).symm

theorem exists_mem_snoc {ι α : Type*} {f : ι → α} {l : List α} {a : α} :
    (∃ i, f i ∈ l ++ [a]) ↔ (∃ i, f i ∈ l) ∨ ∃ i, f i = a := by
  simp [exists_or]

omit [DecidableEq W] in
theorem closed_snoc {post : List (Label W)} {l : Label W} {fd : ℤ} :
    Closed (post ++ [l]) fd ↔ Closed post fd ∨ ∃ w, l = .close w fd := by
  simp only [Closed, exists_mem_snoc, eq_comm]

/-- What is left of the batch: an entry is as reported, or a watcher of its descriptor has been closed and it is -1. -/
structure Pending (sig : Option W) (s : Loop W) (b : Batch) (entries : List PollFd) (post : List (Label W)) : Prop where
  length : entries.length = s.pollFds.length
  valid : ∀ p ∈ entries, p.fd ≠ -1
  bound : b.i ≤ entries.length
  entry : ∀ (j : ℕ) (p e : PollFd), b.i ≤ j → s.pollFds[j]? = some p → entries[j]? = some e →
    (¬Closed post e.fd ∧ p = e) ∨ (Closed post e.fd ∧ p.fd = -1)
  taken : post.filterMap Label.index = List.range b.i
  signals : b.haveSignals = true ↔ ∃ j, .take j .signal ∈ post
  signal : b.haveSignals = true → ∃ w, ∃ (j : ℕ) (e : PollFd), sig = some w ∧ s.core.live w = true ∧
    .take j .signal ∈ post ∧ entries[j]? = some e ∧ e.fd = (s.core.io w).fd ∧ ¬Closed post e.fd
  signalled : b.signalled = true ↔ ∃ m, .deliverSignal m ∈ post

def Current (sig : Option W) (ls : List (Label W)) (s : Loop W) : Prop :=
  ∀ b, s.pc = .batch b → ∃ entries post, Since ls entries post ∧ Pending sig s b entries post

section
variable {sig : Option W} {s t : Loop W} {b b' : Batch} {entries : List PollFd} {post : List (Label W)} {l : Label W}

theorem Distinct.index_unique {fds : List PollFd} (h : Distinct fds) {i j : ℕ} {p q : PollFd} (hp : fds[i]? = some p)
    (hq : fds[j]? = some q) (hfd : q.fd = p.fd) (hne : p.fd ≠ -1) : i = j := by
  by_contra hij
  obtain ⟨hi, rfl⟩ := List.getElem?_eq_some_iff.mp hp
  obtain ⟨hj, rfl⟩ := List.getElem?_eq_some_iff.mp hq
  have hcount := h _ hne
  have htwo : 2 ≤ (fds.map PollFd.fd).count fds[i].fd := by
    rw [← duplicate_iff_two_le_count, duplicate_iff_exists_distinct_get]
    rcases Nat.lt_or_gt_of_ne hij with hlt | hlt
    · refine ⟨⟨i, by rw [length_map]; exact hi⟩, ⟨j, by rw [length_map]; exact hj⟩, hlt, ?_, ?_⟩
      · rw [get_eq_getElem, getElem_map]
      · rw [get_eq_getElem, getElem_map, hfd]
    · refine ⟨⟨j, by rw [length_map]; exact hj⟩, ⟨i, by rw [length_map]; exact hi⟩, hlt, ?_, ?_⟩
      · rw [get_eq_getElem, getElem_map, hfd]
      · rw [get_eq_getElem, getElem_map]
  omega

omit [DecidableEq W] in
theorem Pending.call (h : Pending sig s b entries post) (hl : l.index = none) (hd : ∀ m, l ≠ .deliverSignal m)
    (hlen : t.pollFds.length = s.pollFds.length)
    (hentry : ∀ (j : ℕ) (p e : PollFd), b.i ≤ j → t.pollFds[j]? = some p → entries[j]? = some e →
      (¬Closed (post ++ [l]) e.fd ∧ p = e) ∨ (Closed (post ++ [l]) e.fd ∧ p.fd = -1))
    (hkeep : ∀ w, sig = some w → s.core.live w = true → (s.core.io w).fd ≠ -1 → t.core.live w = true ∧
      (t.core.io w).fd = (s.core.io w).fd ∧ ∀ w', l ≠ .close w' (s.core.io w).fd) :
    Pending sig t b entries (post ++ [l]) where
  length := h.length.trans hlen.symm
  valid := h.valid
  bound := h.bound
  entry := hentry
  taken := by
    rw [filterMap_append, filterMap_cons_none hl, filterMap_nil, append_nil, h.taken]
  signals := by
    rw [h.signals, exists_mem_snoc, or_iff_left]
    rintro ⟨j, rfl⟩
    cases hl
  signal := by
    intro hs
    obtain ⟨w, j, e, hsig, hlive, htake, hej, hfd, hopen⟩ := h.signal hs
    obtain ⟨hlive', hfd', hno⟩ := hkeep w hsig hlive (by rw [← hfd]; exact h.valid e (mem_of_getElem? hej))
    refine ⟨w, j, e, hsig, hlive', mem_append_left _ htake, hej, hfd.trans hfd'.symm, fun hc => ?_⟩
    rcases closed_snoc.mp hc with hc | ⟨w', hc⟩
    · exact hopen hc
    · rw [hfd] at hc
      exact hno w' hc
  signalled := by
    rw [h.signalled, exists_mem_snoc, or_iff_left]
    rintro ⟨m, hm⟩
    exact hd m hm.symm

omit [DecidableEq W] in
theorem Pending.quiet_call (h : Pending sig s b entries post) (hl : l.index = none) (hd : ∀ m, l ≠ .deliverSignal m)
    (hc : ∀ w fd, l ≠ .close w fd) (hfds : t.pollFds = s.pollFds)
    (hkeep : ∀ w, sig = some w → s.core.live w = true → t.core.live w = true ∧ (t.core.io w).fd = (s.core.io w).fd) :
    Pending sig t b entries (post ++ [l]) := by
  refine h.call hl hd (by rw [hfds]) (fun j p e hj hp he => ?_) fun w hw hlive _ => ?_
  · rw [hfds] at hp
    have hclosed : Closed (post ++ [l]) e.fd ↔ Closed post e.fd := by
      rw [closed_snoc]
      exact or_iff_left fun hw => by
        obtain ⟨w, hw⟩ := hw
        exact hc w _ hw
    rw [hclosed]
    exact h.entry j p e hj hp he
  · obtain ⟨h1, h2⟩ := hkeep w hw hlive
    exact ⟨h1, h2, fun w' => hc w' _⟩

theorem Pending.close (h : Pending sig s b entries post) (hi : Inv s) (hpc : s.pc = .batch b) {w : W}
    (hl : s.core.live w = true) (hs : sig ≠ some w) (ht : s.ioClose w = some t) :
    Pending sig t b entries (post ++ [.close w (s.core.io w).fd]) := by
  obtain ⟨c, hcore, rfl⟩ := ioClose_cases ht
  have hframe := IoWatcher.ioStop_frame hcore
  have hit : s.iterating = true := hi.iterating.mpr ⟨b, hpc⟩
  rw [hframe.fd w, Loop.without, if_pos hit]
  refine h.call rfl (fun m hm => by cases hm) ?_ (fun j p e hj hp he => ?_) fun w' hw' hlive hne => ?_
  · split_ifs
    · rfl
    · rw [invalidate, length_map]
  · have hvalid := h.valid e (mem_of_getElem? he)
    rw [closed_snoc]
    by_cases hfd : (s.core.io w).fd = -1
    · have hother : ¬∃ w', Label.close w (s.core.io w).fd = .close w' e.fd := by
        intro hc
        obtain ⟨w', hc⟩ := hc
        rw [Label.close.injEq, hfd] at hc
        exact hvalid hc.2.symm
      rw [or_iff_left hother]
      rw [if_pos hfd] at hp
      exact h.entry j p e hj hp he
    · rw [if_neg hfd, getElem?_invalidate] at hp
      obtain ⟨q, hq, rfl⟩ := Option.map_eq_some_iff.mp hp
      rcases h.entry j q e hj hq he with ⟨hopen, rfl⟩ | ⟨hclosed, hqfd⟩
      · by_cases hsame : q.fd = (s.core.io w).fd
        · rw [if_pos hsame, hsame]
          exact .inr ⟨.inr ⟨w, rfl⟩, rfl⟩
        · refine .inl ⟨fun hc => ?_, if_neg hsame⟩
          rcases hc with hc | ⟨w', hc⟩
          · exact hopen hc
          · rw [Label.close.injEq] at hc
            exact hsame hc.2.symm
      · refine .inr ⟨.inl hclosed, ?_⟩
        split_ifs
        · rfl
        · exact hqfd
  · have hne' : w' ≠ w := by
      intro he
      rw [he] at hw'
      exact hs hw'
    refine ⟨?_, hframe.fd w', fun w₀ hc => ?_⟩
    · dsimp only
      rw [Function.update_of_ne hne', hframe.live]
      exact hlive
    · rw [Label.close.injEq] at hc
      obtain ⟨kernel, ha, -⟩ := hi.agrees
      exact hne' (ha.distinct w' w hlive hl hne hc.2.symm)

omit [DecidableEq W] in
theorem Pending.next (h : Pending sig s b entries post) {taken : Taken W} (hlt : b.i < entries.length)
    (hcore : t.core = s.core) (hlen : t.pollFds.length = s.pollFds.length)
    (hbehind : ∀ j, b.i < j → t.pollFds[j]? = s.pollFds[j]?) (hbi : b'.i = b.i + 1) (hbs : b'.signalled = b.signalled)
    (hbh : b'.haveSignals = true ↔ b.haveSignals = true ∨ taken = .signal)
    (hsig : taken = .signal → ∃ w, ∃ e : PollFd, sig = some w ∧ s.core.live w = true ∧ entries[b.i]? = some e ∧
      e.fd = (s.core.io w).fd ∧ ¬Closed post e.fd) : Pending sig t b' entries (post ++ [.take b.i taken]) := by
  have hclosed : ∀ fd, Closed (post ++ [.take b.i taken]) fd ↔ Closed post fd := by
    intro fd
    rw [closed_snoc]
    exact or_iff_left fun hw => by
      obtain ⟨w, hw⟩ := hw
      cases hw
  refine ⟨h.length.trans hlen.symm, h.valid, by omega, fun j p e hj hp he => ?_, ?_, ?_, fun hs => ?_, ?_⟩
  · rw [hbehind j (by omega)] at hp
    rw [hclosed]
    exact h.entry j p e (by omega) hp he
  · rw [filterMap_append, h.taken, hbi, range_succ]
    rfl
  · rw [hbh, h.signals]
    constructor
    · intro hj
      rcases hj with ⟨j, hj⟩ | rfl
      · exact ⟨j, mem_append_left _ hj⟩
      · exact ⟨b.i, mem_append_right _ (mem_singleton.mpr rfl)⟩
    · intro hj
      obtain ⟨j, hj⟩ := hj
      rcases mem_append.mp hj with hm | hm
      · exact .inl ⟨j, hm⟩
      · cases mem_singleton.mp hm
        exact .inr rfl
  · rw [hcore]
    rcases hbh.mp hs with hs | htk
    · obtain ⟨w, j, e, hw, hlive, htake, hej, hfd, hopen⟩ := h.signal hs
      exact ⟨w, j, e, hw, hlive, mem_append_left _ htake, hej, hfd, fun hc => hopen ((hclosed _).mp hc)⟩
    · obtain ⟨w, e, hw, hlive, hej, hfd, hopen⟩ := hsig htk
      refine ⟨w, b.i, e, hw, hlive, mem_append_right _ ?_, hej, hfd, fun hc => hopen ((hclosed _).mp hc)⟩
      rw [htk]
      exact mem_singleton.mpr rfl
  · rw [hbs, h.signalled, exists_mem_snoc, or_iff_left]
    rintro ⟨m, hm⟩
    cases hm

theorem Pending.take (h : Pending sig s b entries post) (hi : Inv s) (hpc : s.pc = .batch b) {pe : PollFd}
    {taken : Taken W} (hpe : s.pollFds[b.i]? = some pe) (ht : s.dispatch sig b pe = some (t, taken)) (hb : t.pc = .batch b') :
    Pending sig t b' entries (post ++ [.take b.i taken]) := by
  have hlt : b.i < entries.length := by
    rw [h.length]
    exact (List.getElem?_eq_some_iff.mp hpe).1
  have hset : ∀ (m : Mask) (j : ℕ), b.i < j → (s.pollFds.set b.i { pe with revents := m })[j]? = s.pollFds[j]? := by
    intro m j hj
    exact getElem?_set_ne (by omega)
  cases dispatch_takes ht with
  | invalid hinv =>
    cases hb
    exact h.next hlt rfl rfl (fun _ _ => rfl) rfl rfl (by simp) fun htk => by cases htk
  | stopped h0 hc =>
    cases hb
    have hit : s.iterating = true := hi.iterating.mpr ⟨b, hpc⟩
    rw [Loop.without, if_pos hit]
    refine h.next hlt rfl (by rw [invalidate, length_map]) (fun j hj => ?_) rfl rfl (by simp) fun htk => by cases htk
    rw [getElem?_invalidate]
    cases hq : s.pollFds[j]? with
    | none => rfl
    | some q =>
      -- the descriptor is in one entry only
      have hne : q.fd ≠ pe.fd := by
        intro hfd
        have := hi.distinct.index_unique hpe hq hfd (by omega)
        omega
      rw [Option.map_some, if_neg hne]
  | unwanted w h0 hlt' hc hm =>
    cases hb
    exact h.next hlt rfl (List.length_set) (hset _) rfl rfl (by simp) fun htk => by cases htk
  | signal w h0 hlt' hc hm hs =>
    cases hb
    refine h.next hlt rfl (List.length_set) (hset _) rfl rfl (by simp) fun _ => ?_
    obtain ⟨kernel, ha, -⟩ := hi.agrees
    obtain ⟨hp, hfd⟩ := ha.owner pe.fd.toNat w hlt' hc
    have hfd' : (s.core.io w).fd = (pe.fd.toNat : ℤ) := hfd
    rcases h.entry b.i pe entries[b.i] le_rfl hpe (getElem?_eq_getElem hlt) with ⟨hopen, he⟩ | ⟨-, hinv⟩
    · refine ⟨w, pe, hs, ha.live w hp, ?_, by omega, ?_⟩
      · rw [getElem?_eq_getElem hlt, he]
      · rw [he]
        exact hopen
    · omega
  | call w h0 hlt' hc hm hs =>
    cases hb
    exact h.next hlt rfl (List.length_set) (hset _) rfl rfl (by simp) fun htk => by cases htk

theorem Pending.first (hi : Inv s) (hpc : s.pc = .polled) (hk : entries.map PollFd.key = s.pollFds.map PollFd.key) :
    Pending sig (s.waited entries) ⟨0, 0, false, false, false⟩ entries [] := by
  have hopen : ∀ fd, ¬Closed ([] : List (Label W)) fd := by
    intro fd hc
    obtain ⟨w, hw⟩ := hc
    cases hw
  refine ⟨rfl, fun p hp => ?_, Nat.zero_le _, fun j p e _ hp he => ?_, rfl, ?_, fun hs => ?_, ?_⟩
  · have hkey : p.key ∈ s.pollFds.map PollFd.key := by
      rw [← hk]
      exact mem_map_of_mem hp
    obtain ⟨q, hq, hqk⟩ := mem_map.mp hkey
    rw [← (Prod.mk.inj hqk).1]
    exact (hi.at_poll hpc).valid q hq
  · have hp' : entries[j]? = some p := hp
    rw [he] at hp'
    exact .inl ⟨hopen _, (Option.some.inj hp').symm⟩
  · constructor
    · intro hs
      cases hs
    · intro hs
      obtain ⟨j, hj⟩ := hs
      cases hj
  · cases hs
  · constructor
    · intro hs
      cases hs
    · intro hs
      obtain ⟨j, hj⟩ := hs
      cases hj

omit [DecidableEq W] in
theorem Pending.deliverSignal (h : Pending sig s b entries post) {m : Mask} :
    Pending sig { s with pc := .batch { b with signalled := true, calling := true } }
      { b with signalled := true, calling := true } entries (post ++ [.deliverSignal m]) where
  length := h.length
  valid := h.valid
  bound := h.bound
  entry := by
    intro j p e hj hp he
    have hclosed : Closed (post ++ [.deliverSignal m]) e.fd ↔ Closed post e.fd := by
      rw [closed_snoc]
      exact or_iff_left fun hw => by
        obtain ⟨w, hw⟩ := hw
        cases hw
    rw [hclosed]
    exact h.entry j p e hj hp he
  taken := by
    rw [filterMap_append, h.taken]
    exact append_nil _
  signals := by
    refine h.signals.trans ⟨fun hj => ?_, fun hj => ?_⟩
    · obtain ⟨j, hj⟩ := hj
      exact ⟨j, mem_append_left _ hj⟩
    · obtain ⟨j, hj⟩ := hj
      rcases mem_append.mp hj with hm | hm
      · exact ⟨j, hm⟩
      · cases mem_singleton.mp hm
  signal := by
    intro hs
    obtain ⟨w, j, e, hsig, hlive, htake, hej, hfd, hopen⟩ := h.signal hs
    refine ⟨w, j, e, hsig, hlive, mem_append_left _ htake, hej, hfd, fun hc => ?_⟩
    rcases closed_snoc.mp hc with hc | ⟨w', hc⟩
    · exact hopen hc
    · cases hc
  signalled := ⟨fun _ => ⟨m, mem_append_right _ (mem_singleton.mpr rfl)⟩, fun _ => rfl⟩

theorem current_step {ls : List (Label W)} (hi : Inv s) (h : Current sig ls s) (hs : Step sig s l t) :
    Current sig (ls ++ [l]) t := by
  intro b' hb'
  cases hs with
  | @init w fd hc hl hfd hd =>
    obtain ⟨entries, post, hsince, hp⟩ := h b' hb'
    refine ⟨entries, _, hsince.snoc (fun _ hm => by cases hm), hp.quiet_call rfl (fun _ hm => by cases hm)
      (fun _ _ hm => by cases hm) rfl fun w' _ hlive => ?_⟩
    have hne : w' ≠ w := by
      intro he
      rw [he, hl] at hlive
      cases hlive
    refine ⟨?_, ?_⟩
    · change Function.update s.core.live w true w' = true
      rw [Function.update_of_ne hne]
      exact hlive
    · change ((s.core.setIo w ⟨fd, 0, 0⟩).io w').fd = _
      rw [IoWatcher.Loop.setIo_io, if_neg hne]
  | @start t w events hc hl ht =>
    obtain ⟨c, hcore, rfl⟩ := ioStart_cases ht
    obtain ⟨entries, post, hsince, hp⟩ := h b' hb'
    have hframe := IoWatcher.ioStart_startFrame hcore
    refine ⟨entries, _, hsince.snoc (fun _ hm => by cases hm), hp.quiet_call rfl (fun _ hm => by cases hm)
      (fun _ _ hm => by cases hm) rfl fun w' _ hlive => ?_⟩
    refine ⟨by rw [hframe.live]; exact hlive, ?_⟩
    rw [hframe.io]
    split_ifs with he
    · rw [he]
    · rfl
  | @stop t w events hc hl ht =>
    obtain ⟨c, hcore, rfl⟩ := ioStop_cases ht
    obtain ⟨entries, post, hsince, hp⟩ := h b' hb'
    have hframe := IoWatcher.ioStop_frame hcore
    refine ⟨entries, _, hsince.snoc (fun _ hm => by cases hm), hp.quiet_call rfl (fun _ hm => by cases hm)
      (fun _ _ hm => by cases hm) rfl fun w' _ hlive => ?_⟩
    exact ⟨by rw [hframe.live]; exact hlive, hframe.fd w'⟩
  | @close t w hc hl hsig ht =>
    have hpc : s.pc = .batch b' := by
      obtain ⟨c, -, rfl⟩ := ioClose_cases ht
      exact hb'
    obtain ⟨entries, post, hsince, hp⟩ := h b' hpc
    refine ⟨entries, _, hsince.snoc (fun _ hm => by cases hm), hp.close hi hpc hl (fun he => ?_) ht⟩
    rw [hsig he] at hpc
    cases hpc
  | poll hpc ht =>
    obtain ⟨u, hu, -, hpu⟩ := hi.pollHead hpc
    rw [hu] at ht
    cases ht
    rcases hpu with rfl | hpu
    · rw [hpc] at hb'
      cases hb'
    · rw [hpu] at hb'
      cases hb'
  | @wait entries hpc hk =>
    cases hb'
    exact ⟨entries, [], ⟨⟨ls, rfl⟩, fun _ hm => by cases hm⟩, Pending.first hi hpc hk⟩
  | take hpc hpe ht =>
    obtain ⟨entries, post, hsince, hp⟩ := h _ hpc
    exact ⟨entries, _, hsince.snoc (fun _ hm => by cases hm), hp.take hi hpc hpe ht hb'⟩
  | deliverSignal hpc hend hsig hn =>
    cases hb'
    obtain ⟨entries, post, hsince, hp⟩ := h _ hpc
    exact ⟨entries, _, hsince.snoc (fun _ hm => by cases hm), hp.deliverSignal⟩
  | finish hpc hend hsig hout =>
    rcases hout with rfl | ⟨rfl, -⟩
    · cases hb'
    · cases hb'
  | ret hpc => cases hb'

theorem current_run {ls : List (Label W)} (hr : (system sig).History ls s) : Inv s ∧ Current sig ls s := by
  have hrun : (system sig).TraceInductive fun ls s => Inv s ∧ Current sig ls s := by
    refine ⟨fun s h0 => ⟨(inv_run sig).init s h0, fun b hb => ?_⟩, fun ls s l t h hs => ?_⟩
    · rw [h0.2.2.2] at hb
      cases hb
    · exact ⟨h.1.step hs, current_step h.1 h.2 hs⟩
  exact hrun.run hr

end

/-- What is to be done with an entry as `poll()` has reported it. -/
def expected (sig : Option W) (s : Loop W) (e : PollFd) : Taken W :=
  match s.core.watchers[e.fd.toNat]? with
  | some (.watcher w) =>
    let m := wanted e.revents (s.core.io w).pevents
    if m = 0 then .skip else if sig = some w then .signal else .call w m
  | _ => .skip

theorem Takes.expected {sig : Option W} {s t : Loop W} {b : Batch} {pe : PollFd} {taken : Taken W}
    (h : Takes sig s b pe taken t) (hne : pe.fd ≠ -1) : taken = expected sig s pe := by
  rw [PosixPoll.expected]
  cases h with
  | invalid hinv => exact absurd hinv hne
  | stopped h0 hc => rw [hc]
  | unwanted w h0 hlt hc hm =>
    rw [hc]
    exact (if_pos hm).symm
  | signal w h0 hlt hc hm hs =>
    rw [hc]
    dsimp only
    rw [if_neg hm, if_pos hs]
  | call w h0 hlt hc hm hs =>
    rw [hc]
    dsimp only
    rw [if_neg hm, if_neg hs]

/-- What a step does about the batch: an entry is taken up after those before it, and skipped if a watcher of its descriptor
has been closed since `poll()`, or else treated as expected; the signal watcher is called once for entries of its own; at
the end each entry has been taken up, and what goes are the entries that are -1. -/
structure Delivers (sig : Option W) (ls : List (Label W)) (s : Loop W) (l : Label W) (t : Loop W) : Prop where
  take : ∀ j taken, l = .take j taken → ∃ entries post e, Since ls entries post ∧ entries[j]? = some e ∧
    post.filterMap Label.index = List.range j ∧ (Closed post e.fd → taken = .skip) ∧
    (¬Closed post e.fd → taken = expected sig s e)
  signal : ∀ m, l = .deliverSignal m → ∃ entries post w j e, Since ls entries post ∧ sig = some w ∧
    .take j .signal ∈ post ∧ entries[j]? = some e ∧ e.fd = (s.core.io w).fd ∧ ¬Closed post e.fd ∧
    ∀ m', .deliverSignal m' ∉ post
  finish : l = .finish → t.pollFds.Perm (s.pollFds.filter fun p => p.fd ≠ -1) ∧ ∃ entries post, Since ls entries post ∧
    post.filterMap Label.index = List.range entries.length ∧
    ((∃ j, .take j .signal ∈ post) → ∃ m, .deliverSignal m ∈ post)

theorem delivers {sig : Option W} {ls : List (Label W)} {s t : Loop W} {l : Label W} (h : Current sig ls s)
    (hs : Step sig s l t) : Delivers sig ls s l t := by
  refine ⟨fun j taken hl => ?_, fun m hl => ?_, fun hl => ?_⟩
  · subst hl
    cases hs with
    | @take t b pe taken hpc hpe ht =>
      obtain ⟨entries, post, hsince, hp⟩ := h b hpc
      have htakes := dispatch_takes ht
      have hlt : b.i < entries.length := by
        rw [hp.length]
        exact (List.getElem?_eq_some_iff.mp hpe).1
      have he := getElem?_eq_getElem hlt
      refine ⟨entries, post, entries[b.i], hsince, he, hp.taken, fun hclosed => ?_, fun hopen => ?_⟩
      · rcases hp.entry b.i pe _ le_rfl hpe he with ⟨hno, -⟩ | ⟨-, hinv⟩
        · exact absurd hclosed hno
        · cases htakes with
          | invalid _ | stopped h0 _ | unwanted _ h0 _ _ _ => rfl
          | signal _ h0 _ _ _ _ | call _ h0 _ _ _ _ => omega
      · rcases hp.entry b.i pe _ le_rfl hpe he with ⟨-, hsame⟩ | ⟨hclosed, -⟩
        · rw [← hsame]
          refine htakes.expected ?_
          rw [hsame]
          exact hp.valid _ (mem_of_getElem? he)
        · exact absurd hclosed hopen
  · subst hl
    cases hs with
    | @deliverSignal b hpc hend hsig hn =>
      obtain ⟨entries, post, hsince, hp⟩ := h b hpc
      obtain ⟨w, j, e, hw, -, htake, hej, hfd, hopen⟩ := hp.signal hsig
      refine ⟨entries, post, w, j, e, hsince, hw, htake, hej, hfd, hopen, fun m' hm => ?_⟩
      rw [hp.signalled.mpr ⟨m', hm⟩] at hn
      cases hn
  · subst hl
    cases hs with
    | @finish b pc hpc hend hsig hout =>
      obtain ⟨entries, post, hsince, hp⟩ := h b hpc
      refine ⟨del_perm fun hne => absurd rfl hne, entries, post, hsince, ?_, fun hj => ?_⟩
      · rw [hp.taken, hend, hp.length]
      · have hhave := hp.signals.mpr hj
        rw [hsig] at hhave
        exact hp.signalled.mp hhave

theorem Inv.dispatch_total {s : Loop W} (h : Inv s) (sig : Option W) {b : Batch} {pe : PollFd}
    (hpe : s.pollFds[b.i]? = some pe) : ∃ t taken, s.dispatch sig b pe = some (t, taken) := by
  rw [Loop.dispatch]
  by_cases hinv : pe.fd = -1
  · rw [if_pos hinv]
    exact ⟨_, _, rfl⟩
  obtain ⟨kernel, ha, hr⟩ := h.agrees
  have hk : kernel pe.fd = some pe.events := (hr _ _).mpr ⟨hinv, mem_map_of_mem (mem_of_getElem? hpe)⟩
  have hsome : (kernel pe.fd).isSome = true := by
    rw [hk]
    rfl
  obtain ⟨i, hi, hfd⟩ := ha.known pe.fd hsome
  have hi' : i < s.core.nwatchers.toNat := hi
  have hin : ¬(pe.fd < 0 ∨ s.core.nwatchers.toNat ≤ pe.fd.toNat) := by omega
  rw [if_neg hinv, if_neg hin]
  rcases ha.shaped.cells pe.fd.toNat (by rw [hfd, Int.toNat_natCast]; exact hi) with hc | ⟨w, hc⟩
  · have hc' : s.core.watchers[pe.fd.toNat]? = some .null := hc
    rw [hc']
    rw [Loop.platformInvalidateFd, if_neg (by omega)]
    split_ifs
    · exact ⟨_, _, rfl⟩
    · exact ⟨_, _, rfl⟩
  · have hc' : s.core.watchers[pe.fd.toNat]? = some (.watcher w) := hc
    rw [hc']
    dsimp only
    split_ifs
    · exact ⟨_, _, rfl⟩
    · exact ⟨_, _, rfl⟩
    · exact ⟨_, _, rfl⟩

/-- In every run: `uv__io_poll` gets to `poll()` and through the entries, the entries are at `poll()` as the watchers want
them, and what `poll()` reports is delivered. -/
theorem poll_backend {sig : Option W} {ls : List (Label W)} {s : Loop W} (hr : (system sig).History ls s) :
    (s.pc = .idle → ∃ t, s.pollHead = some t) ∧ (s.pc = .polled → AtPoll s) ∧
      (∀ b pe, s.pc = .batch b → s.pollFds[b.i]? = some pe → ∃ t taken, s.dispatch sig b pe = some (t, taken)) ∧
      ∀ l t, Step sig s l t → Delivers sig ls s l t := by
  obtain ⟨hi, hc⟩ := current_run hr
  refine ⟨fun hpc => ?_, hi.at_poll, fun b pe _ hpe => hi.dispatch_total sig hpe, fun l t hs => delivers hc hs⟩
  obtain ⟨t, ht, -⟩ := hi.pollHead hpc
  exact ⟨t, ht⟩

/-- Two watchers have events. The callback of the first one closes the second, and starts another one on its descriptor: the
entry of the closed one is skipped, and at the next `poll()` the descriptor is there for the new one. -/
theorem poll_backend_one : ∃ (ls : List (Label (Fin 3))) (s t u : Loop (Fin 3)), (system none).History ls s ∧
    s.pollFds.map PollFd.fd = [0, -1] ∧ s.core.live 1 = false ∧ (s.core.io 2).fd = 1 ∧ Delivers none ls s (.take 1 .skip) t ∧
    u.pc = .polled ∧ (u.core.io 2).pevents = POLLIN ∧ AtPoll u := by
  have h0 : (system none).Reachable
      (⟨⟨[], 0, 0, [], fun _ => ⟨-1, 0, 0⟩, fun _ => false, fun _ => none, .idle⟩, [], false, .idle⟩ : Loop (Fin 3)) :=
    .init ⟨⟨rfl, rfl, rfl, rfl, fun _ => rfl, fun _ => rfl, fun _ => rfl, rfl⟩, rfl, rfl, rfl⟩
  have h1 := h0.next (.init 0 0) (.init trivial rfl (by decide) (by decide))
  have h2 := h1.next (.start 0 POLLIN) (.start trivial rfl rfl)
  have h3 := h2.next (.init 1 1) (.init trivial rfl (by decide) (by decide))
  have h4 := h3.next (.start 1 POLLIN) (.start trivial rfl rfl)
  have h5 := h4.next .poll (.poll rfl rfl)
  have h6 := h5.next (.wait [⟨0, POLLIN, POLLIN⟩, ⟨1, POLLIN, POLLIN⟩]) (.wait rfl rfl)
  have h7 := h6.step (.take rfl rfl rfl)
  have h8 := h7.next (.close 1 1) (.close rfl rfl nofun rfl)
  have h9 := h8.next (.init 2 1) (.init rfl rfl (by decide) (by decide))
  have h10 := h9.next (.start 2 POLLIN) (.start rfl rfl rfl)
  have h11 := h10.step (.take rfl rfl rfl)
  have h12 := h11.next .finish (.finish rfl rfl rfl (.inl rfl))
  have h13 := h12.next .poll (.poll rfl rfl)
  obtain ⟨ls, hs⟩ := h10
  obtain ⟨ls', hu⟩ := h13
  have ht := (poll_backend hs).2.2.2 _ _ (.take (b := ⟨1, 1, false, false, true⟩) rfl rfl rfl)
  exact ⟨ls, _, _, _, hs, rfl, rfl, rfl, ht, rfl, rfl, (poll_backend hu).2.1 rfl⟩

end Libuv.L2.PosixPoll
