import Libuv.L2Loop.Inotify

/-!
# What an event reaches (`linux-inotify.c`)

The walk of `uv__inotify_read` over a watcher list, and the runs of the API and of events in any
order. `QUEUE_MOVE` takes the handles attached when the event is taken up; a handle that
is started during the walk gets into the list's own queue, which is not walked.

* `Walk`: who has been called, who has been stopped, who is left.
* `watcher_lists`: the tree holds the lists that are in use, a list is freed once and not
  touched afterwards, an active handle is in the queue of the list whose descriptor it stores,
  and an event calls the handles that were attached when it was taken up, except for those
  stopped before their turn, once.
-/
namespace Libuv.L2.Inotify

open List Option Function

variable {s t : State} {h id : ℕ}

/-- What the observer of a walk has written down, with the queue before it. -/
structure Walk (s : State) : Prop where
  once : (s.called ++ s.queue).Nodup
  first : ∀ i ∈ s.called ++ s.queue, i ∈ s.initial
  notStopped : ∀ i ∈ s.called ++ s.queue, i ∉ s.stopped
  covered : ∀ i ∈ s.initial, i ∈ s.called ++ s.queue ∨ i ∈ s.stopped

theorem Walk.congr (hs : Walk s) (h : SameWalk s t) : Walk t := by
  obtain ⟨-, h1, h2, h3, h4⟩ := h
  refine ⟨?_, ?_, ?_, ?_⟩
  · rw [h1, h3]
    exact hs.once
  · rw [h1, h2, h3]
    exact hs.first
  · rw [h1, h3, h4]
    exact hs.notStopped
  · rw [h1, h2, h3, h4]
    exact hs.covered

theorem Walk.drop (hs : Walk s) (hd : Dropped h s t) : Walk t := by
  have hsub : (s.called ++ s.queue.erase h).Sublist (s.called ++ s.queue) := by
    exact (List.Sublist.refl _).append erase_sublist
  have hnd := nodup_append.1 hs.once
  have hstop : ∀ i, i ∈ t.stopped ↔ i ∈ s.stopped ∨ i = h ∧ h ∉ s.called := by
    intro i
    rw [hd.stopped]
    split <;> simp_all
  refine ⟨?_, ?_, ?_, ?_⟩
  · rw [hd.called, hd.queue]
    exact hs.once.sublist hsub
  · intro i hi
    rw [hd.called, hd.queue] at hi
    rw [hd.initial]
    exact hs.first i (hsub.subset hi)
  · intro i hi
    rw [hd.called, hd.queue] at hi
    rw [hstop]
    intro hst
    rcases hst with h1 | ⟨rfl, h1⟩
    · exact hs.notStopped i (hsub.subset hi) h1
    · rcases mem_append.1 hi with h2 | h2
      · exact h1 h2
      · exact hnd.2.1.not_mem_erase h2
  · intro i hi
    rw [hd.initial] at hi
    rw [hd.called, hd.queue, hstop]
    rcases hs.covered i hi with h1 | h1
    · rcases mem_append.1 h1 with h2 | h2
      · exact .inl (mem_append_left _ h2)
      · by_cases hih : i = h
        · subst hih
          exact .inr (.inr ⟨rfl, fun hc => hnd.2.2 i hc i h2 rfl⟩)
        · exact .inl (mem_append_right _ ((mem_erase_of_ne hih).2 h2))
    · exact .inr (.inl h1)

theorem Walk.length_le (hs : Walk s) : s.called.length + s.queue.length ≤ s.initial.length := by
  rw [← length_append]
  exact (subperm_of_subset hs.once hs.first).length_le

theorem Inv.move (hs : Inv none s) {p : Pc} {q : List ℕ} {w v : WatcherList} (hw : s.mem id = some w)
    (hpc : s.pc.walked = none ∨ s.pc.walked = some id) (hpc' : p.walked = none ∨ p.walked = some id) (hwd : v.wd = w.wd)
    (hit : v.iterating = true ↔ p.walked = some id) (hq : p.walked = none → q = [])
    (ha : v.watchers ++ (if p.walked = some id then q else []) = s.attached id) {c i o : List ℕ} :
    Inv (some id) { s with
      mem := Function.update s.mem id (some v)
      pc := p
      queue := q
      initial := i
      called := c
      stopped := o } := by
  let t : State := { s with
    mem := Function.update s.mem id (some v)
    pc := p
    queue := q
    initial := i
    called := c
    stopped := o }
  show Inv (some id) t
  have hne : ∀ {r : Pc} {j : ℕ}, r.walked = none ∨ r.walked = some id → j ≠ id → r.walked ≠ some j := by
    intro r j hp hj e
    rcases hp with h | h
    · rw [h] at e
      cases e
    · rw [h] at e
      exact hj (some.inj e).symm
  have hatt : ∀ j, t.attached j = s.attached j := by
    intro j
    by_cases hj : j = id
    · subst hj
      rw [← ha]
      simp [t, State.attached]
    · simp [t, State.attached, update_of_ne hj, if_neg (hne hpc hj), if_neg (hne hpc' hj)]
  refine ⟨⟨fun d j => ?_, fun j => ?_, fun j hj => ?_, hs.once, fun j u hu => ?_, fun j hj => ?_⟩, fun j u hu hj => ?_,
    fun i j => ?_, hs.found, fun j => ?_, hq, hs.path, hs.detached⟩
  · rw [hs.tree]
    by_cases hj : j = id
    · subst hj
      simp [t, hw, hwd]
    · simp [t, hj]
  · rw [hs.fresh]
    by_cases hj : j = id
    · subst hj
      simp [t, hw]
    · simp [t, hj]
  · have hnone := hs.freed j hj
    have : j ≠ id := by
      intro e
      rw [e, hw] at hnone
      cases hnone
    simpa [t, this] using hnone
  · by_cases hj : j = id
    · subst hj
      simp only [t, update_self, some.injEq] at hu
      subst hu
      exact hit
    · rw [hs.iterating j u (by simpa [t, hj] using hu)]
      exact iff_of_false (hne hpc hj) (hne hpc' hj)
  · have : j = id := by
      by_contra h
      exact hne hpc' h hj
    exact ⟨v, by simp [t, this]⟩
  · have hj : j ≠ id := fun h => hj (congrArg some h)
    rw [hatt]
    exact hs.used j u (by simpa [t, hj] using hu) (by simp)
  · rw [hatt]
    exact hs.attached i j
  · rw [hatt]
    exact hs.nodup j

theorem Inv.inUse (hs : Inv (some id) s) {w : WatcherList} (hw : s.mem id = some w)
    (hu : s.attached id ≠ [] ∨ w.iterating = true) : Inv none s := by
  refine { hs with used := fun j v hv _ => ?_ }
  by_cases hj : j = id
  · subst hj
    rw [hw] at hv
    cases hv
    exact hu
  · exact hs.used j v hv (by simpa using hj)

def Good (s : State) : Prop := Inv none s ∧ (s.pc.walked ≠ none → Walk s)

theorem Good.event (hs : Good s) (hpc : s.pc = .idle) (wd : ℤ) : ∃ t, s.event wd = some t ∧ Good t ∧
    (s.tree wd = none ∧ t = s ∨ ∃ id, s.tree wd = some id ∧ t.pc = .walking id ∧ t.initial = s.attached id ∧
      t.called = [] ∧ t.stopped = []) := by
  have hw : s.pc.walked = none := by rw [hpc]; rfl
  unfold State.event State.findWatcher
  cases hf : s.tree wd with
  | none => exact ⟨s, rfl, hs, .inl ⟨rfl, rfl⟩⟩
  | some id =>
    obtain ⟨w, hm, hwd⟩ := hs.1.toTable.mem_eq hf
    have ha : s.attached id = w.watchers := by
      rw [attached_eq hm, hw, if_neg nofun, append_nil]
    simp only [hm, bind_eq_bind, bind_some]
    refine ⟨_, rfl, ⟨?_, fun _ => ?_⟩, .inr ⟨id, rfl, rfl, ha.symm, rfl, rfl⟩⟩
    · have hi := hs.1.move (p := .walking id) (q := w.watchers) (v := { w with iterating := true, watchers := [] })
        (i := w.watchers) (c := []) (o := []) hm (.inl hw) (.inr rfl) rfl (iff_of_true rfl rfl) nofun (by simp [ha, Pc.walked])
      exact hi.inUse (update_self ..) (.inr rfl)
    · have hnd : w.watchers.Nodup := ha ▸ hs.1.nodup id
      exact ⟨hnd, fun i hi => hi, fun i _ => not_mem_nil, fun i hi => .inl hi⟩

theorem Good.next (hs : Good s) (hpc : s.pc = .walking id) : ∃ t, s.next id = some t ∧ Good t ∧
    (s.queue = [] ∧ t.pc = .idle ∨
      ∃ h q, s.queue = h :: q ∧ t.queue = q ∧ t.pc = .calling id ∧ t.called = s.called ++ [h]) := by
  have hw : s.pc.walked = some id := by rw [hpc]; rfl
  obtain ⟨w, hm⟩ := hs.1.walked id hw
  have hwalk := hs.2 (by rw [hw]; nofun)
  have ha : s.attached id = w.watchers ++ s.queue := by rw [attached_eq hm, if_pos hw]
  simp only [State.next, hm, bind_eq_bind, bind_some]
  cases hq : s.queue with
  | nil =>
    have hi := hs.1.move (p := .idle) (q := []) (v := { w with iterating := false }) (i := s.initial) (c := s.called)
      (o := s.stopped) hm (.inr hw) (.inl rfl) rfl (iff_of_false nofun nofun) (fun _ => rfl)
      (by rw [ha, hq]; rfl)
    obtain ⟨t, ht, hinv, hk⟩ := maybeFree_spec hi (update_self ..)
    refine ⟨t, ht, ⟨hinv, fun h => ?_⟩, .inl ⟨rfl, hk.pc⟩⟩
    rw [hk.pc] at h
    exact absurd rfl h
  | cons h q =>
    have hi := hs.1.move (p := .calling id) (q := q) (v := { w with watchers := w.watchers ++ [h] }) (i := s.initial)
      (c := s.called ++ [h]) (o := s.stopped) hm (.inr hw) (.inr rfl) rfl ?_ nofun ?_
    · refine ⟨_, rfl, ⟨hi.inUse (update_self ..) (.inl ?_), fun _ => ?_⟩, .inr ⟨h, q, rfl, rfl, rfl, rfl⟩⟩
      · simp [State.attached]
      · have heq : s.called ++ [h] ++ q = s.called ++ s.queue := by rw [hq]; simp
        refine ⟨?_, ?_, ?_, ?_⟩
        · rw [heq]
          exact hwalk.once
        · rw [heq]
          exact hwalk.first
        · rw [heq]
          exact hwalk.notStopped
        · rw [heq]
          exact hwalk.covered
    · exact (hs.1.iterating id w hm).trans (iff_of_true hw rfl)
    · rw [ha, hq]
      simp [Pc.walked]

theorem Good.ret (hs : Good s) (hpc : s.pc = .calling id) : Good { s with pc := .walking id } := by
  have hw : s.pc.walked = some id := by rw [hpc]; rfl
  have hwalk := hs.2 (by rw [hw]; nofun)
  obtain ⟨w, hm⟩ := hs.1.walked id hw
  have hit : w.iterating = true := (hs.1.iterating id w hm).2 hw
  have hi := hs.1.move (p := .walking id) (q := s.queue) (v := w) (i := s.initial) (c := s.called) (o := s.stopped) hm
    (.inr hw) (.inr rfl) rfl (iff_of_true hit rfl) nofun (by rw [attached_eq hm, hw]; rfl)
  rw [← hm, update_eq_self] at hi
  exact ⟨hi.inUse hm (.inr hit), fun _ => ⟨hwalk.once, hwalk.first, hwalk.notStopped, hwalk.covered⟩⟩

theorem good_initial : Good initial := by
  refine ⟨⟨⟨?_, ?_, ?_, nodup_nil, ?_, ?_⟩, ?_, ?_, ?_, ?_, fun _ => rfl, ?_, fun _ _ => rfl⟩, fun h => absurd rfl h⟩
  all_goals simp [initial, Handle.handleInit, State.attached, Pc.walked]

theorem Good.step (hs : Good s) {l : Label} (he : enabled s l) : ∃ t, step s l = some t ∧ Good t := by
  cases l with
  | start h init wd mem =>
    obtain ⟨t, ht, hi, hk⟩ := hs.1.start h init wd mem
    exact ⟨t, ht, hi, fun hw => (hs.2 (hk.pc ▸ hw)).congr hk⟩
  | stop h =>
    obtain ⟨t, ht, hi, hd⟩ := hs.1.stop h
    exact ⟨t, ht, hi, fun hw => (hs.2 (hd.pc ▸ hw)).drop hd⟩
  | close h =>
    obtain ⟨t, ht, hi, hd⟩ := hs.1.close h
    exact ⟨t, ht, hi, fun hw => (hs.2 (hd.pc ▸ hw)).drop hd⟩
  | event wd =>
    obtain ⟨t, ht, hg, -⟩ := hs.event (by simpa [enabled] using he) wd
    exact ⟨t, ht, hg⟩
  | next =>
    cases hpc : s.pc with
    | walking id =>
      obtain ⟨t, ht, hg, -⟩ := hs.next hpc
      exact ⟨t, by simpa [Inotify.step, hpc] using ht, hg⟩
    | idle | calling id => simp [enabled, hpc, Pc.isWalking] at he
  | ret =>
    cases hpc : s.pc with
    | calling id => exact ⟨_, by simp [Inotify.step, hpc], hs.ret hpc⟩
    | idle => simp [enabled, hpc] at he
    | walking id => simp [enabled, hpc, Pc.isWalking] at he

theorem good_inductive : system.Inductive Good where
  init := by
    intro s hs
    subst hs
    exact good_initial
  step := by
    intro s l t hs hst
    obtain ⟨u, hu, hg⟩ := hs.step hst.1
    rw [hst.2] at hu
    cases hu
    exact hg

/-- **Watcher lists.** In every reachable state the lists of the tree are those with a handle
attached and the one being iterated; a list that is allocated has been freed, once, if it is not
in the tree, and not before; nothing that may be done next fails an assertion or uses a list
that has been freed; an active handle is attached once, to the list whose descriptor and path
it stores, and an inactive one is not attached. In a walk the handles called were attached when
the event was taken up and are called once and not after having been stopped, and when the
queue is empty no other handle is left. An iteration calls the head of the queue or ends the walk;
a handle that is stopped leaves the queue. -/
theorem watcher_lists (hr : system.Reachable s) :
    (∀ id, (∃ wd, s.tree wd = some id) ↔ s.attached id ≠ [] ∨ s.pc.walked = some id) ∧
    (s.freed.Nodup ∧ (∀ id, id ∈ s.freed ↔ id < s.fresh ∧ ∀ wd, s.tree wd ≠ some id) ∧
      ∀ id ∈ s.freed, s.pc.walked ≠ some id) ∧ (∀ l, enabled s l → ∃ t, step s l = some t) ∧
    (∀ h, (s.flags h).active = true → ∃ id, s.tree (s.wd h) = some id ∧ s.path h = some id ∧
      (s.attached id).count h = 1 ∧ ∀ j, h ∈ s.attached j → j = id) ∧
    (∀ h, (s.flags h).active = false → ∀ j, h ∉ s.attached j) ∧ (∀ wd id, s.pc = .idle → s.tree wd = some id →
      ∃ t, step s (.event wd) = some t ∧ t.pc = .walking id ∧ t.initial = s.attached id ∧ t.called = [] ∧ t.stopped = []) ∧
    (s.pc.walked ≠ none → s.called.Nodup ∧ s.called.length + s.queue.length ≤ s.initial.length ∧
      (∀ h ∈ s.called, h ∈ s.initial ∧ h ∉ s.stopped) ∧
      (s.queue = [] → ∀ h ∈ s.initial, h ∈ s.called ∨ h ∈ s.stopped)) ∧
    (∀ id, s.pc = .walking id → ∃ t, step s .next = some t ∧ (s.queue = [] ∧ t.pc = .idle ∨
      ∃ h q, s.queue = h :: q ∧ t.queue = q ∧ t.pc = .calling id ∧ t.called = s.called ++ [h])) ∧
    (∀ id, s.pc = .calling id → step s .ret = some { s with pc := .walking id }) ∧
    ∀ h t, step s (.stop h) = some t ∨ step s (.close h) = some t →
      t.queue = s.queue.erase h ∧ (h ∉ s.called → h ∈ t.stopped) := by
  have hg := good_inductive.reachable hr
  have hi := hg.1
  refine ⟨fun id => ?_, ⟨hi.once, fun id => ?_, fun id hid hw => ?_⟩, fun l he => ?_, fun h hh => ?_, fun h hh j hj => ?_,
    fun wd id hpc ht => ?_, fun hw => ?_, fun id hpc => ?_, fun id hpc => by simp [step, hpc], fun h t ht => ?_⟩
  · constructor
    · intro ⟨wd, ht⟩
      obtain ⟨w, hw, -⟩ := hi.toTable.mem_eq ht
      exact (hi.used id w hw nofun).imp_right (hi.iterating id w hw).1
    · intro hu
      obtain ⟨w, hw⟩ : ∃ w, s.mem id = some w := by
        rcases hu with ha | hp
        · obtain ⟨h, hh⟩ := exists_mem_of_ne_nil _ ha
          obtain ⟨w, hw, -⟩ := hi.toTable.mem_eq ((hi.attached h id).1 hh).2
          exact ⟨w, hw⟩
        · exact hi.walked id hp
      exact ⟨w.wd, hi.toTable.tree_eq hw⟩
  · constructor
    · intro hid
      refine ⟨(hi.fresh id).2 (.inr hid), fun wd ht => ?_⟩
      obtain ⟨w, hw, -⟩ := hi.toTable.mem_eq ht
      rw [hi.freed id hid] at hw
      cases hw
    · intro ⟨hlt, hnot⟩
      refine ((hi.fresh id).1 hlt).resolve_left fun ⟨w, hw⟩ => hnot w.wd (hi.toTable.tree_eq hw)
  · obtain ⟨w, hm⟩ := hi.walked id hw
    rw [hi.freed id hid] at hm
    cases hm
  · obtain ⟨t, ht, -⟩ := hg.step he
    exact ⟨t, ht⟩
  · obtain ⟨id, hid⟩ := hi.found h hh
    have hmem : h ∈ s.attached id := (hi.attached h id).2 ⟨hh, hid⟩
    refine ⟨id, hid, (hi.path h hh).trans hid, count_eq_one_of_mem (hi.nodup id) hmem, fun j hj => ?_⟩
    have := ((hi.attached h j).1 hj).2
    rw [hid] at this
    exact (some.inj this).symm
  · rw [((hi.attached h j).1 hj).1] at hh
    cases hh
  · obtain ⟨t, hstep, -, hcase⟩ := hg.event hpc wd
    rcases hcase with ⟨h, -⟩ | ⟨j, hj, h1, h2, h3, h4⟩
    · rw [ht] at h
      cases h
    · rw [ht] at hj
      cases hj
      exact ⟨t, hstep, h1, h2, h3, h4⟩
  · have hwalk := hg.2 hw
    refine ⟨(nodup_append.1 hwalk.once).1, hwalk.length_le, fun h hh => ?_, fun hq h hh => ?_⟩
    · have hmem : h ∈ s.called ++ s.queue := mem_append_left _ hh
      exact ⟨hwalk.first h hmem, hwalk.notStopped h hmem⟩
    · simpa [hq] using hwalk.covered h hh
  · obtain ⟨t, ht, -, hcase⟩ := hg.next hpc
    exact ⟨t, by simpa [step, hpc] using ht, hcase⟩
  · have hd : Dropped h s t := by
      rcases ht with ht | ht
      · obtain ⟨u, hu, -, hd⟩ := hi.stop h
        cases hu.symm.trans ht
        exact hd
      · obtain ⟨u, hu, -, hd⟩ := hi.close h
        cases hu.symm.trans ht
        exact hd
    refine ⟨hd.queue, fun hc => ?_⟩
    rw [hd.stopped, if_neg hc]
    exact mem_append_right _ (mem_singleton_self h)

/-- Two handles are attached to one list; the callback of the first stops both and starts
the first again: the second is not called, the list is the one it was, and the walk ends. -/
theorem watcher_lists_two : ∃ s : State, system.Reachable s ∧ s.pc = .walking 0 ∧ s.initial = [7, 8] ∧ s.queue = [] ∧
    s.called = [7] ∧ s.attached 0 = [7] ∧ (∀ h ∈ s.initial, h ∈ s.called ∨ h ∈ s.stopped) ∧
    ∃ t, step s .next = some t ∧ t.pc = .idle := by
  obtain ⟨s, hs, hpc, hini, hq, hcalled, hatt⟩ : ∃ s : State,
      [Label.start 7 true 1 true, .start 8 true 1 true, .event 1, .next, .stop 7, .stop 8, .start 7 true 1 true,
        .ret].foldlM (fun s l => if enabled s l then step s l else none) initial = some s ∧
      s.pc = .walking 0 ∧ s.initial = [7, 8] ∧ s.queue = [] ∧ s.called = [7] ∧ s.attached 0 = [7] := by
    refine ⟨_, rfl, rfl, rfl, rfl, rfl, rfl⟩
  have hr : system.Reachable s := by
    refine (LTS.Reachable.init (T := system) rfl).foldlM (fun s l t h => ?_) hs
    split at h
    · next he => exact ⟨he, h⟩
    · cases h
  have hw : s.pc.walked ≠ none := by rw [hpc]; nofun
  obtain ⟨-, -, -, -, -, -, hwalk, hnext, -⟩ := watcher_lists hr
  obtain ⟨t, ht, ⟨-, hend⟩ | ⟨h, q, hcons, -⟩⟩ := hnext 0 hpc
  · exact ⟨s, hr, hpc, hini, hq, hcalled, hatt, (hwalk hw).2.2.2 hq, t, ht, hend⟩
  · rw [hq] at hcons
    cases hcons

end Libuv.L2.Inotify
