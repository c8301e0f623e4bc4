import Libuv.L2Loop.InotifyRun

/-!
# Watchers in a new process (`linux-inotify.c`)

After a fork the watchers of the loop are for the parent's inotify instance. `uv__inotify_fork` stops all handles, with
`QUEUE_MOVE` as in `uv__inotify_read`, and starts them again: a handle's node is in a queue on the stack in between, and its
`path` is a copy of the text it pointed to. Copies are known by the order in which they are made; `freed` are those that have
been freed.

A list is known by its allocation, as in `Libuv.L2.Inotify`, of which this is a continuation: no event is being handled, and
`text` is the path behind each list. What the system calls and `uv__malloc` do for each restart is a parameter (`Restart`);
`uv__strdup` has memory. `inotify_rm_watch` for a descriptor that has been closed does nothing.

* `fork_iff`: the call does what it is meant to do if and only if no restart fails and handles that get the same watch
  descriptor have the same path, or only the last one fails.
* `fork_leaks`: else handles are left in a queue that is gone, with a path that is not freed.
-/
namespace Libuv.L2.Inotify

open List Option Function
open Handle (handleStart handleStop)

abbrev Path := List UInt8

/-- What a restart meets: the error of `inotify_init1`, what `inotify_add_watch` returns, and whether `uv__malloc` succeeds. -/
structure Restart where
  init : Option ℕ
  watch : Except ℕ ℕ
  mem : Bool

def Restart.wd (r : Restart) : ℤ :=
  match r.watch with
  | .ok wd => wd
  | .error _ => -1

/-- What `uv_fs_event_start` returns instead of 0. -/
inductive StartError
  | inval
  | nomem
  | sys (errno : ℕ)
deriving DecidableEq

/-- `queue` is `tmp_watcher_list.watchers` and then `queue`; `copy` is the copy that a handle's `path` points to. -/
structure Fork where
  s : State
  text : ℕ → Path
  cb : ℕ → ℕ
  copies : List Path
  copy : ℕ → Option ℕ
  freed : List ℕ
  queue : List ℕ

def Fork.begin (s : State) (text : ℕ → Path) (cb : ℕ → ℕ) : Fork := ⟨s, text, cb, [], fun _ => none, [], []⟩

/-- The lists in the order of `RB_FOREACH_SAFE`: that of the descriptors. -/
def State.lists (s : State) : List ℕ :=
  ((List.range s.fresh).filter fun id => (s.mem id).isSome).mergeSort fun a b =>
    ((s.mem a).elim 0 WatcherList.wd) ≤ ((s.mem b).elim 0 WatcherList.wd)

namespace Fork
variable (f : Fork)

/-- mirrors unix/linux-inotify.c:119-126 -/
def stopHandle (h : ℕ) : Option Fork := do
  let id ← f.s.path h
  let s ← f.s.stop h
  some { f with
    s := s
    copies := f.copies ++ [f.text id]
    copy := Function.update f.copy h (some f.copies.length)
    queue := f.queue ++ [h] }

/-- The loop over a queue, and what follows it.
mirrors unix/linux-inotify.c:111-129 -/
def drain (id : ℕ) : ℕ → Fork → Option Fork
  | 0, _ => none
  | n + 1, f =>
    match f.s.queue with
    | [] => do
      let s ← f.s.next id
      some { f with s := s }
    | h :: _ => do
      let s ← f.s.next id
      let f ← { f with s := s }.stopHandle h
      drain id n { f with s := { f.s with pc := .walking id } }

/-- The handles are taken from a list as for an event.
mirrors unix/linux-inotify.c:109-129 -/
def stopList (id : ℕ) : Option Fork := do
  let w ← f.s.mem id
  let s ← f.s.event w.wd
  drain id (s.queue.length + 1) { f with s := s }

/-- What `uv_fs_event_start` returns. -/
def startError (h : ℕ) (r : Restart) : Option StartError :=
  if (f.s.flags h).active = true then some .inval
  else
    match r.init with
    | some e => some (.sys e)
    | none =>
      match r.watch with
      | .error e => some (.sys e)
      | .ok wd => if f.s.findWatcher wd = none ∧ r.mem = false then some .nomem else none

/-- `uv_fs_event_start`; a list that is allocated gets the path.
mirrors unix/linux-inotify.c:249-302 -/
def start (h cb : ℕ) (path : Path) (r : Restart) : Option (Fork × Option StartError) := do
  let s ← f.s.start h r.init.isNone r.wd r.mem
  let e := f.startError h r
  some ({ f with
    s := s
    text := if s.fresh = f.s.fresh then f.text else Function.update f.text f.s.fresh path
    cb := if e = none then Function.update f.cb h cb else f.cb }, e)

/-- The second loop; `k` restarts have been made.
mirrors unix/linux-inotify.c:132-143 -/
def restart (rs : ℕ → Restart) : List ℕ → ℕ → Fork → Option (Fork × Option StartError)
  | [], _, f => some (f, none)
  | h :: q, k, f => do
    let c ← f.copy h
    let path ← f.copies[c]?
    let f : Fork := { f with queue := q, copy := Function.update f.copy h none }
    let (f, e) ← f.start h (f.cb h) path (rs k)
    let f : Fork := { f with freed := f.freed ++ [c] }
    match e with
    | some e => some (f, some e)
    | none => restart rs q (k + 1) f

end Fork

/-- `uv__inotify_fork` with the watchers of `s`.
mirrors unix/linux-inotify.c:86-148 -/
def uvInotifyFork (rs : ℕ → Restart) (s : State) (text : ℕ → Path) (cb : ℕ → ℕ) : Option (Fork × Option StartError) := do
  let f ← s.lists.foldlM Fork.stopList (Fork.begin s text cb)
  Fork.restart rs f.queue 0 f

/-! ## What is meant -/

/-- The handles that have been active, in the order in which they are restarted. -/
def State.handles (s : State) : List ℕ := s.lists.flatMap s.attached

def State.pathOf (s : State) (text : ℕ → Path) (h : ℕ) : Option Path := (s.path h).map text

/-- Every handle is active as before, attached once, to a list that is new; the others are freed once. -/
structure Restored (s : State) (text : ℕ → Path) (cb : ℕ → ℕ) (f : Fork) : Prop where
  active : ∀ h, (s.flags h).active = true → (f.s.flags h).active = true
  cb : f.cb = cb
  path : ∀ h, (s.flags h).active = true → f.s.pathOf f.text h = s.pathOf text h
  attached : ∀ h, (s.flags h).active = true → ∃ id, s.mem id = none ∧ (f.s.attached id).count h = 1 ∧
    ∀ j, h ∈ f.s.attached j → j = id
  lists : f.s.freed.Nodup ∧ ∀ id, s.mem id ≠ none → id ∈ f.s.freed

/-- Copies have been freed once; every handle is in a list or in none, and can be stopped, closed and started. -/
structure Released (f : Fork) : Prop where
  copies : f.freed.Perm (List.range f.copies.length)
  copy : ∀ h, f.copy h = none
  queue : f.queue = []
  inv : Inv none f.s

/-- The error of restart `k`, if those before it succeed. -/
def failure (rs : ℕ → Restart) (k : ℕ) : Option StartError :=
  match (rs k).init with
  | some e => some (.sys e)
  | none =>
    match (rs k).watch with
    | .error e => some (.sys e)
    | .ok wd => if (∀ j < k, (rs j).wd ≠ wd) ∧ (rs k).mem = false then some .nomem else none

/-- Restart `k` is the first that fails. -/
def FirstFailure (rs : ℕ → Restart) (k : ℕ) (e : StartError) : Prop := failure rs k = some e ∧ ∀ j < k, failure rs j = none

/-- What `uv__inotify_fork` is meant to do. -/
def ForkRight (rs : ℕ → Restart) (s : State) (text : ℕ → Path) (cb : ℕ → ℕ) : Prop :=
  match uvInotifyFork rs s text cb with
  | none => False
  | some (f, none) => Restored s text cb f
  | some (f, some e) => Released f ∧ ∃ k < s.handles.length, FirstFailure rs k e

def SamePaths (rs : ℕ → Restart) (s : State) (text : ℕ → Path) : Prop :=
  ∀ j k, j < k → ∀ h i, s.handles[j]? = some h → s.handles[k]? = some i → (rs j).wd = (rs k).wd →
    s.pathOf text h = s.pathOf text i

/-- All restarts succeed, and handles of one descriptor have one path; or the last restart is the first to fail. -/
def ForkFits (rs : ℕ → Restart) (s : State) (text : ℕ → Path) : Prop :=
  (∀ k < s.handles.length, failure rs k = none) ∧ SamePaths rs s text ∨
    ∃ k e, k + 1 = s.handles.length ∧ FirstFailure rs k e

/-! ## The handles are stopped -/

section
variable {s t : State} {f f' : Fork} {text : ℕ → Path} {cb : ℕ → ℕ} {h id : ℕ} {w : WatcherList}

/-- What has been stopped so far is in the queue on the stack, with a copy of its path. -/
structure Stopped (s : State) (text : ℕ → Path) (cb : ℕ → ℕ) (f : Fork) : Prop where
  good : Good f.s
  active : ∀ h, (f.s.flags h).active = true ↔ (s.flags h).active = true ∧ h ∉ f.queue
  fresh : f.s.fresh = s.fresh
  text_eq : f.text = text
  cb_eq : f.cb = cb
  freed : f.freed = []
  nodup : f.queue.Nodup
  copies : f.copies = f.queue.map fun h => (s.pathOf text h).getD []
  copy : ∀ h, f.copy h = if h ∈ f.queue then some (f.queue.idxOf h) else none

theorem stop_walked (hact : (s.flags h).active = true) (htree : s.tree (s.wd h) = some id) (hw : s.mem id = some w)
    (hit : w.iterating = true) : ∃ t, s.stop h = some t ∧ t.fresh = s.fresh ∧ t.pc = s.pc ∧ t.queue = s.queue.erase h ∧
      (∀ j, t.mem j = (s.mem j).map fun w => { w with watchers := w.watchers.erase h }) ∧
      ∀ i, (t.flags i).active = true ↔ (s.flags i).active = true ∧ i ≠ h := by
  refine ⟨State.unlink { s with
      stopped := if h ∈ s.called then s.stopped else s.stopped ++ [h]
      wd := update s.wd h (-1)
      path := update s.path h none
      flags := update s.flags h (handleStop (s.flags h) s.activeHandles).1
      activeHandles := (handleStop (s.flags h) s.activeHandles).2 } h, ?_, rfl, rfl, rfl, fun j => rfl, fun i => ?_⟩
  · rw [State.stop, if_neg (by rw [hact]; exact Bool.noConfusion)]
    simp [State.findWatcher, htree, State.maybeFree, State.unlink, hw, hit]
  · by_cases hi : i = h
    · subst hi
      simp [State.unlink, handleStop, hact]
    · simp [State.unlink, hi]

theorem next_frame (hq : s.queue = []) (hn : s.next id = some t) :
    t.fresh = s.fresh ∧ t.flags = s.flags ∧ ∀ j ≠ id, t.mem j = s.mem j := by
  obtain ⟨w, hw, hn⟩ := bind_eq_some_iff.mp hn
  rw [hq] at hn
  obtain ⟨w', hw', hn⟩ := bind_eq_some_iff.mp hn
  split_ifs at hn
  · cases some.inj hn
    exact ⟨rfl, rfl, fun j hj => (update_of_ne hj ..).trans (update_of_ne hj ..)⟩
  · cases some.inj hn
    exact ⟨rfl, rfl, fun j hj => update_of_ne hj ..⟩

/-- In the middle of list `id`, with `q` in the queue of the walk; the lists of `rest` are as they were. -/
structure Draining (s : State) (text : ℕ → Path) (cb : ℕ → ℕ) (id : ℕ) (rest q : List ℕ) (f : Fork) : Prop
    extends Stopped s text cb f where
  pc : f.s.pc = .walking id
  list : ∃ wd, f.s.mem id = some ⟨[], true, wd⟩
  queue : f.s.queue = q
  others : ∀ j ∈ rest, f.s.mem j = s.mem j
  path : ∀ h ∈ q, s.pathOf text h = some (text id)

structure Between (s : State) (text : ℕ → Path) (cb : ℕ → ℕ) (rest : List ℕ) (f : Fork) : Prop
    extends Stopped s text cb f where
  pc : f.s.pc = .idle
  others : ∀ j ∈ rest, f.s.mem j = s.mem j

variable {rest q : List ℕ}

theorem Draining.attached (hf : Draining s text cb id rest q f) : f.s.attached id = q := by
  obtain ⟨wd, hmem⟩ := hf.list
  rw [attached_eq hmem, hf.pc, hf.queue]
  exact if_pos rfl

theorem copy_snoc {l : List ℕ} {copy : ℕ → Option ℕ} (hcopy : ∀ i, copy i = if i ∈ l then some (l.idxOf i) else none)
    (hh : h ∉ l) (i : ℕ) : update copy h (some l.length) i =
      if i ∈ l ++ [h] then some ((l ++ [h]).idxOf i) else none := by
  by_cases hi : i = h
  · subst hi
    rw [update_self, if_pos (mem_append_right _ (mem_singleton_self i)), idxOf_append_of_notMem hh,
      idxOf_cons_self, Nat.add_zero]
  · rw [update_of_ne hi, hcopy]
    by_cases hl : i ∈ l
    · rw [if_pos hl, if_pos (mem_append_left _ hl), idxOf_append_of_mem hl]
    · rw [if_neg hl, if_neg]
      intro hmem
      exact (mem_append.mp hmem).elim hl fun h' => hi (mem_singleton.mp h')

theorem Draining.step (hf : Draining s text cb id rest (h :: q) f) (hrest : id ∉ rest) :
    ∃ s' f', f.s.next id = some s' ∧ ({ f with s := s' } : Fork).stopHandle h = some f' ∧ f'.queue = f.queue ++ [h] ∧
      Draining s text cb id rest q { f' with s := { f'.s with pc := .walking id } } := by
  obtain ⟨wd, hmem⟩ := hf.list
  have hi := hf.good.1
  have hall := hf.attached
  obtain ⟨hact, htree⟩ := (hi.attached h id).1 (by rw [hall]; exact mem_cons_self)
  obtain ⟨hhq, hq⟩ := nodup_cons.1 (hall ▸ hi.nodup id)
  have hnot : h ∉ f.queue := ((hf.active h).1 hact).2
  have hlen : f.copies.length = f.queue.length := by rw [hf.copies, length_map]
  -- the node is put back into the list ..
  obtain ⟨s₁, hnext, hgood₁, -⟩ := hf.good.next hf.pc
  have hs₁ : s₁ = { f.s with
      queue := q
      mem := update f.s.mem id (some ⟨[h], true, wd⟩)
      pc := .calling id
      called := f.s.called ++ [h] } := by
    rw [State.next, hmem, hf.queue] at hnext
    exact (some.inj hnext).symm
  have hmem₁ : s₁.mem id = some ⟨[h], true, wd⟩ := by
    rw [hs₁]
    exact update_self ..
  -- .. and taken out by `uv_fs_event_stop`
  obtain ⟨t, hstop, hfresh, hpc, hqueue, hlists, hflags⟩ := stop_walked (s := s₁) (h := h) (by rw [hs₁]; exact hact)
    (by rw [hs₁]; exact htree) hmem₁ rfl
  have hgood : Good t := by
    obtain ⟨t', ht', hgood⟩ := hgood₁.step (l := .stop h) (by rw [hs₁]; rfl)
    cases hstop.symm.trans ht'
    exact hgood
  have hpath : s₁.path h = some id := by
    rw [hs₁]
    exact (hi.path h hact).trans htree
  refine ⟨s₁, { f with
      s := t
      copies := f.copies ++ [f.text id]
      copy := update f.copy h (some f.copies.length)
      queue := f.queue ++ [h] }, hnext, ?_, rfl, ⟨⟨?_, fun i => ?_, ?_, hf.text_eq, hf.cb_eq, hf.freed, ?_, ?_, fun i => ?_⟩,
      rfl, ⟨wd, ?_⟩, ?_, fun j hj => ?_, fun i hi => hf.path i (mem_cons_of_mem h hi)⟩⟩
  · rw [Fork.stopHandle]
    simp [hpath, hstop]
  · exact hgood.ret (hpc.trans (by rw [hs₁]))
  · have hflags₁ : s₁.flags = f.s.flags := by rw [hs₁]
    refine (hflags i).trans ?_
    rw [hflags₁, hf.active, mem_append, mem_singleton, not_or, and_assoc]
  · exact hfresh.trans ((congrArg State.fresh hs₁).trans hf.fresh)
  · exact nodup_append.2 ⟨hf.nodup, nodup_singleton h, fun a ha b hb hab => hnot (by
      rw [← mem_singleton.1 hb, ← hab]
      exact ha)⟩
  · rw [map_append, ← hf.copies, hf.text_eq, map_singleton, hf.path h mem_cons_self]
    rfl
  · rw [hlen]
    exact copy_snoc hf.copy hnot i
  · rw [hlists, hmem₁]
    simp
  · rw [hqueue, hs₁]
    exact erase_of_not_mem hhq
  · have hne : j ≠ id := fun e => hrest (e ▸ hj)
    have hsame : s₁.mem j = s.mem j := by
      rw [hs₁]
      exact (update_of_ne hne ..).trans (hf.others j hj)
    rw [hlists, hsame]
    cases hw : s.mem j with
    | none => rfl
    | some w =>
      have hnotin : h ∉ w.watchers := by
        intro hin
        have hattached : h ∈ f.s.attached j := by
          rw [attached_eq ((hf.others j hj).trans hw)]
          exact mem_append_left _ hin
        have := ((hi.attached h j).1 hattached).2
        rw [htree] at this
        exact hne (some.inj this).symm
      rw [map_some, erase_of_not_mem hnotin]

theorem drain_spec (hf : Draining s text cb id rest q f) (hrest : id ∉ rest) :
    ∃ f', Fork.drain id (q.length + 1) f = some f' ∧ Between s text cb rest f' ∧ f'.queue = f.queue ++ q := by
  induction q generalizing f with
  | nil =>
    obtain ⟨t, hnext, hgood, hcase⟩ := hf.good.next hf.pc
    obtain ⟨hfresh, hflags, hlists⟩ := next_frame hf.queue hnext
    have hpc : t.pc = .idle := by
      obtain ⟨-, hpc⟩ | ⟨i, q, hq, -⟩ := hcase
      · exact hpc
      · rw [hf.queue] at hq
        cases hq
    refine ⟨{ f with s := t }, ?_, ⟨⟨hgood, fun i => ?_, hfresh.trans hf.fresh, hf.text_eq, hf.cb_eq, hf.freed, hf.nodup,
      hf.copies, hf.copy⟩, hpc, fun j hj => ?_⟩, (append_nil _).symm⟩
    · rw [Fork.drain, hf.queue]
      simp [hnext]
    · rw [hflags]
      exact hf.active i
    · exact (hlists j fun e => hrest (e ▸ hj)).trans (hf.others j hj)
  | cons h q ih =>
    obtain ⟨s', f', hnext, hstop, hqueue, hf'⟩ := hf.step hrest
    obtain ⟨f'', hdrain, hbetween, hqueue'⟩ := ih hf'
    refine ⟨f'', ?_, hbetween, ?_⟩
    · rw [Fork.drain, hf.queue]
      simp only [hnext, hstop, bind_eq_bind, bind_some]
      exact hdrain
    · rw [hqueue']
      rw [hqueue, append_assoc, singleton_append]

theorem stopList_spec (hs : Inv none s) (hidle : s.pc = .idle) (hf : Between s text cb (id :: rest) f)
    (hrest : id ∉ rest) (hw : s.mem id = some w) :
    ∃ f', f.stopList id = some f' ∧ Between s text cb rest f' ∧ f'.queue = f.queue ++ s.attached id := by
  have hmem : f.s.mem id = some w := (hf.others id mem_cons_self).trans hw
  have hattached : s.attached id = w.watchers := by
    rw [attached_eq hw, hidle, if_neg nofun, append_nil]
  have htree := hf.good.1.toTable.tree_eq hmem
  obtain ⟨t, hevent, hgood, -⟩ := hf.good.event hf.pc w.wd
  have ht : t = { f.s with
      mem := update f.s.mem id (some { w with iterating := true, watchers := [] })
      queue := w.watchers
      pc := .walking id
      initial := w.watchers
      called := []
      stopped := [] } := by
    simp only [State.event, State.findWatcher, htree, hmem, bind_eq_bind, bind_some] at hevent
    exact (some.inj hevent).symm
  have hdraining : Draining s text cb id rest w.watchers { f with s := t } := by
    refine ⟨⟨hgood, fun i => ?_, ?_, hf.text_eq, hf.cb_eq, hf.freed, hf.nodup, hf.copies, hf.copy⟩, ?_, ⟨w.wd, ?_⟩, ?_,
      fun j hj => ?_, fun i hi => ?_⟩
    · rw [ht]
      exact hf.active i
    · rw [ht]
      exact hf.fresh
    · rw [ht]
    · rw [ht]
      exact update_self ..
    · rw [ht]
    · have hne : j ≠ id := fun e => hrest (e ▸ hj)
      rw [ht]
      exact (update_of_ne hne ..).trans (hf.others j (mem_cons_of_mem id hj))
    · obtain ⟨hact, htree⟩ := (hs.attached i id).1 (hattached ▸ hi)
      rw [State.pathOf, hs.path i hact, htree]
      rfl
  obtain ⟨f', hdrain, hbetween, hqueue⟩ := drain_spec hdraining hrest
  refine ⟨f', ?_, hbetween, hqueue.trans (by rw [hattached])⟩
  rw [Fork.stopList, hmem]
  simp only [bind_eq_bind, bind_some, hevent]
  rw [hdraining.queue]
  exact hdrain

theorem stopLists_spec (hs : Inv none s) (hidle : s.pc = .idle) (hf : Between s text cb rest f)
    (hrest : rest.Nodup) (hmem : ∀ id ∈ rest, ∃ w, s.mem id = some w) :
    ∃ f', rest.foldlM Fork.stopList f = some f' ∧ Between s text cb [] f' ∧ f'.queue = f.queue ++ rest.flatMap s.attached := by
  induction rest generalizing f with
  | nil => exact ⟨f, rfl, hf, (append_nil _).symm⟩
  | cons id rest ih =>
    obtain ⟨hid, hrest⟩ := nodup_cons.1 hrest
    obtain ⟨w, hw⟩ := hmem id mem_cons_self
    obtain ⟨f₁, hstop, hf₁, hqueue₁⟩ := stopList_spec hs hidle hf hid hw
    obtain ⟨f', hfold, hf', hqueue⟩ := ih hf₁ hrest fun j hj => hmem j (mem_cons_of_mem id hj)
    refine ⟨f', ?_, hf', ?_⟩
    · rw [foldlM_cons, hstop]
      exact hfold
    · rw [hqueue, hqueue₁, flatMap_cons, append_assoc]

theorem mem_lists (hs : Inv none s) : id ∈ s.lists ↔ ∃ w, s.mem id = some w := by
  rw [State.lists, mem_mergeSort, mem_filter, mem_range, isSome_iff_exists]
  exact ⟨fun h => h.2, fun h => ⟨(hs.fresh id).2 (.inl h), h⟩⟩

theorem lists_nodup (s : State) : s.lists.Nodup :=
  (mergeSort_perm _ _).nodup_iff.2 (nodup_range.filter _)

theorem mem_handles (hs : Inv none s) : h ∈ s.handles ↔ (s.flags h).active = true := by
  rw [State.handles, mem_flatMap]
  constructor
  · rintro ⟨id, -, hh⟩
    exact ((hs.attached h id).1 hh).1
  · intro hact
    obtain ⟨id, hid⟩ := hs.found h hact
    obtain ⟨w, hw, -⟩ := hs.toTable.mem_eq hid
    exact ⟨id, (mem_lists hs).2 ⟨w, hw⟩, (hs.attached h id).2 ⟨hact, hid⟩⟩

/-- **The first phase** stops all handles; then all lists are free. -/
theorem stopped_all (hs : Good s) (hidle : s.pc = .idle) (text : ℕ → Path) (cb : ℕ → ℕ) :
    ∃ f, s.lists.foldlM Fork.stopList (Fork.begin s text cb) = some f ∧ Stopped s text cb f ∧ f.s.pc = .idle ∧
      f.queue = s.handles ∧ (∀ h, (f.s.flags h).active = false) ∧ ∀ id, f.s.mem id = none := by
  have hbegin : Between s text cb s.lists (Fork.begin s text cb) := by
    refine ⟨⟨hs, fun i => ?_, rfl, rfl, rfl, rfl, nodup_nil, rfl, fun i => rfl⟩, hidle, fun j _ => rfl⟩
    exact ⟨fun h => ⟨h, not_mem_nil⟩, fun h => h.1⟩
  obtain ⟨f, hfold, hf, hqueue⟩ := stopLists_spec hs.1 hidle hbegin (lists_nodup s) fun id hid => (mem_lists hs.1).1 hid
  have hhandles : f.queue = s.handles := hqueue.trans (nil_append _)
  have hoff : ∀ h, (f.s.flags h).active = false := by
    intro h
    by_contra hact
    rw [Bool.not_eq_false, hf.active, hhandles, mem_handles hs.1] at hact
    exact hact.2 hact.1
  refine ⟨f, hfold, hf.toStopped, hf.pc, hhandles, hoff, fun id => ?_⟩
  cases hw : f.s.mem id with
  | none => rfl
  | some w =>
    have hi := hf.good.1
    obtain hne | hit := hi.used id w hw nofun
    · obtain ⟨h, hh⟩ := exists_mem_of_ne_nil _ hne
      have hact := ((hi.attached h id).1 hh).1
      rw [hoff h] at hact
      cases hact
    · rw [hi.iterating id w hw, hf.pc] at hit
      cases hit

end

/-! ## The handles are started -/

section
variable {rs : ℕ → Restart} {s t : State} {f f' : Fork} {text : ℕ → Path} {cb : ℕ → ℕ} {h id k : ℕ} {wd : ℤ}

/-- A handle that is started gets into the list of the descriptor, which is there or is allocated. -/
structure Started (h : ℕ) (wd : ℤ) (id : ℕ) (s t : State) : Prop where
  inv : Inv none t
  pc : t.pc = s.pc
  freed : t.freed = s.freed
  active : ∀ i, (t.flags i).active = true ↔ (s.flags i).active = true ∨ i = h
  wds : t.wd = Function.update s.wd h wd
  tree : t.tree = Function.update s.tree wd (some id)
  list : s.tree wd = some id ∧ t.fresh = s.fresh ∨ s.tree wd = none ∧ id = s.fresh ∧ t.fresh = s.fresh + 1

theorem attach_started {w : WatcherList} (hs : Inv (some id) s) (hw : s.mem id = some w) (hh : (s.flags h).active = false) :
    ∃ t, s.attach h id w.wd = some t ∧ Inv none t ∧ t.pc = s.pc ∧ t.freed = s.freed ∧ t.fresh = s.fresh ∧ t.tree = s.tree ∧
      t.wd = update s.wd h w.wd ∧ ∀ i, (t.flags i).active = true ↔ (s.flags i).active = true ∨ i = h := by
  obtain ⟨t, ht, hinv, hk⟩ := attach_spec hs hw hh
  have heq : t = { s with
      flags := update s.flags h (handleStart (s.flags h) s.activeHandles).1
      activeHandles := (handleStart (s.flags h) s.activeHandles).2
      mem := update s.mem id (some { w with watchers := w.watchers ++ [h] })
      path := update s.path h (some id)
      wd := update s.wd h w.wd } := by
    rw [State.attach, hw] at ht
    exact (some.inj ht).symm
  refine ⟨t, ht, hinv, hk.pc, by rw [heq], by rw [heq], by rw [heq], by rw [heq], fun i => ?_⟩
  rw [heq]
  by_cases hi : i = h
  · subst hi
    simp [handleStart, hh]
  · simp [hi]

theorem start_started (hs : Inv none s) (hh : (s.flags h).active = false) (wd : ℤ) (hwd : wd ≠ -1) (mem : Bool)
    (hmem : s.tree wd = none → mem = true) : ∃ t id, s.start h true wd mem = some t ∧ Started h wd id s t := by
  rw [State.start, if_neg (by rw [hh]; exact Bool.false_ne_true), if_neg hwd, State.findWatcher]
  cases hf : s.tree wd with
  | some id =>
    obtain ⟨w, hw, rfl⟩ := hs.toTable.mem_eq hf
    obtain ⟨t, ht, hinv, hpc, hfreed, hfresh, htree, hwd, hflags⟩ := attach_started hs.weaken hw hh
    refine ⟨t, id, ht, hinv, hpc, hfreed, hflags, hwd, ?_, .inl ⟨hf, hfresh⟩⟩
    rw [htree, ← hf, update_eq_self]
  | none =>
    rw [hmem hf]
    obtain ⟨t, ht, hinv, hpc, hfreed, hfresh, htree, hwd, hflags⟩ := attach_started (w := ⟨[], false, wd⟩) (hs.alloc hf)
      (update_self ..) hh
    exact ⟨t, s.fresh, ht, hinv, hpc, hfreed, hflags, hwd, htree, .inr ⟨hf, rfl, hfresh⟩⟩

theorem start_failed (hh : (f.s.flags h).active = false) {r : Restart} {e : StartError} (he : f.startError h r = some e) :
    f.s.start h r.init.isNone r.wd r.mem = some f.s := by
  have hoff : ¬ (f.s.flags h).active = true := by rw [hh]; exact Bool.false_ne_true
  rw [Fork.startError] at he
  rw [State.start, if_neg hoff]
  cases hinit : r.init with
  | some e => exact if_pos rfl
  | none =>
    rw [hinit] at he
    rw [if_neg Bool.noConfusion, Restart.wd]
    cases hwatch : r.watch with
    | error e => exact if_pos rfl
    | ok wd =>
      rw [hwatch] at he
      dsimp only at he ⊢
      split_ifs at he with hmem
      rw [hmem.1, if_pos hmem.2]
      exact if_neg (by omega)

theorem start_ok (hs : Inv none f.s) (hh : (f.s.flags h).active = false) {r : Restart} (he : f.startError h r = none) :
    ∃ t id, f.s.start h r.init.isNone r.wd r.mem = some t ∧ Started h r.wd id f.s t := by
  rw [Fork.startError, if_neg (by rw [hh]; exact Bool.false_ne_true)] at he
  cases hinit : r.init with
  | some e =>
    rw [hinit] at he
    cases he
  | none =>
    rw [hinit] at he
    rw [Restart.wd]
    cases hwatch : r.watch with
    | error e =>
      rw [hwatch] at he
      cases he
    | ok wd =>
      rw [hwatch] at he
      dsimp only at he ⊢
      split_ifs at he with hmem
      refine start_started hs hh wd (by omega) r.mem fun hnone => ?_
      rw [← Bool.not_eq_false]
      exact fun hmem' => hmem ⟨hnone, hmem'⟩

/-- `k` handles have been started, and none failed. -/
structure Midway (rs : ℕ → Restart) (s : State) (text : ℕ → Path) (cb : ℕ → ℕ) (k : ℕ) (f : Fork) : Prop where
  inv : Inv none f.s
  pc : f.s.pc = .idle
  cb_eq : f.cb = cb
  copies : f.copies = s.handles.map fun h => (s.pathOf text h).getD []
  copy : ∀ h, f.copy h = if h ∈ s.handles.drop k then some (s.handles.idxOf h) else none
  queue : f.queue = s.handles.drop k
  freed : f.freed = List.range k
  active : ∀ h, (f.s.flags h).active = true ↔ h ∈ s.handles.take k
  wd : ∀ j < k, ∀ h, s.handles[j]? = some h → f.s.wd h = (rs j).wd
  tree : ∀ wd, f.s.tree wd ≠ none ↔ ∃ j < k, (rs j).wd = wd
  path : ∀ wd id, f.s.tree wd = some id →
    ∃ i < k, (rs i).wd = wd ∧ ∃ h, s.handles[i]? = some h ∧ s.pathOf text h = some (f.text id)
  fresh : s.fresh ≤ f.s.fresh
  lists : ∀ wd id, f.s.tree wd = some id → s.mem id = none
  old : ∀ id, s.mem id ≠ none → id ∈ f.s.freed

/-- What is left when restart `k` fails. -/
structure Failed (s : State) (k : ℕ) (f : Fork) : Prop where
  inv : Inv none f.s
  copies : f.copies.length = s.handles.length
  copy : ∀ h, f.copy h = if h ∈ s.handles.drop (k + 1) then some (s.handles.idxOf h) else none
  queue : f.queue = s.handles.drop (k + 1)
  freed : f.freed = List.range (k + 1)

theorem Midway.startError (hf : Midway rs s text cb k f) (hh : (f.s.flags h).active = false) :
    f.startError h (rs k) = failure rs k := by
  rw [Fork.startError, failure, if_neg (by rw [hh]; exact Bool.false_ne_true)]
  cases (rs k).init with
  | some e => rfl
  | none =>
    cases (rs k).watch with
    | error e => rfl
    | ok wd =>
      have hiff : f.s.findWatcher wd = none ↔ ∀ j < k, (rs j).wd ≠ wd := by
        rw [State.findWatcher, ← not_iff_not, ← ne_eq, hf.tree]
        push Not
        rfl
      simp [hiff]

theorem handles_nodup (hs : Inv none s) : s.handles.Nodup := by
  rw [State.handles, nodup_flatMap]
  refine ⟨fun id _ => hs.nodup id, (lists_nodup s).imp fun {a b} hab => ?_⟩
  intro h ha hb
  have heq := ((hs.attached h a).1 ha).2.symm.trans ((hs.attached h b).1 hb).2
  exact hab (some.inj heq)

structure Turn (s : State) (k h : ℕ) : Prop where
  get : s.handles[k]? = some h
  drop : s.handles.drop k = h :: s.handles.drop (k + 1)
  take : s.handles.take (k + 1) = s.handles.take k ++ [h]
  before : h ∉ s.handles.take k
  after : h ∉ s.handles.drop (k + 1)
  idx : s.handles.idxOf h = k

theorem turn (hs : Inv none s) (hget : s.handles[k]? = some h) : Turn s k h := by
  obtain ⟨hlt, hget'⟩ := List.getElem?_eq_some_iff.mp hget
  have hdrop : s.handles.drop k = h :: s.handles.drop (k + 1) := by
    rw [drop_eq_getElem_cons hlt, hget']
  have hnodup := handles_nodup hs
  have hsplit : s.handles.take k ++ h :: s.handles.drop (k + 1) = s.handles := by rw [← hdrop, take_append_drop]
  rw [← hsplit, nodup_append, nodup_cons] at hnodup
  refine ⟨hget, hdrop, ?_, fun hin => hnodup.2.2 h hin h mem_cons_self rfl, hnodup.2.1.1, ?_⟩
  · rw [take_add_one, hget]
    rfl
  · rw [← hget']
    exact (handles_nodup hs).idxOf_getElem k hlt

theorem copy_taken {copy : ℕ → Option ℕ} (ht : Turn s k h)
    (hcopy : ∀ i, copy i = if i ∈ s.handles.drop k then some (s.handles.idxOf i) else none) (i : ℕ) :
    update copy h none i = if i ∈ s.handles.drop (k + 1) then some (s.handles.idxOf i) else none := by
  by_cases hi : i = h
  · subst hi
    rw [update_self, if_neg ht.after]
  · rw [update_of_ne hi, hcopy, ht.drop]
    simp [hi]

theorem Midway.inactive (hf : Midway rs s text cb k f) (ht : Turn s k h) : (f.s.flags h).active = false := by
  rw [← Bool.not_eq_true, hf.active]
  exact ht.before

theorem Midway.copied (hs : Inv none s) (hf : Midway rs s text cb k f) (ht : Turn s k h) :
    f.copy h = some k ∧ ∃ path, f.copies[k]? = some path ∧ s.pathOf text h = some path := by
  refine ⟨by rw [hf.copy, ht.drop, if_pos mem_cons_self, ht.idx], ?_⟩
  have hact := (mem_handles hs).1 (mem_of_getElem? ht.get)
  obtain ⟨id, hid⟩ := hs.found h hact
  have hpath : s.pathOf text h = some (text id) := by
    rw [State.pathOf, hs.path h hact, hid]
    rfl
  refine ⟨text id, ?_, hpath⟩
  rw [hf.copies, getElem?_map, ht.get, map_some, hpath]
  rfl

theorem Midway.round (hs : Inv none s) (hf : Midway rs s text cb k f) (ht : Turn s k h) {t : State}
    (hstart : f.s.start h (rs k).init.isNone (rs k).wd (rs k).mem = some t) : ∃ path, s.pathOf text h = some path ∧
      Fork.restart rs (h :: s.handles.drop (k + 1)) k f =
        let f' : Fork := { f with
          s := t
          text := if t.fresh = f.s.fresh then f.text else update f.text f.s.fresh path
          cb := if failure rs k = none then update f.cb h (f.cb h) else f.cb
          copy := update f.copy h none
          freed := f.freed ++ [k]
          queue := s.handles.drop (k + 1) }
        match failure rs k with
        | some e => some (f', some e)
        | none => Fork.restart rs (s.handles.drop (k + 1)) (k + 1) f' := by
  obtain ⟨hcopy, path, hpath, heq⟩ := hf.copied hs ht
  refine ⟨path, heq, ?_⟩
  have herror := hf.startError (hf.inactive ht)
  rw [Fork.restart]
  simp only [hcopy, hpath, bind_eq_bind, bind_some, Fork.start, hstart]
  rw [show Fork.startError { f with queue := s.handles.drop (k + 1), copy := update f.copy h none } h (rs k) =
    failure rs k from herror]

theorem Midway.fail (hs : Inv none s) (hf : Midway rs s text cb k f) (ht : Turn s k h) {e : StartError}
    (hfail : failure rs k = some e) :
    ∃ f', Fork.restart rs (h :: s.handles.drop (k + 1)) k f = some (f', some e) ∧ Failed s k f' := by
  have hstart : f.s.start h (rs k).init.isNone (rs k).wd (rs k).mem = some f.s :=
    start_failed (hf.inactive ht) ((hf.startError (hf.inactive ht)).trans hfail)
  obtain ⟨path, -, hround⟩ := hf.round hs ht hstart
  rw [hfail] at hround
  refine ⟨_, hround, hf.inv, ?_, copy_taken ht hf.copy, rfl, ?_⟩
  · rw [hf.copies, length_map]
  · rw [hf.freed, range_succ]

theorem Midway.step (hs : Inv none s) (hf : Midway rs s text cb k f) (ht : Turn s k h) (hok : failure rs k = none) :
    ∃ f', Fork.restart rs (h :: s.handles.drop (k + 1)) k f = Fork.restart rs (s.handles.drop (k + 1)) (k + 1) f' ∧
      Midway rs s text cb (k + 1) f' := by
  obtain ⟨t, id, hstart, hst⟩ := start_ok hf.inv (hf.inactive ht) ((hf.startError (hf.inactive ht)).trans hok)
  obtain ⟨path, hpath, hround⟩ := hf.round hs ht hstart
  rw [hok] at hround
  refine ⟨_, hround, hst.inv, hst.pc.trans hf.pc, ?_, hf.copies, copy_taken ht hf.copy, rfl, ?_, fun i => ?_,
    fun j hj i hi => ?_, fun wd => ?_, fun wd j hj => ?_, ?_, fun wd j hj => ?_, fun j hj => ?_⟩
  · change update f.cb h (f.cb h) = cb
    rw [update_eq_self, hf.cb_eq]
  · rw [hf.freed, range_succ]
  · rw [hst.active, hf.active, ht.take, mem_append, mem_singleton]
  · rw [hst.wds]
    obtain heq | hlt := Nat.eq_or_lt_of_le (Nat.le_of_lt_succ hj)
    · rw [heq, ht.get] at hi
      cases some.inj hi
      rw [update_self, heq]
    · have hne : i ≠ h := by
        rintro rfl
        refine ht.before ?_
        have htake : (s.handles.take k)[j]? = some i := by rw [getElem?_take_of_lt hlt, hi]
        exact mem_of_getElem? htake
      rw [update_of_ne hne]
      exact hf.wd j hlt i hi
  · rw [hst.tree]
    by_cases hwd : wd = (rs k).wd
    · rw [hwd, update_self]
      exact iff_of_true (some_ne_none _) ⟨k, Nat.lt_succ_self k, rfl⟩
    · rw [update_of_ne hwd, hf.tree]
      constructor
      · rintro ⟨j, hj, hjw⟩
        exact ⟨j, Nat.lt_succ_of_lt hj, hjw⟩
      · rintro ⟨j, hj, hjw⟩
        refine ⟨j, Nat.lt_of_le_of_ne (Nat.le_of_lt_succ hj) ?_, hjw⟩
        rintro rfl
        exact hwd hjw.symm
  · rw [hst.tree] at hj
    change ∃ i < k + 1, (rs i).wd = wd ∧ ∃ h, s.handles[i]? = some h ∧ s.pathOf text h =
      some ((if t.fresh = f.s.fresh then f.text else update f.text f.s.fresh path) j)
    -- the text of a list that was there is what it was
    have hkept : ∀ d, f.s.tree d = some j → ∃ i < k + 1, (rs i).wd = d ∧ ∃ h, s.handles[i]? = some h ∧ s.pathOf text h =
        some ((if t.fresh = f.s.fresh then f.text else update f.text f.s.fresh path) j) := by
      intro d hd
      obtain ⟨i, hi, hiw, h', hget, htext⟩ := hf.path d j hd
      refine ⟨i, Nat.lt_succ_of_lt hi, hiw, h', hget, htext.trans ?_⟩
      have hne : j ≠ f.s.fresh := by
        rintro rfl
        obtain ⟨w, hw, -⟩ := hf.inv.toTable.mem_eq hd
        rw [hf.inv.toTable.fresh_none.1] at hw
        cases hw
      split_ifs
      · rfl
      · rw [update_of_ne hne]
    by_cases hwd : wd = (rs k).wd
    · rw [hwd, update_self] at hj
      cases some.inj hj
      obtain ⟨htree, -⟩ | ⟨-, rfl, hfresh⟩ := hst.list
      · rw [hwd]
        exact hkept _ htree
      · refine ⟨k, Nat.lt_succ_self k, hwd.symm, h, ht.get, hpath.trans ?_⟩
        rw [if_neg (by omega), update_self]
    · rw [update_of_ne hwd] at hj
      exact hkept wd hj
  · change s.fresh ≤ t.fresh
    have hfresh := hf.fresh
    obtain ⟨-, h⟩ | ⟨-, -, h⟩ := hst.list
    · omega
    · omega
  · rw [hst.tree] at hj
    by_cases hwd : wd = (rs k).wd
    · rw [hwd, update_self] at hj
      cases some.inj hj
      obtain ⟨htree, -⟩ | ⟨-, rfl, -⟩ := hst.list
      · exact hf.lists _ _ htree
      · cases hw : s.mem f.s.fresh with
        | none => rfl
        | some w =>
          have hlt := (hs.fresh f.s.fresh).2 (.inl ⟨w, hw⟩)
          have hfresh := hf.fresh
          omega
    · rw [update_of_ne hwd] at hj
      exact hf.lists wd j hj
  · rw [hst.freed]
    exact hf.old j hj

theorem restart_spec (hs : Inv none s) {q : List ℕ} (hq : s.handles.drop k = q) (hf : Midway rs s text cb k f) :
    (∃ f', Fork.restart rs q k f = some (f', none) ∧ Midway rs s text cb (k + q.length) f' ∧
        ∀ j, k ≤ j → j < k + q.length → failure rs j = none) ∨
      ∃ j e f', Fork.restart rs q k f = some (f', some e) ∧ Failed s j f' ∧ k ≤ j ∧ j < k + q.length ∧ failure rs j = some e ∧
        ∀ i, k ≤ i → i < j → failure rs i = none := by
  induction q generalizing k f with
  | nil => exact .inl ⟨f, rfl, hf, fun j h1 h2 => absurd h2 (Nat.not_lt.mpr h1)⟩
  | cons h q ih =>
    have hget : s.handles[k]? = some h := by
      rw [← head?_drop, hq]
      rfl
    have ht := turn hs hget
    obtain rfl : s.handles.drop (k + 1) = q := (List.cons.inj (ht.drop.symm.trans hq)).2
    cases hfail : failure rs k with
    | some e =>
      obtain ⟨f', hrestart, hf'⟩ := hf.fail hs ht hfail
      refine .inr ⟨k, e, f', hrestart, hf', Nat.le_refl k, ?_, hfail, fun i h1 h2 => absurd h2 (Nat.not_lt.mpr h1)⟩
      rw [length_cons]
      omega
    | none =>
      obtain ⟨f', hrestart, hf'⟩ := hf.step hs ht hfail
      have hlen : k + 1 + (s.handles.drop (k + 1)).length = k + (h :: s.handles.drop (k + 1)).length := by
        rw [length_cons]
        omega
      have hbefore : ∀ {P : ℕ → Prop}, P k → (∀ j, k + 1 ≤ j → P j) → ∀ j, k ≤ j → P j := by
        intro P h0 h1 j hj
        obtain rfl | hlt := Nat.eq_or_lt_of_le hj
        · exact h0
        · exact h1 j hlt
      rw [hrestart, ← hlen]
      obtain ⟨f'', h1, h2, h3⟩ | ⟨j, e, f'', h1, h2, h3, h4, h5, h6⟩ := ih rfl hf'
      · exact .inl ⟨f'', h1, h2, hbefore (P := fun j => j < _ → failure rs j = none) (fun _ => hfail) h3⟩
      · exact .inr ⟨j, e, f'', h1, h2, Nat.le_of_succ_le h3, h4, h5,
          hbefore (P := fun i => i < j → failure rs i = none) (fun _ => hfail) h6⟩

theorem Stopped.midway (rs : ℕ → Restart) (hs : Inv none s) (hf : Stopped s text cb f) (hpc : f.s.pc = .idle) (hqueue : f.queue = s.handles)
    (hoff : ∀ h, (f.s.flags h).active = false) (hmem : ∀ id, f.s.mem id = none) : Midway rs s text cb 0 f := by
  have hi := hf.good.1
  have htree : ∀ wd, f.s.tree wd = none := by
    intro wd
    cases h : f.s.tree wd with
    | none => rfl
    | some id =>
      obtain ⟨w, hw, -⟩ := hi.toTable.mem_eq h
      rw [hmem] at hw
      cases hw
  refine ⟨hi, hpc, hf.cb_eq, by rw [← hqueue]; exact hf.copies, fun h => ?_, hqueue, hf.freed, fun h => ?_,
    fun j hj => absurd hj (Nat.not_lt_zero j), fun wd => ?_, fun wd id h => ?_, Nat.le_of_eq hf.fresh.symm, fun wd id h => ?_,
    fun id h => ?_⟩
  · rw [hf.copy, hqueue, drop_zero]
  · rw [hoff]
    exact iff_of_false Bool.false_ne_true not_mem_nil
  · rw [htree]
    exact iff_of_false (fun h => h rfl) fun ⟨j, hj, _⟩ => Nat.not_lt_zero j hj
  · rw [htree] at h
    cases h
  · rw [htree] at h
    cases h
  · have hlt : id < f.s.fresh := by
      rw [hf.fresh]
      exact (hs.fresh id).2 (.inl (ne_none_iff_exists'.mp h))
    obtain ⟨w, hw⟩ | hfreed := (hi.fresh id).1 hlt
    · rw [hmem] at hw
      cases hw
    · exact hfreed

theorem fork_spec (hs : Inv none s) (hidle : s.pc = .idle) (rs : ℕ → Restart) (text : ℕ → Path) (cb : ℕ → ℕ) :
    (∃ f, uvInotifyFork rs s text cb = some (f, none) ∧ Midway rs s text cb s.handles.length f ∧
        ∀ j < s.handles.length, failure rs j = none) ∨
      ∃ j e f, uvInotifyFork rs s text cb = some (f, some e) ∧ Failed s j f ∧ j < s.handles.length ∧ FirstFailure rs j e := by
  have hgood : Good s := ⟨hs, fun h => absurd (by rw [hidle]; rfl) h⟩
  obtain ⟨f, hfold, hf, hpc, hqueue, hoff, hmem⟩ := stopped_all hgood hidle text cb
  have hcall : uvInotifyFork rs s text cb = Fork.restart rs f.queue 0 f := by
    rw [uvInotifyFork, hfold]
    rfl
  rw [hcall, hqueue]
  have h := restart_spec hs (q := s.handles) drop_zero (hf.midway rs hs hpc hqueue hoff hmem)
  rw [Nat.zero_add] at h
  obtain ⟨f', h1, h2, h3⟩ | ⟨j, e, f', h1, h2, -, h4, h5, h6⟩ := h
  · exact .inl ⟨f', h1, h2, fun j => h3 j (Nat.zero_le j)⟩
  · exact .inr ⟨j, e, f', h1, h2, h4, h5, fun i => h6 i (Nat.zero_le i)⟩

theorem Midway.found (hs : Inv none s) (hf : Midway rs s text cb s.handles.length f) (hact : (s.flags h).active = true) :
    ∃ j id, s.handles[j]? = some h ∧ j < s.handles.length ∧ (f.s.flags h).active = true ∧ f.s.wd h = (rs j).wd ∧
      f.s.tree (rs j).wd = some id ∧ f.s.pathOf f.text h = some (f.text id) := by
  obtain ⟨j, hj⟩ := getElem?_of_mem ((mem_handles hs).2 hact)
  have hlt : j < s.handles.length := (List.getElem?_eq_some_iff.mp hj).1
  have hact' : (f.s.flags h).active = true := by
    rw [hf.active, take_length]
    exact mem_of_getElem? hj
  obtain ⟨id, hid⟩ := hf.inv.found h hact'
  have hwd := hf.wd j hlt h hj
  have hpath : f.s.pathOf f.text h = some (f.text id) := by
    rw [State.pathOf, hf.inv.path h hact', hid]
    rfl
  exact ⟨j, id, hj, hlt, hact', hwd, hwd ▸ hid, hpath⟩

theorem Midway.restored_iff (hs : Inv none s) (hf : Midway rs s text cb s.handles.length f) :
    Restored s text cb f ↔ SamePaths rs s text := by
  constructor
  · intro hr j k hlt h i hj hk hwd
    have hlen : k < s.handles.length := (List.getElem?_eq_some_iff.mp hk).1
    have hh := (mem_handles hs).1 (mem_of_getElem? hj)
    have hi := (mem_handles hs).1 (mem_of_getElem? hk)
    have heq : f.s.wd h = f.s.wd i := by rw [hf.wd j (by omega) h hj, hf.wd k hlen i hk, hwd]
    rw [← hr.path h hh, ← hr.path i hi, State.pathOf, State.pathOf, hf.inv.path h (hr.active h hh),
      hf.inv.path i (hr.active i hi), heq]
  · intro hsame
    refine ⟨fun h hact => ?_, hf.cb_eq, fun h hact => ?_, fun h hact => ?_, hf.inv.once, hf.old⟩
    · obtain ⟨-, -, -, -, hact', -⟩ := hf.found hs hact
      exact hact'
    · obtain ⟨j, id, hj, hlt, -, -, hid, hpath⟩ := hf.found hs hact
      obtain ⟨i, hi, hwd, h', hget, htext⟩ := hf.path _ id hid
      rw [hpath, ← htext]
      obtain hlt' | rfl | hlt' := Nat.lt_trichotomy i j
      · exact hsame i j hlt' h' h hget hj hwd
      · rw [hj] at hget
        cases hget
        rfl
      · exact (hsame j i hlt' h h' hj hget hwd.symm).symm
    · obtain ⟨j, id, hj, -, hact', hwd, hid, -⟩ := hf.found hs hact
      have hmem : h ∈ f.s.attached id := (hf.inv.attached h id).2 ⟨hact', by rw [hwd]; exact hid⟩
      refine ⟨id, hf.lists _ id hid, count_eq_one_of_mem (hf.inv.nodup id) hmem, fun i hi => ?_⟩
      have htree := ((hf.inv.attached h i).1 hi).2
      rw [hwd, hid] at htree
      exact (some.inj htree).symm

theorem Failed.released_iff (hf : Failed s k f) (hk : k < s.handles.length) : Released f ↔ k + 1 = s.handles.length := by
  constructor
  · intro hr
    have hnil := hf.queue.symm.trans hr.queue
    rw [drop_eq_nil_iff] at hnil
    omega
  · intro heq
    have hnil : s.handles.drop (k + 1) = [] := drop_eq_nil_of_le (Nat.le_of_eq heq.symm)
    refine ⟨?_, fun h => ?_, hf.queue.trans hnil, hf.inv⟩
    · rw [hf.freed, hf.copies, heq]
    · rw [hf.copy, hnil, if_neg not_mem_nil]

theorem fork_fails (hs : Inv none s) (hidle : s.pc = .idle) {e : StartError} (hk : k < s.handles.length)
    (hfirst : FirstFailure rs k e) : ForkRight rs s text cb ↔ k + 1 = s.handles.length := by
  obtain ⟨f, -, -, hok⟩ | ⟨j, e', f, hcall, hf, hj, hfirst'⟩ := fork_spec hs hidle rs text cb
  · have hnone := hok k hk
    rw [hfirst.1] at hnone
    cases hnone
  · obtain rfl : j = k := by
      obtain hlt | heq | hlt := Nat.lt_trichotomy j k
      · have hnone := hfirst.2 j hlt
        rw [hfirst'.1] at hnone
        cases hnone
      · exact heq
      · have hnone := hfirst'.2 k hlt
        rw [hfirst.1] at hnone
        cases hnone
    rw [ForkRight, hcall, ← hf.released_iff hj]
    exact ⟨fun h => h.1, fun h => ⟨h, j, hj, hfirst'⟩⟩

theorem fork_succeeds (hs : Inv none s) (hidle : s.pc = .idle) (hok : ∀ k < s.handles.length, failure rs k = none) :
    ForkRight rs s text cb ↔ SamePaths rs s text := by
  obtain ⟨f, hcall, hf, -⟩ | ⟨j, e, f, -, -, hj, hfirst⟩ := fork_spec hs hidle rs text cb
  · rw [ForkRight, hcall]
    exact hf.restored_iff hs
  · have hnone := hok j hj
    rw [hfirst.1] at hnone
    cases hnone

end

/-! ## The call -/

/-- `uv__inotify_fork` starts every handle again, with its path, or leaves nothing behind after an error, if and only if no
restart fails and handles of one descriptor have one path, or the last restart is the first that fails. -/
theorem fork_iff (s : State) (hs : Inv none s) (hidle : s.pc = .idle) (rs : ℕ → Restart) (text : ℕ → Path) (cb : ℕ → ℕ) :
    ForkRight rs s text cb ↔ ForkFits rs s text := by
  by_cases hok : ∀ k < s.handles.length, failure rs k = none
  · rw [fork_succeeds hs hidle hok]
    constructor
    · intro h
      exact .inl ⟨hok, h⟩
    · rintro (h | ⟨k, e, hk, hfirst⟩)
      · exact h.2
      · have hnone := hok k (by omega)
        rw [hfirst.1] at hnone
        cases hnone
  · obtain ⟨f, -, -, hall⟩ | ⟨k, e, f, -, -, hk, hfirst⟩ := fork_spec hs hidle rs text cb
    · exact absurd hall hok
    · rw [fork_fails hs hidle hk hfirst]
      constructor
      · intro h
        exact .inr ⟨k, e, h, hfirst⟩
      · rintro (h | ⟨j, e', hj, hfirst'⟩)
        · exact absurd h.1 hok
        · obtain hlt | heq := Nat.lt_or_eq_of_le (show k ≤ j by omega)
          · have hnone := hfirst'.2 k hlt
            rw [hfirst.1] at hnone
            cases hnone
          · omega

theorem two_lists : ∃ s, system.Reachable s ∧ s.pc = .idle ∧ (s.flags 0).active = true ∧ (s.flags 1).active = true := by
  have h0 : system.Reachable initial := LTS.Reachable.init rfl
  have hi := (good_inductive.reachable h0).1
  obtain ⟨s₁, id₁, hstart₁, hs₁⟩ := start_started (h := 0) hi rfl 1 (by decide) true fun _ => rfl
  have h1 : system.Reachable s₁ := h0.step (l := .start 0 true 1 true) ⟨rfl, hstart₁⟩
  have hoff : (s₁.flags 1).active = false := by
    rw [← Bool.not_eq_true, hs₁.active]
    decide
  obtain ⟨s₂, id₂, hstart₂, hs₂⟩ := start_started (h := 1) hs₁.inv hoff 2 (by decide) true fun _ => rfl
  have hidle : s₁.pc = .idle := hs₁.pc
  have h2 : system.Reachable s₂ := h1.step (l := .start 1 true 2 true) ⟨by rw [enabled, hidle]; rfl, hstart₂⟩
  exact ⟨s₂, h2, hs₂.pc.trans hidle, (hs₂.active 0).2 (.inl ((hs₁.active 0).2 (.inr rfl))), (hs₂.active 1).2 (.inr rfl)⟩

/-- Both get new descriptors. -/
theorem fork_iff_two : ∃ s, (s.flags 0).active = true ∧ (s.flags 1).active = true ∧
    ForkRight (fun k => ⟨none, .ok (k + 1), true⟩) s (fun id => [id.toUInt8]) (fun h => h) := by
  obtain ⟨s, hreach, hidle, h0, h1⟩ := two_lists
  refine ⟨s, h0, h1, (fork_iff s (good_inductive.reachable hreach).1 hidle _ _ _).mpr (.inl ⟨fun k _ => if_neg fun h => Bool.noConfusion h.2, ?_⟩)⟩
  intro j k hlt h i _ _ hwd
  have hwd : ((j + 1 : ℕ) : ℤ) = ((k + 1 : ℕ) : ℤ) := hwd
  omega

/-- The first watch of two cannot be added (28 is `ENOSPC`). -/
theorem fork_leaks : ¬ ∀ (s : State) (rs : ℕ → Restart) (text : ℕ → Path) (cb : ℕ → ℕ), Inv none s → s.pc = .idle →
    ForkRight rs s text cb := by
  intro hall
  obtain ⟨s, hreach, hidle, h0, h1⟩ := two_lists
  have hs := (good_inductive.reachable hreach).1
  have hin0 := (mem_handles hs).2 h0
  have hin1 := (mem_handles hs).2 h1
  have hlen : 0 < s.handles.length := length_pos_of_mem hin0
  have hright := hall s (fun _ => ⟨none, .error 28, true⟩) (fun _ => []) (fun h => h) hs hidle
  rw [fork_fails hs hidle hlen ⟨rfl, fun j hj => absurd hj (Nat.not_lt_zero j)⟩] at hright
  obtain ⟨x, hx⟩ := length_eq_one_iff.mp hright.symm
  rw [hx, mem_singleton] at hin0 hin1
  rw [← hin0] at hin1
  cases hin1

end Libuv.L2.Inotify
