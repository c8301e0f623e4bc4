import Libuv.L2Loop.Handle

/-!
# File system events (`linux-inotify.c`)

The watcher lists of a loop, the tree that finds one by its watch descriptor, and the walk
`uv__inotify_read` makes over a list with `QUEUE_MOVE` while the callbacks change it. A
watcher list is known by the number of its allocation; `mem` is what is allocated, and
an access to a list that is not there has no result, as an assertion that fails has none.
The queues of `queue.h` are lists here: a handle's node is in the queue of one watcher list or
in the queue on the stack, and `QUEUE_REMOVE` takes it out of either.

A step is one call of the API, one event of the buffer up to the loop over the queue, one
iteration of that loop up to the callback, or the callback's return. `freed` is the history of
`uv__free`. `initial`, `called` and `stopped` are what an observer of the walk writes down: the
handles attached when the event was taken up, the callbacks since, and the handles stopped
before they were called.

* `Inv`: what ties the tree, the lists, the queue on the stack and the handles together.
* `Inv.start`, `Inv.stop`, `Inv.event`, `Inv.next`: the operations succeed and keep it.
-/
namespace Libuv.L2.Inotify

open List Option Function
open Handle (Flags handleInit handleStart handleStop)

/-- mirrors unix/linux-inotify.c:36-42 -/
structure WatcherList where
  watchers : List ℕ
  iterating : Bool
  wd : ℤ
  deriving DecidableEq

/-- Where `uv__inotify_read` is: not at an event, about to test its queue, in a callback. -/
inductive Pc
  | idle
  | walking (w : ℕ)
  | calling (w : ℕ)
  deriving DecidableEq

def Pc.walked : Pc → Option ℕ
  | idle => none
  | walking w => some w
  | calling w => some w

def Pc.isWalking : Pc → Bool
  | walking _ => true
  | _ => false

/-- `path` is the watcher list whose text `handle->path` points to. -/
structure State where
  mem : ℕ → Option WatcherList
  fresh : ℕ
  freed : List ℕ
  tree : ℤ → Option ℕ
  flags : ℕ → Flags
  activeHandles : ℕ
  wd : ℕ → ℤ
  path : ℕ → Option ℕ
  pc : Pc
  queue : List ℕ
  initial : List ℕ
  called : List ℕ
  stopped : List ℕ

namespace State
variable (s : State)

/-- mirrors unix/linux-inotify.c:151-155 -/
def findWatcher (wd : ℤ) : Option ℕ := s.tree wd

/-- `RB_REMOVE` is given a node of the tree.
mirrors unix/linux-inotify.c:157-165 -/
def maybeFree (id : ℕ) : Option State := do
  let w ← s.mem id
  if w.iterating = false ∧ w.watchers = [] then
    if s.tree w.wd = some id then
      some { s with
        tree := Function.update s.tree w.wd none
        mem := Function.update s.mem id none
        freed := s.freed ++ [id] }
    else none
  else some s

/-- `no_insert` of `uv_fs_event_start`.
mirrors unix/linux-inotify.c:294-301 -/
def attach (h id : ℕ) (wd : ℤ) : Option State := do
  let w ← s.mem id
  let (f, n) := handleStart (s.flags h) s.activeHandles
  some { s with
    flags := Function.update s.flags h f
    activeHandles := n
    mem := Function.update s.mem id (some { w with watchers := w.watchers ++ [h] })
    path := Function.update s.path h (some id)
    wd := Function.update s.wd h wd }

/-- `uv_fs_event_start`; `init` is whether `init_inotify` succeeds, `wd` what
`inotify_add_watch` returns, `mem` whether `uv__malloc` succeeds.
mirrors unix/linux-inotify.c:249-302 -/
def start (h : ℕ) (init : Bool) (wd : ℤ) (mem : Bool) : Option State :=
  if (s.flags h).active then some s
  else if init = false then some s
  else if wd = -1 then some s
  else
    match s.findWatcher wd with
    | some id => s.attach h id wd
    | none =>
      if mem = false then some s
      else
        let id := s.fresh
        let s : State := { s with
          mem := Function.update s.mem id (some ⟨[], false, wd⟩)
          tree := Function.update s.tree wd (some id)
          fresh := id + 1 }
        s.attach h id wd

/-- `QUEUE_REMOVE(&handle->watchers)` -/
def unlink (h : ℕ) : State :=
  { s with
    mem := fun id => (s.mem id).map fun w => { w with watchers := w.watchers.erase h }
    queue := s.queue.erase h }

/-- `uv_fs_event_stop`, with what the observer of a walk writes down.
mirrors unix/linux-inotify.c:305-322 -/
def stop (h : ℕ) : Option State :=
  let s : State := { s with stopped := if h ∈ s.called then s.stopped else s.stopped ++ [h] }
  if (s.flags h).active = false then some s
  else
    match s.findWatcher (s.wd h) with
    | none => none
    | some id =>
      let (f, n) := handleStop (s.flags h) s.activeHandles
      let s : State := { s with
        wd := Function.update s.wd h (-1)
        path := Function.update s.path h none
        flags := Function.update s.flags h f
        activeHandles := n }
      (s.unlink h).maybeFree id

/-- `uv_close` up to `uv__make_close_pending`.
mirrors unix/linux-inotify.c:325-327 -/
def close (h : ℕ) : Option State :=
  State.stop { s with flags := Function.update s.flags h { s.flags h with closing := true } } h

/-- An event, up to the loop over the queue.
mirrors unix/linux-inotify.c:203-225 -/
def event (wd : ℤ) : Option State :=
  match s.findWatcher wd with
  | none => some s
  | some id => do
    let w ← s.mem id
    some { s with
      mem := Function.update s.mem id (some { w with iterating := true, watchers := [] })
      queue := w.watchers
      pc := .walking id
      initial := w.watchers
      called := []
      stopped := [] }

/-- An iteration of the loop over the queue, up to the callback, or what follows the loop.
mirrors unix/linux-inotify.c:226-237 -/
def next (id : ℕ) : Option State := do
  let w ← s.mem id
  match s.queue with
  | [] =>
    let s : State := { s with
      mem := Function.update s.mem id (some { w with iterating := false })
      pc := .idle }
    s.maybeFree id
  | h :: q =>
    some { s with
      queue := q
      mem := Function.update s.mem id (some { w with watchers := w.watchers ++ [h] })
      pc := .calling id
      called := s.called ++ [h] }

/-- The handles whose nodes are in the queue of a list or in the queue taken from it. -/
def attached (id : ℕ) : List ℕ :=
  (s.mem id).elim [] WatcherList.watchers ++ if s.pc.walked = some id then s.queue else []

end State

inductive Label
  | start (h : ℕ) (init : Bool) (wd : ℤ) (mem : Bool)
  | stop (h : ℕ)
  | close (h : ℕ)
  | event (wd : ℤ)
  | next
  | ret
  deriving DecidableEq

/-- What the program may do next; the API is called between events and from callbacks. -/
def enabled (s : State) : Label → Bool
  | .start .. => !s.pc.isWalking
  | .stop _ => !s.pc.isWalking
  | .close h => !s.pc.isWalking && !(s.flags h).isClosing
  | .event _ => s.pc = .idle
  | .next => s.pc.isWalking
  | .ret => !s.pc.isWalking && s.pc ≠ .idle

def step (s : State) : Label → Option State
  | .start h init wd mem => s.start h init wd mem
  | .stop h => s.stop h
  | .close h => s.close h
  | .event wd => s.event wd
  | .next =>
    match s.pc with
    | .walking w => s.next w
    | _ => none
  | .ret =>
    match s.pc with
    | .calling w => some { s with pc := .walking w }
    | _ => none

def initial : State :=
  ⟨fun _ => none, 0, [], fun _ => none, fun _ => handleInit, 0, fun _ => -1, fun _ => none, .idle, [], [], [], []⟩

def system : LTS State Label where
  init s := s = initial
  step s l t := enabled s l ∧ step s l = some t

/-! ## The lists, the tree and the handles -/

/-- The tree, the allocations and `iterating`; the queues do not matter. -/
structure Table (s : State) : Prop where
  tree : ∀ wd id, s.tree wd = some id ↔ ∃ w, s.mem id = some w ∧ w.wd = wd
  fresh : ∀ id, id < s.fresh ↔ (∃ w, s.mem id = some w) ∨ id ∈ s.freed
  freed : ∀ id ∈ s.freed, s.mem id = none
  once : s.freed.Nodup
  iterating : ∀ id w, s.mem id = some w → (w.iterating = true ↔ s.pc.walked = some id)
  walked : ∀ id, s.pc.walked = some id → ∃ w, s.mem id = some w

/-- What holds between the operations; of the list `e` it need not hold that it is in use. -/
structure Inv (e : Option ℕ) (s : State) : Prop extends Table s where
  used : ∀ id w, s.mem id = some w → some id ≠ e → s.attached id ≠ [] ∨ w.iterating = true
  attached : ∀ h id, h ∈ s.attached id ↔ (s.flags h).active = true ∧ s.tree (s.wd h) = some id
  found : ∀ h, (s.flags h).active = true → ∃ id, s.tree (s.wd h) = some id
  nodup : ∀ id, (s.attached id).Nodup
  queue : s.pc.walked = none → s.queue = []
  path : ∀ h, (s.flags h).active = true → s.path h = s.tree (s.wd h)
  detached : ∀ h, (s.flags h).active = false → s.path h = none

structure SameWalk (s t : State) : Prop where
  pc : t.pc = s.pc
  queue : t.queue = s.queue
  initial : t.initial = s.initial
  called : t.called = s.called
  stopped : t.stopped = s.stopped

variable {s t : State} {e : Option ℕ} {h id : ℕ} {w : WatcherList}

theorem attached_eq (hw : s.mem id = some w) :
    s.attached id = w.watchers ++ if s.pc.walked = some id then s.queue else [] := by
  simp [State.attached, hw]

theorem Table.mem_eq (hs : Table s) {wd : ℤ} (ht : s.tree wd = some id) : ∃ w, s.mem id = some w ∧ w.wd = wd :=
  (hs.tree wd id).1 ht

theorem Table.tree_eq (hs : Table s) (hw : s.mem id = some w) : s.tree w.wd = some id :=
  (hs.tree _ _).2 ⟨w, hw, rfl⟩

theorem Table.congr (hs : Table s) (hm : ∀ j, (t.mem j).map (fun w => (w.wd, w.iterating)) = (s.mem j).map (fun w => (w.wd, w.iterating)))
    (htree : t.tree = s.tree) (hfresh : t.fresh = s.fresh) (hfreed : t.freed = s.freed) (hpc : t.pc = s.pc) :
    Table t := by
  have hto : ∀ j v, t.mem j = some v → ∃ u, s.mem j = some u ∧ u.wd = v.wd ∧ u.iterating = v.iterating := by
    intro j v hv
    have := hm j
    rw [hv] at this
    obtain ⟨u, hu, heq⟩ := map_eq_some_iff.1 this.symm
    exact ⟨u, hu, congrArg Prod.fst heq, congrArg Prod.snd heq⟩
  have hfrom : ∀ j u, s.mem j = some u → ∃ v, t.mem j = some v ∧ v.wd = u.wd := by
    intro j u hu
    have := hm j
    rw [hu] at this
    obtain ⟨v, hv, heq⟩ := map_eq_some_iff.1 this
    exact ⟨v, hv, congrArg Prod.fst heq⟩
  refine ⟨fun wd j => ?_, fun j => ?_, fun j hj => ?_, by rw [hfreed]; exact hs.once, fun j v hv => ?_, fun j hj => ?_⟩
  · rw [htree, hs.tree]
    constructor
    · intro ⟨u, hu, hwd⟩
      obtain ⟨v, hv, hvwd⟩ := hfrom j u hu
      exact ⟨v, hv, hvwd.trans hwd⟩
    · intro ⟨v, hv, hwd⟩
      obtain ⟨u, hu, huwd, -⟩ := hto j v hv
      exact ⟨u, hu, huwd.trans hwd⟩
  · rw [hfresh, hfreed, hs.fresh]
    refine or_congr_left ⟨fun ⟨u, hu⟩ => ?_, fun ⟨v, hv⟩ => ?_⟩
    · obtain ⟨v, hv, -⟩ := hfrom j u hu
      exact ⟨v, hv⟩
    · obtain ⟨u, hu, -⟩ := hto j v hv
      exact ⟨u, hu⟩
  · have hnone := hs.freed j (hfreed ▸ hj)
    have := hm j
    rw [hnone] at this
    exact map_eq_none_iff.1 this
  · obtain ⟨u, hu, -, hi⟩ := hto j v hv
    rw [← hi, hpc]
    exact hs.iterating j u hu
  · obtain ⟨u, hu⟩ := hs.walked j (hpc ▸ hj)
    obtain ⟨v, hv, -⟩ := hfrom j u hu
    exact ⟨v, hv⟩

theorem maybeFree_spec (hs : Inv (some id) s) (hw : s.mem id = some w) :
    ∃ t, s.maybeFree id = some t ∧ Inv none t ∧ SameWalk s t := by
  have ha := attached_eq hw
  by_cases hc : w.iterating = false ∧ w.watchers = []
  · have hnot : s.pc.walked ≠ some id := by
      intro hp
      have := (hs.iterating id w hw).2 hp
      rw [hc.1] at this
      cases this
    rw [hc.2, if_neg hnot] at ha
    have htree := hs.tree_eq hw
    let t : State := { s with
      tree := update s.tree w.wd none
      mem := update s.mem id none
      freed := s.freed ++ [id] }
    have hatt : ∀ j, t.attached j = s.attached j := by
      intro j
      by_cases hj : j = id
      · subst hj
        rw [ha]
        simp [t, State.attached, hnot]
      · simp [t, State.attached, hj]
    have hmem : ∀ j v, t.mem j = some v ↔ j ≠ id ∧ s.mem j = some v := by
      intro j v
      by_cases hj : j = id <;> simp [t, hj]
    have htr : ∀ wd j, t.tree wd = some j ↔ j ≠ id ∧ s.tree wd = some j := by
      intro wd j
      by_cases hwd : wd = w.wd
      · subst hwd
        simp only [t, update_self, htree, some.injEq]
        constructor
        · nofun
        · rintro ⟨h1, h2⟩
          exact absurd h2.symm h1
      · simp only [t, update_of_ne hwd]
        refine ⟨fun h => ⟨?_, h⟩, fun h => h.2⟩
        rintro rfl
        obtain ⟨v, hv, rfl⟩ := hs.mem_eq h
        rw [hw] at hv
        cases hv
        exact hwd rfl
    -- no active handle stores the descriptor of a list with an empty queue
    have hkept : ∀ i, (s.flags i).active = true → t.tree (s.wd i) = s.tree (s.wd i) := by
      intro i hi
      obtain ⟨j, hj⟩ := hs.found i hi
      rw [hj, htr]
      refine ⟨?_, hj⟩
      rintro rfl
      have := (hs.attached i j).2 ⟨hi, hj⟩
      rw [ha] at this
      cases this
    refine ⟨t, by simp [State.maybeFree, hw, hc, htree, t], ?_, ⟨rfl, rfl, rfl, rfl, rfl⟩⟩
    refine ⟨⟨?_, ?_, ?_, ?_, ?_, ?_⟩, ?_, ?_, ?_, ?_, hs.queue, ?_, hs.detached⟩
    · intro wd j
      rw [htr, hs.tree]
      simp [hmem, and_assoc]
    · intro j
      show j < s.fresh ↔ (∃ v, t.mem j = some v) ∨ j ∈ s.freed ++ [id]
      rw [hs.fresh]
      simp only [hmem, exists_and_left]
      by_cases hj : j = id
      · subst hj
        simp [hw]
      · simp [hj]
    · intro j hj
      rcases mem_append.1 hj with h | h
      · by_cases hj : j = id
        · simp [t, hj]
        · simpa [t, hj] using hs.freed j h
      · rw [mem_singleton.1 h]
        simp [t]
    · refine nodup_append.2 ⟨hs.once, nodup_singleton id, ?_⟩
      intro a ha' b hb hab
      rw [hab, mem_singleton.1 hb] at ha'
      rw [hs.freed id ha'] at hw
      cases hw
    · intro j v hv
      exact hs.iterating j v ((hmem j v).1 hv).2
    · intro j hj
      obtain ⟨v, hv⟩ := hs.walked j hj
      refine ⟨v, (hmem j v).2 ⟨?_, hv⟩⟩
      rintro rfl
      exact hnot hj
    · intro j v hv _
      obtain ⟨hj, hv⟩ := (hmem j v).1 hv
      rw [hatt]
      exact hs.used j v hv (by simpa using hj)
    · intro i j
      rw [hatt, hs.attached]
      refine and_congr_right fun hi => ?_
      rw [← hkept i hi]
    · intro i hi
      obtain ⟨j, hj⟩ := hs.found i hi
      exact ⟨j, (hkept i hi).trans hj⟩
    · intro j
      rw [hatt]
      exact hs.nodup j
    · intro i hi
      exact (hs.path i hi).trans (hkept i hi).symm
  · refine ⟨s, by simp [State.maybeFree, hw, hc], ?_, ⟨rfl, rfl, rfl, rfl, rfl⟩⟩
    refine { hs with used := fun j v hv _ => ?_ }
    by_cases hj : j = id
    · subst hj
      rw [hw] at hv
      cases hv
      rw [ha]
      cases hi : w.iterating with
      | true => exact .inr rfl
      | false =>
        refine .inl fun hn => hc ⟨hi, (append_eq_nil_iff.1 hn).1⟩
    · exact hs.used j v hv (by simpa using hj)

theorem attach_spec (hs : Inv (some id) s) (hw : s.mem id = some w) (hh : (s.flags h).active = false) :
    ∃ t, s.attach h id w.wd = some t ∧ Inv none t ∧ SameWalk s t := by
  have hact : (handleStart (s.flags h) s.activeHandles).1.active = true := by simp [handleStart, hh]
  let t : State := { s with
    flags := update s.flags h (handleStart (s.flags h) s.activeHandles).1
    activeHandles := (handleStart (s.flags h) s.activeHandles).2
    mem := update s.mem id (some { w with watchers := w.watchers ++ [h] })
    path := update s.path h (some id)
    wd := update s.wd h w.wd }
  have hnew : ∀ j, h ∉ s.attached j := by
    intro j hj
    rw [((hs.attached h j).1 hj).1] at hh
    cases hh
  have hself : t.attached id = w.watchers ++ h :: if s.pc.walked = some id then s.queue else [] := by
    simp [t, State.attached]
  have hne : ∀ j, j ≠ id → t.attached j = s.attached j := by
    intro j hj
    simp [t, State.attached, hj]
  have hperm : (t.attached id).Perm (h :: s.attached id) := by
    rw [hself, attached_eq hw]
    exact perm_middle
  have htable : Table t := by
    refine hs.toTable.congr (fun j => ?_) rfl rfl rfl rfl
    by_cases hj : j = id
    · subst hj
      simp [t, hw]
    · simp [t, hj]
  refine ⟨t, by simp [State.attach, hw, t], ?_, ⟨rfl, rfl, rfl, rfl, rfl⟩⟩
  refine ⟨htable, ?_, ?_, ?_, ?_, hs.queue, ?_, ?_⟩
  · intro j v hv _
    by_cases hj : j = id
    · subst hj
      left
      rw [hself]
      simp
    · rw [hne j hj]
      exact hs.used j v (by simpa [t, hj] using hv) (by simpa using hj)
  · intro i j
    by_cases hi : i = h
    · subst hi
      simp only [t, update_self, hact, true_and, hs.tree_eq hw, some.injEq]
      by_cases hj : j = id
      · subst hj
        exact iff_of_true (hperm.mem_iff.2 mem_cons_self) rfl
      · rw [show State.attached _ j = s.attached j from hne j hj]
        simp only [hnew, false_iff]
        exact fun e => hj e.symm
    · have : i ∈ t.attached j ↔ i ∈ s.attached j := by
        by_cases hj : j = id
        · subst hj
          simp [hperm.mem_iff, hi]
        · rw [hne j hj]
      rw [this, hs.attached]
      simp [t, hi]
  · intro i hi
    by_cases h' : i = h
    · subst h'
      exact ⟨id, by simpa [t] using hs.tree_eq hw⟩
    · simpa [t, h'] using hs.found i (by simpa [t, h'] using hi)
  · intro j
    by_cases hj : j = id
    · subst hj
      exact hperm.nodup_iff.2 (nodup_cons.2 ⟨hnew j, hs.nodup j⟩)
    · rw [hne j hj]
      exact hs.nodup j
  · intro i hi
    by_cases h' : i = h
    · subst h'
      simp [t, hs.tree_eq hw]
    · simpa [t, h'] using hs.path i (by simpa [t, h'] using hi)
  · intro i hi
    by_cases h' : i = h
    · subst h'
      simp [t] at hi
    · simpa [t, h'] using hs.detached i (by simpa [t, h'] using hi)

theorem SameWalk.rfl' : SameWalk s s := ⟨rfl, rfl, rfl, rfl, rfl⟩

theorem Inv.weaken (hs : Inv none s) : Inv e s := { hs with used := fun j v hv _ => hs.used j v hv nofun }

theorem Table.fresh_none (hs : Table s) : s.mem s.fresh = none ∧ s.fresh ∉ s.freed := by
  have hn := mt (hs.fresh s.fresh).2 (Nat.lt_irrefl _)
  refine ⟨?_, fun h => hn (.inr h)⟩
  cases hm : s.mem s.fresh with
  | none => rfl
  | some w => exact absurd (.inl ⟨w, hm⟩) hn

theorem Inv.alloc (hs : Inv none s) {wd : ℤ} (hwd : s.tree wd = none) :
    Inv (some s.fresh) { s with
      mem := update s.mem s.fresh (some ⟨[], false, wd⟩)
      tree := update s.tree wd (some s.fresh)
      fresh := s.fresh + 1 } := by
  obtain ⟨hnone, hnew⟩ := hs.toTable.fresh_none
  have hpc : s.pc.walked ≠ some s.fresh := by
    intro h
    obtain ⟨w, hw⟩ := hs.walked _ h
    rw [hnone] at hw
    cases hw
  have htree : ∀ wd j, s.tree wd = some j → j ≠ s.fresh := by
    intro wd j h e
    obtain ⟨w, hw, -⟩ := hs.toTable.mem_eq h
    rw [e, hnone] at hw
    cases hw
  let t : State := { s with
    mem := update s.mem s.fresh (some ⟨[], false, wd⟩)
    tree := update s.tree wd (some s.fresh)
    fresh := s.fresh + 1 }
  show Inv (some s.fresh) t
  have hatt : ∀ j, t.attached j = s.attached j := by
    intro j
    by_cases hj : j = s.fresh
    · subst hj
      simp [t, State.attached, hnone, hpc]
    · simp [t, State.attached, hj]
  have hkept : ∀ i, (s.flags i).active = true → t.tree (s.wd i) = s.tree (s.wd i) := by
    intro i hi
    obtain ⟨j, hj⟩ := hs.found i hi
    have : s.wd i ≠ wd := by
      intro e
      rw [e, hwd] at hj
      cases hj
    simp [t, this]
  refine ⟨⟨fun d j => ?_, fun j => ?_, fun j hj => ?_, hs.once, fun j v hv => ?_, fun j hj => ?_⟩, fun j v hv hne => ?_,
    fun i j => ?_, fun i hi => ?_, fun j => ?_, hs.queue, fun i hi => ?_, hs.detached⟩
  · by_cases hj : j = s.fresh
    · subst hj
      by_cases hd : d = wd
      · simp [t, hd]
      · simp only [t, update_of_ne hd, update_self, some.injEq, exists_eq_left']
        exact iff_of_false (fun h => htree d _ h rfl) fun h => hd h.symm
    · simp only [t, update_of_ne hj, ← hs.tree]
      by_cases hd : d = wd
      · subst hd
        simp [hwd, Ne.symm hj]
      · simp [hd]
  · show j < s.fresh + 1 ↔ (∃ v, t.mem j = some v) ∨ j ∈ s.freed
    by_cases hj : j = s.fresh
    · simp [t, hj]
    · simp only [t, update_of_ne hj, ← hs.fresh]
      omega
  · have : j ≠ s.fresh := fun e => hnew (e ▸ hj)
    simpa [t, this] using hs.freed j hj
  · by_cases hj : j = s.fresh
    · subst hj
      simp only [t, update_self, some.injEq] at hv
      subst hv
      exact iff_of_false nofun hpc
    · exact hs.iterating j v (by simpa [t, hj] using hv)
  · obtain ⟨v, hv⟩ := hs.walked j hj
    have : j ≠ s.fresh := fun e => hpc (e ▸ hj)
    exact ⟨v, by simpa [t, this] using hv⟩
  · rw [hatt]
    have hj : j ≠ s.fresh := fun e => hne (congrArg some e)
    exact hs.used j v (by simpa [t, hj] using hv) nofun
  · rw [hatt, hs.attached]
    refine and_congr_right fun hi => ?_
    rw [← hkept i hi]
  · rw [show t.tree (t.wd i) = s.tree (s.wd i) from hkept i hi]
    exact hs.found i hi
  · rw [hatt]
    exact hs.nodup j
  · exact (hs.path i hi).trans (hkept i hi).symm

theorem Inv.start (hs : Inv none s) (h : ℕ) (init : Bool) (wd : ℤ) (mem : Bool) :
    ∃ t, s.start h init wd mem = some t ∧ Inv none t ∧ SameWalk s t := by
  have hsame : ∃ t, some s = some t ∧ Inv none t ∧ SameWalk s t := ⟨s, rfl, hs, .rfl'⟩
  unfold State.start
  by_cases hh : (s.flags h).active = true
  · rwa [if_pos hh]
  rw [if_neg hh]
  simp only [Bool.not_eq_true] at hh
  by_cases hi : init = false
  · rwa [if_pos hi]
  rw [if_neg hi]
  by_cases hwd : wd = -1
  · rwa [if_pos hwd]
  rw [if_neg hwd]
  cases hf : s.findWatcher wd with
  | some id =>
    obtain ⟨w, hw, rfl⟩ := hs.toTable.mem_eq hf
    exact attach_spec hs.weaken hw hh
  | none =>
    by_cases hm : mem = false
    · rwa [if_pos hm]
    rw [if_neg hm]
    obtain ⟨t, ht, hi, hw⟩ := attach_spec (hs.alloc hf) (update_self ..) hh
    exact ⟨t, ht, hi, ⟨hw.pc, hw.queue, hw.initial, hw.called, hw.stopped⟩⟩

theorem erase_append {a b : List ℕ} (hd : (a ++ b).Nodup) : (a ++ b).erase h = a.erase h ++ b.erase h := by
  rw [List.erase_append]
  have hd := nodup_append.1 hd
  by_cases ha : h ∈ a
  · have hb : h ∉ b := fun hb => hd.2.2 h ha h hb rfl
    rw [if_pos ha, erase_of_not_mem hb]
  · rw [if_neg ha, erase_of_not_mem ha]

theorem Inv.detach (hs : Inv none s) (hh : (s.flags h).active = true) (ht : s.tree (s.wd h) = some id) :
    Inv (some id) (State.unlink { s with
      wd := update s.wd h (-1)
      path := update s.path h none
      flags := update s.flags h (handleStop (s.flags h) s.activeHandles).1
      activeHandles := (handleStop (s.flags h) s.activeHandles).2 } h) := by
  let t : State := State.unlink { s with
    wd := update s.wd h (-1)
    path := update s.path h none
    flags := update s.flags h (handleStop (s.flags h) s.activeHandles).1
    activeHandles := (handleStop (s.flags h) s.activeHandles).2 } h
  show Inv (some id) t
  have hatt : ∀ j, t.attached j = (s.attached j).erase h := by
    intro j
    have hd := hs.nodup j
    unfold State.attached at hd ⊢
    rw [erase_append hd]
    congr 1
    · show ((s.mem j).map fun w => { w with watchers := w.watchers.erase h }).elim [] WatcherList.watchers =
        ((s.mem j).elim [] WatcherList.watchers).erase h
      cases s.mem j with
      | none | some w => rfl
    · show (if s.pc.walked = some j then s.queue.erase h else []) = _
      split
      · rfl
      · rfl
  have hmem : ∀ i j, i ∈ t.attached j ↔ i ≠ h ∧ i ∈ s.attached j := by
    intro i j
    rw [hatt, (hs.nodup j).mem_erase_iff]
  have hself : (t.flags h).active = false := by simp [t, State.unlink, handleStop, hh]
  have hne : ∀ i, i ≠ h → t.flags i = s.flags i ∧ t.wd i = s.wd i ∧ t.path i = s.path i := by
    intro i hi
    simp [t, State.unlink, hi]
  have hoff : ∀ i, (t.flags i).active = true → i ≠ h := by
    intro i hi e
    rw [e, hself] at hi
    cases hi
  refine ⟨hs.toTable.congr (fun j => ?_) rfl rfl rfl rfl, fun j v hv hj => ?_, fun i j => ?_, fun i hi => ?_, fun j => ?_,
    fun hpc => ?_, fun i hi => ?_, fun i hi => ?_⟩
  · simp [t, State.unlink, comp_def]
  · obtain ⟨u, hu, rfl⟩ := map_eq_some_iff.1 hv
    have hnot : h ∉ s.attached j := by
      intro hmem
      have := ((hs.attached h j).1 hmem).2
      rw [ht] at this
      exact hj this.symm
    rw [hatt, erase_of_not_mem hnot]
    exact hs.used j u hu nofun
  · rw [hmem, hs.attached]
    by_cases hi : i = h
    · subst hi
      simp [hself]
    · obtain ⟨h1, h2, -⟩ := hne i hi
      rw [h1, h2]
      exact and_iff_right hi
  · obtain ⟨h1, h2, -⟩ := hne i (hoff i hi)
    rw [h1] at hi
    rw [h2]
    exact hs.found i hi
  · rw [hatt]
    exact (hs.nodup j).erase h
  · simp [t, State.unlink, hs.queue hpc]
  · obtain ⟨h1, h2, h3⟩ := hne i (hoff i hi)
    rw [h1] at hi
    rw [h2, h3]
    exact hs.path i hi
  · by_cases h' : i = h
    · subst h'
      simp [t, State.unlink]
    · obtain ⟨h1, -, h3⟩ := hne i h'
      rw [h1] at hi
      rw [h3]
      exact hs.detached i hi

theorem Inv.note (hs : Inv e s) {f : ℕ → Flags} (hf : ∀ i, (f i).active = (s.flags i).active) (l : List ℕ) :
    Inv e { s with flags := f, stopped := l } := by
  refine ⟨hs.toTable.congr (fun _ => rfl) rfl rfl rfl rfl, hs.used, fun i j => ?_, fun i hi => ?_, hs.nodup, hs.queue,
    fun i hi => ?_, fun i hi => ?_⟩
  · show i ∈ s.attached j ↔ (f i).active = true ∧ s.tree (s.wd i) = some j
    rw [hf]
    exact hs.attached i j
  · exact hs.found i ((hf i).symm.trans hi)
  · exact hs.path i ((hf i).symm.trans hi)
  · exact hs.detached i ((hf i).symm.trans hi)

/-- The handle's turn is over, if it has not come. -/
structure Dropped (h : ℕ) (s t : State) : Prop where
  pc : t.pc = s.pc
  queue : t.queue = s.queue.erase h
  initial : t.initial = s.initial
  called : t.called = s.called
  stopped : t.stopped = if h ∈ s.called then s.stopped else s.stopped ++ [h]

theorem Inv.stop (hs : Inv none s) (h : ℕ) : ∃ t, s.stop h = some t ∧ Inv none t ∧ Dropped h s t := by
  unfold State.stop
  by_cases hh : (s.flags h).active = false
  · rw [if_pos hh]
    have hnot : h ∉ s.queue := by
      intro hq
      cases hw : s.pc.walked with
      | none =>
        rw [hs.queue hw] at hq
        cases hq
      | some id =>
        have hm : h ∈ s.attached id := by
          rw [State.attached, if_pos hw]
          exact mem_append_right _ hq
        rw [((hs.attached h id).1 hm).1] at hh
        cases hh
    exact ⟨_, rfl, hs.note (fun _ => rfl) _, rfl, (erase_of_not_mem hnot).symm, rfl, rfl, rfl⟩
  · rw [if_neg hh]
    simp only [Bool.not_eq_false] at hh
    obtain ⟨id, hid⟩ := hs.found h hh
    simp only [State.findWatcher, hid]
    have hd := (hs.note (fun _ => rfl) (if h ∈ s.called then s.stopped else s.stopped ++ [h])).detach hh hid
    obtain ⟨w, hw, -⟩ := hs.toTable.mem_eq hid
    obtain ⟨t, ht, hi, hk⟩ := maybeFree_spec (w := ⟨w.watchers.erase h, w.iterating, w.wd⟩) hd
      (by simp [State.unlink, hw])
    exact ⟨t, ht, hi, hk.pc, hk.queue, hk.initial, hk.called, hk.stopped⟩

theorem Inv.close (hs : Inv none s) (h : ℕ) : ∃ t, s.close h = some t ∧ Inv none t ∧ Dropped h s t := by
  have hc : Inv none { s with flags := update s.flags h { s.flags h with closing := true } } := by
    refine hs.note (fun i => ?_) s.stopped
    by_cases hi : i = h
    · subst hi
      simp
    · simp [hi]
  obtain ⟨t, ht, hi, hd⟩ := hc.stop h
  exact ⟨t, ht, hi, hd.pc, hd.queue, hd.initial, hd.called, hd.stopped⟩

end Libuv.L2.Inotify
