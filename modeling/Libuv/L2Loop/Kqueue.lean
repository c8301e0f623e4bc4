import Mathlib.Data.Int.Basic
import Mathlib.Data.List.Nodup
import Mathlib.Tactic.Common

/-!
# Child exits in a batch of kevents (`unix/kqueue.c`)

`uv__io_poll` walks over the events `kevent` has returned. `NOTE_EXIT` events mark a child in `loop->process_handles`,
and behind the walk `uv__wait_children` waits for the marked ones; the other events run callbacks. A callback that closes a
descriptor has `uv__platform_invalidate_fd` put -1 over the `ident` of the events of that descriptor. `ident` is a
descriptor for most events and a process id for `EVFILT_PROC`.

A callback is any list of what callbacks do here (`Act`): descriptors are closed, watchers are changed, children are
spawned, and process handles are closed. The kernel gives a child a process id that no child has which has not been waited
for (`pids`). Disarming an event that nobody watches succeeds; of the counters, `nevents` is kept. `gone` is what an observer
writes down: the descriptors that were closed during the walk.

* `Reaps`: a child is marked, stays marked, and is waited for. `exit_reaped`: where its number has not been closed.
* `exit_lost`: descriptor 7 is closed while child 7's event is waiting.
-/
namespace Libuv.L2.Kqueue

open List

inductive Filter
  | read
  | write
  | oobBand
  | vnode
  | proc
  deriving DecidableEq

/-- `struct kevent`; `eof` and `error` are flags. -/
structure Event where
  ident : ℤ
  filter : Filter
  eof : Bool := false
  error : Bool := false
  deriving DecidableEq

/-- `pevents` of a watcher, and whether it is `loop->signal_io_watcher`. -/
structure Watcher where
  pollin : Bool
  pollout : Bool := false
  pollpri : Bool := false
  pollrdhup : Bool := false
  signal : Bool := false
  deriving DecidableEq

/-- `uv_process_t`: its `pid` and `UV_HANDLE_REAP`. -/
structure Child where
  pid : ℕ
  reap : Bool
  deriving DecidableEq

structure Loop where
  events : List Event
  children : List Child
  watchers : ℕ → Option Watcher
  reapChildren : Bool
  haveSignals : Bool
  nevents : ℕ
  pids : List ℕ
  gone : List ℕ

/-- What a callback does: `uv__platform_invalidate_fd`, a watcher that is started or stopped, `uv_spawn` (and whether the child
has exited before `kevent` could watch it), `uv_close` of a process handle. -/
inductive Act
  | invalidate (fd : ℕ)
  | watch (fd : ℕ) (w : Option Watcher)
  | spawn (pid : ℕ) (reap : Bool)
  | close (pid : ℕ)
  deriving DecidableEq

namespace Loop
variable (s : Loop)

/-- mirrors unix/kqueue.c:444-461 -/
def invalidate (fd : ℕ) : Loop :=
  { s with
    events := s.events.map fun ev => if ev.ident = (fd : ℤ) then { ev with ident := -1 } else ev
    gone := fd :: s.gone }

/-- mirrors unix/process.c:1003-1023 -/
def spawn (pid : ℕ) (reap : Bool) : Loop :=
  { s with
    children := s.children ++ [⟨pid, reap⟩]
    reapChildren := s.reapChildren || reap
    pids := pid :: s.pids }

/-- `none` is what the kernel does not do. -/
def act : Act → Option Loop
  | .invalidate fd => some (s.invalidate fd)
  | .watch fd w => some { s with watchers := fun x => if x = fd then w else s.watchers x }
  | .spawn pid reap => if pid ∈ s.pids then none else some (s.spawn pid reap)
  | .close pid => some { s with children := s.children.filter (·.pid ≠ pid) }

def call : List Act → Loop → Option Loop
  | [], s => some s
  | a :: as, s => (s.act a).bind (call as)

/-- The walk over `loop->process_handles`. -/
def mark (pid : ℤ) : List Child → List Child
  | [] => []
  | c :: cs => if c.pid = pid then { c with reap := true } :: cs else c :: mark pid cs

/-- mirrors unix/kqueue.c:290-302 -/
def noteExit (pid : ℤ) : Loop :=
  { s with
    children := mark pid s.children
    reapChildren := s.reapChildren || s.children.any fun c => c.pid = pid
    nevents := s.nevents + 1 }

/-- Whether `revents` is not 0. mirrors unix/kqueue.c:333-377 -/
def revents (ev : Event) (w : Watcher) : Bool :=
  (ev.filter == .read && (w.pollin || (ev.eof && w.pollrdhup))) || (ev.filter == .oobBand && w.pollpri) ||
    (ev.filter == .write && w.pollout) || ev.error

/-- An iteration; `cb` is what the callback does if there is one. mirrors unix/kqueue.c:285-393 -/
def step (cb : List Act) (i : ℕ) : Option Loop :=
  match s.events[i]? with
  | none => none
  | some ev =>
    if ev.filter = .proc then some (s.noteExit ev.ident)
    else if ev.ident = -1 then some s
    else
      match s.watchers ev.ident.toNat with
      | none => some s
      | some w =>
        if ev.filter = .vnode then (call cb s).map fun s => { s with nevents := s.nevents + 1 }
        else if revents ev w = false then some s
        else if w.signal then some { s with haveSignals := true, nevents := s.nevents + 1 }
        else (call cb s).map fun s => { s with nevents := s.nevents + 1 }

/-- The first `k` iterations; `cb i` is the callback of event `i`. -/
def walk (cb : ℕ → List Act) : ℕ → Option Loop
  | 0 => some s
  | i + 1 => (walk cb i).bind fun s => s.step (cb i) i

/-- The handles `uv__wait_children` finds marked behind the walk, if it is called.
mirrors unix/kqueue.c:396-399, process.c:99-107 -/
def waited : Option (List Child) := if s.reapChildren then some (s.children.filter (·.reap)) else none

end Loop

open Kqueue.Loop

/-! ## What a step keeps -/

/-- What the walk keeps if what callbacks do and the marks do. -/
structure Kept (P : Loop → Prop) : Prop where
  act : ∀ s a s', P s → s.act a = some s' → P s'
  note : ∀ s pid, P s → P (s.noteExit pid)
  count : ∀ s b n, P s → P { s with haveSignals := b, nevents := n }

section
variable {P : Loop → Prop} {s s' : Loop}

theorem Kept.call (hP : Kept P) {as : List Act} (h : P s) (hc : call as s = some s') : P s' := by
  induction as generalizing s with
  | nil =>
    cases hc
    exact h
  | cons a as ih =>
    obtain ⟨t, ht, hc⟩ := Option.bind_eq_some_iff.mp hc
    exact ih (hP.act s a t h ht) hc

theorem Kept.step (hP : Kept P) {cb : List Act} {i : ℕ} (h : P s) (hs : s.step cb i = some s') : P s' := by
  have hcall : ∀ {t}, ((Loop.call cb s).map fun s => { s with nevents := s.nevents + 1 }) = some t → P t := by
    intro t ht
    obtain ⟨u, hu, rfl⟩ := Option.map_eq_some_iff.mp ht
    exact hP.count u u.haveSignals (u.nevents + 1) (hP.call h hu)
  rw [Loop.step] at hs
  cases hev : s.events[i]? with
  | none => rw [hev] at hs; cases hs
  | some ev =>
    rw [hev] at hs
    cases hw : s.watchers ev.ident.toNat with
    | none =>
      simp only [hw] at hs
      split_ifs at hs with hproc hinv
      · cases hs
        exact hP.note s ev.ident h
      · cases hs
        exact h
      · cases hs
        exact h
    | some w =>
      simp only [hw] at hs
      split_ifs at hs with hproc hinv hvnode hre hsig
      · cases hs
        exact hP.note s ev.ident h
      · cases hs
        exact h
      · exact hcall hs
      · cases hs
        exact h
      · cases hs
        exact hP.count s true (s.nevents + 1) h
      · exact hcall hs

theorem walk_succ {cb : ℕ → List Act} {k : ℕ} (h : s.walk cb (k + 1) = some s') :
    ∃ t, s.walk cb k = some t ∧ t.step (cb k) k = some s' := Option.bind_eq_some_iff.mp h

theorem Kept.walk (hP : Kept P) {cb : ℕ → List Act} {k : ℕ} (h : P s) (hw : s.walk cb k = some s') : P s' := by
  induction k generalizing s' with
  | zero =>
    cases hw
    exact h
  | succ k ih =>
    obtain ⟨t, ht, hs⟩ := walk_succ hw
    exact hP.step (ih ht) hs

theorem Kept.walk_from (hP : Kept P) {cb : ℕ → List Act} {t : Loop} {i k : ℕ} (ht : s.walk cb i = some t)
    (h : ∀ t', t.step (cb i) i = some t' → P t') (hk : i < k) (hw : s.walk cb k = some s') : P s' := by
  induction k generalizing s' with
  | zero => omega
  | succ k ih =>
    obtain ⟨u, hu, hs⟩ := walk_succ hw
    rcases Nat.lt_succ_iff_lt_or_eq.mp hk with hlt | rfl
    · exact hP.step (ih hlt hu) hs
    · rw [ht] at hu
      cases hu
      exact h s' hs

end

/-! ## Children and their marks -/

/-- Process ids tell children apart, and one is not used again before the child has been waited for. -/
structure Sound (s : Loop) : Prop where
  nodup : (s.children.map Child.pid).Nodup
  known : ∀ c ∈ s.children, c.pid ∈ s.pids

theorem map_mark (pid : ℤ) (cs : List Child) : (mark pid cs).map Child.pid = cs.map Child.pid := by
  induction cs with
  | nil => rfl
  | cons c cs ih =>
    rw [mark]
    split_ifs
    · rfl
    · rw [map_cons, map_cons, ih]

variable {c : Child} {s s₀ : Loop} {cb : ℕ → List Act} {i : ℕ} {ev : Event}

theorem mem_mark {pid : ℤ} {cs : List Child} (h : c ∈ mark pid cs) :
    c ∈ cs ∨ c.reap = true ∧ (c.pid : ℤ) = pid ∧ ∃ c₀ ∈ cs, c₀.pid = c.pid := by
  induction cs with
  | nil => exact absurd h not_mem_nil
  | cons d cs ih =>
    rw [mark] at h
    split_ifs at h with hd
    · rcases mem_cons.mp h with rfl | hc
      · exact .inr ⟨rfl, hd, d, mem_cons_self, rfl⟩
      · exact .inl (mem_cons_of_mem d hc)
    · rcases mem_cons.mp h with rfl | hc
      · exact .inl mem_cons_self
      · rcases ih hc with hc | ⟨hr, hp, c₀, hc₀, heq⟩
        · exact .inl (mem_cons_of_mem d hc)
        · exact .inr ⟨hr, hp, c₀, mem_cons_of_mem d hc₀, heq⟩

theorem reap_of_mem_mark {pid : ℤ} {cs : List Child} (hn : (cs.map Child.pid).Nodup) (h : c ∈ mark pid cs)
    (hp : (c.pid : ℤ) = pid) : c.reap = true := by
  induction cs with
  | nil => exact absurd h not_mem_nil
  | cons d cs ih =>
    rw [map_cons, nodup_cons] at hn
    rw [mark] at h
    split_ifs at h with hd
    · rcases mem_cons.mp h with rfl | hc
      · rfl
      · have hmem : c.pid ∈ cs.map Child.pid := mem_map.mpr ⟨c, hc, rfl⟩
        rw [show c.pid = d.pid by omega] at hmem
        exact absurd hmem hn.1
    · rcases mem_cons.mp h with rfl | hc
      · exact absurd hp hd
      · exact ih hn.2 hc

theorem Sound.kept : Kept Sound where
  act := by
    intro s a s' h hs
    cases a with
    | invalidate fd | watch fd w => cases hs; exact ⟨h.nodup, h.known⟩
    | spawn pid reap =>
      rw [Loop.act] at hs
      split_ifs at hs with hpid
      cases hs
      refine ⟨?_, fun c hc => ?_⟩
      · change ((s.children ++ [(⟨pid, reap⟩ : Child)]).map Child.pid).Nodup
        rw [map_append, nodup_append]
        refine ⟨h.nodup, nodup_singleton _, fun a ha b hb => ?_⟩
        obtain ⟨c, hc, rfl⟩ := mem_map.mp ha
        rintro rfl
        rw [map_singleton, mem_singleton] at hb
        have hknown := h.known c hc
        rw [hb] at hknown
        exact hpid hknown
      · rcases mem_append.mp hc with hc | hc
        · exact mem_cons_of_mem pid (h.known c hc)
        · rw [mem_singleton.mp hc]
          exact mem_cons_self
    | close pid =>
      cases hs
      exact ⟨h.nodup.sublist (filter_sublist.map Child.pid), fun c hc => h.known c (mem_of_mem_filter hc)⟩
  note := by
    intro s pid h
    refine ⟨by rw [Loop.noteExit, map_mark]; exact h.nodup, fun c hc => ?_⟩
    rcases mem_mark hc with hc | ⟨-, -, c₀, hc₀, heq⟩
    · exact h.known c hc
    · rw [← heq]
      exact h.known c₀ hc₀
  count := fun _ _ _ h => ⟨h.nodup, h.known⟩

/-- Child `p` is marked if it is there, no other one gets its number, and `uv__wait_children` will be called. -/
structure Marked (p : ℕ) (s : Loop) : Prop where
  known : p ∈ s.pids
  reap : ∀ c ∈ s.children, c.pid = p → c.reap = true
  flag : s.reapChildren = true

theorem Marked.kept (p : ℕ) : Kept (Marked p) where
  act := by
    intro s a s' h hs
    cases a with
    | invalidate fd | watch fd w => cases hs; exact ⟨h.known, h.reap, h.flag⟩
    | spawn pid reap =>
      rw [Loop.act] at hs
      split_ifs at hs with hpid
      cases hs
      refine ⟨mem_cons_of_mem pid h.known, fun c hc hp => ?_, by rw [Loop.spawn, h.flag, Bool.true_or]⟩
      rcases mem_append.mp hc with hc | hc
      · exact h.reap c hc hp
      · rw [mem_singleton.mp hc] at hp
        subst hp
        exact absurd h.known hpid
    | close pid => cases hs; exact ⟨h.known, fun c hc => h.reap c (mem_of_mem_filter hc), h.flag⟩
  note := by
    intro s pid h
    refine ⟨h.known, fun c hc hp => ?_, by rw [Loop.noteExit, h.flag, Bool.true_or]⟩
    rcases mem_mark hc with hc | ⟨hr, -⟩
    · exact h.reap c hc hp
    · exact hr
  count := fun _ _ _ h => ⟨h.known, h.reap, h.flag⟩

theorem marked_noteExit (h : Sound s) (hc : c ∈ s.children) : Marked c.pid (s.noteExit c.pid) where
  known := h.known c hc
  reap := fun d hd hp => reap_of_mem_mark h.nodup hd (by rw [hp])
  flag := by
    rw [Loop.noteExit, any_eq_true.mpr ⟨c, hc, decide_eq_true rfl⟩, Bool.or_true]

/-! ## Events that wait -/

/-- The events are as `batch` has them, but for those of descriptors that have been closed. -/
def Current (batch : List Event) (s : Loop) : Prop :=
  ∀ (i : ℕ) (ev : Event), batch[i]? = some ev → ∃ ev' : Event, s.events[i]? = some ev' ∧ ev'.filter = ev.filter ∧
    ((∃ fd ∈ s.gone, ev.ident = (fd : ℤ)) ∧ ev'.ident = -1 ∨ (∀ fd ∈ s.gone, ev.ident ≠ (fd : ℤ)) ∧ ev'.ident = ev.ident)

theorem Current.kept (batch : List Event) : Kept (Current batch) where
  act := by
    intro s a s' h hs
    cases a with
    | invalidate fd =>
      cases hs
      intro i ev hev
      obtain ⟨ev', hev', hfilter, hor⟩ := h i ev hev
      refine ⟨if ev'.ident = (fd : ℤ) then { ev' with ident := -1 } else ev', ?_, ?_, ?_⟩
      · change (s.events.map _)[i]? = _
        rw [getElem?_map, hev', Option.map_some]
      · split_ifs <;> exact hfilter
      · rcases hor with ⟨⟨x, hx, heq⟩, hneg⟩ | ⟨hne, heq⟩
        · rw [if_neg (by omega)]
          exact .inl ⟨⟨x, mem_cons_of_mem fd hx, heq⟩, hneg⟩
        · by_cases hfd : ev'.ident = (fd : ℤ)
          · rw [if_pos hfd]
            exact .inl ⟨⟨fd, mem_cons_self, by omega⟩, rfl⟩
          · rw [if_neg hfd]
            refine .inr ⟨fun x hx => ?_, heq⟩
            rcases mem_cons.mp hx with rfl | hx
            · omega
            · exact hne x hx
    | watch fd w => cases hs; exact h
    | spawn pid reap =>
      rw [Loop.act] at hs
      split_ifs at hs
      cases hs
      exact h
    | close pid => cases hs; exact h
  note := fun _ _ h => h
  count := fun _ _ _ h => h

theorem ident_of_event (hgone : s₀.gone = [])
    (hw : s₀.walk cb i = some s) (hev : s₀.events[i]? = some ev) :
    ∃ ev' : Event, s.events[i]? = some ev' ∧ ev'.filter = ev.filter ∧
      ((∃ fd ∈ s.gone, ev.ident = (fd : ℤ)) ∧ ev'.ident = -1 ∨ (∀ fd ∈ s.gone, ev.ident ≠ (fd : ℤ)) ∧ ev'.ident = ev.ident) := by
  refine (Current.kept s₀.events).walk (fun j e he => ⟨e, he, rfl, .inr ⟨fun fd hfd => ?_, rfl⟩⟩) hw i ev hev
  rw [hgone] at hfd
  exact absurd hfd not_mem_nil

/-! ## Exits -/

/-- Child `p`, whose event is taken up in `s`, is marked, and when the walk is over `uv__wait_children` is called and finds it
marked, if its handle is still there. -/
structure Reaps (s₀ : Loop) (cb : ℕ → List Act) (i : ℕ) (s : Loop) (p : ℕ) : Prop where
  marked : ∀ s', s.step (cb i) i = some s' → ∀ c ∈ s'.children, c.pid = p → c.reap = true
  waits : ∀ s', s₀.walk cb s₀.events.length = some s' →
    ∃ cs, s'.waited = some cs ∧ ∀ c ∈ s'.children, c.pid = p → c ∈ cs

theorem step_proc {cb : List Act} (hev : s.events[i]? = some ev) (hproc : ev.filter = .proc) :
    s.step cb i = some (s.noteExit ev.ident) := by
  rw [Loop.step, hev]
  exact if_pos hproc

theorem reaps_of_open (h₀ : Sound s₀)
    (hgone : s₀.gone = []) (hw : s₀.walk cb i = some s) (hev : s₀.events[i]? = some ev) (hproc : ev.filter = .proc)
    (hc : c ∈ s.children) (hp : (c.pid : ℤ) = ev.ident) (hopen : c.pid ∉ s.gone) : Reaps s₀ cb i s c.pid := by
  have hsound : Sound s := Sound.kept.walk h₀ hw
  obtain ⟨ev', hev', hfilter, ⟨⟨fd, hfd, heq⟩, -⟩ | ⟨-, hident⟩⟩ := ident_of_event hgone hw hev
  · rw [show c.pid = fd by omega] at hopen
    exact absurd hfd hopen
  · have hstep : s.step (cb i) i = some (s.noteExit c.pid) := by
      rw [step_proc hev' (hfilter.trans hproc), hident, hp]
    have hmarked : ∀ s', s.step (cb i) i = some s' → Marked c.pid s' := by
      intro s' hs'
      rw [hstep] at hs'
      cases hs'
      exact marked_noteExit hsound hc
    refine ⟨fun s' hs' => (hmarked s' hs').reap, fun s' hs' => ?_⟩
    have hend := (Marked.kept c.pid).walk_from hw hmarked (List.getElem?_eq_some_iff.mp hev).1 hs'
    refine ⟨s'.children.filter (·.reap), by rw [Loop.waited, if_pos hend.flag], fun d hd hdp => ?_⟩
    exact mem_filter.mpr ⟨hd, hend.reap d hd hdp⟩

theorem mark_neg (cs : List Child) : mark (-1) cs = cs := by
  induction cs with
  | nil => rfl
  | cons c cs ih => rw [mark, if_neg (by omega), ih]

theorem not_reaps_of_gone
    (hgone : s₀.gone = []) (hw : s₀.walk cb i = some s) (hev : s₀.events[i]? = some ev) (hproc : ev.filter = .proc)
    (hc : c ∈ s.children) (hp : (c.pid : ℤ) = ev.ident) (hun : c.reap = false) (hclosed : c.pid ∈ s.gone) :
    ¬Reaps s₀ cb i s c.pid := by
  intro h
  obtain ⟨ev', hev', hfilter, ⟨-, hident⟩ | ⟨hno, -⟩⟩ := ident_of_event hgone hw hev
  · have hstep : s.step (cb i) i = some (s.noteExit ev'.ident) := step_proc hev' (hfilter.trans hproc)
    rw [hident] at hstep
    have hreap := h.marked _ hstep c (by rw [Loop.noteExit, mark_neg]; exact hc) rfl
    rw [hun] at hreap
    cases hreap
  · exact hno c.pid hclosed hp.symm

/-- In every batch, whatever the callbacks do: a child whose exit is taken up while its handle is there is marked and waited
for if no descriptor of its number has been closed in the batch before; and if it was not marked already, only then. -/
theorem exit_reaped {s₀ s : Loop} {cb : ℕ → List Act} {i : ℕ} {ev : Event} {c : Child} (h₀ : Sound s₀) (hgone : s₀.gone = [])
    (hw : s₀.walk cb i = some s) (hev : s₀.events[i]? = some ev) (hproc : ev.filter = .proc) (hc : c ∈ s.children)
    (hp : (c.pid : ℤ) = ev.ident) :
    (c.pid ∉ s.gone → Reaps s₀ cb i s c.pid) ∧ (c.reap = false → (Reaps s₀ cb i s c.pid ↔ c.pid ∉ s.gone)) := by
  have hopen := reaps_of_open h₀ hgone hw hev hproc hc hp
  exact ⟨hopen, fun hun => ⟨fun h hclosed => not_reaps_of_gone hgone hw hev hproc hc hp hun hclosed h, hopen⟩⟩

/-- Descriptor 5 is readable and child 7 has exited. -/
def fiveAndSeven : Loop where
  events := [⟨5, .read, false, false⟩, ⟨7, .proc, false, false⟩]
  children := [⟨7, false⟩]
  watchers := fun fd => if fd = 5 then some { pollin := true } else none
  reapChildren := false
  haveSignals := false
  nevents := 0
  pids := [7]
  gone := []

theorem fiveAndSeven_sound : Sound fiveAndSeven := ⟨by decide, by decide⟩

theorem exit_reaped_seven : Reaps fiveAndSeven (fun _ => [.invalidate 6]) 1
    ((fiveAndSeven.walk (fun _ => [.invalidate 6]) 1).getD fiveAndSeven) 7 :=
  (exit_reaped fiveAndSeven_sound rfl rfl rfl rfl (c := ⟨7, false⟩) (by decide) rfl).1 (by decide)

/-- The callback of 5 closes descriptor 7: the exit is not noticed, and `uv__wait_children` is not called. -/
theorem exit_lost :
    (∃ s, fiveAndSeven.walk (fun _ => [.invalidate 7]) 1 = some s ∧ (⟨7, false⟩ : Child) ∈ s.children ∧
      ¬Reaps fiveAndSeven (fun _ => [.invalidate 7]) 1 s 7) ∧
    ∃ s, fiveAndSeven.walk (fun _ => [.invalidate 7]) 2 = some s ∧ s.waited = none ∧ (⟨7, false⟩ : Child) ∈ s.children := by
  refine ⟨⟨_, rfl, by decide, fun h => ?_⟩, _, rfl, rfl, by decide⟩
  exact absurd (h.marked _ rfl ⟨7, false⟩ (by decide) rfl) (by decide)

end Libuv.L2.Kqueue
