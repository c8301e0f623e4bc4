import Libuv.L2Loop.Process

/-!
# Exit callbacks (`unix/process.c`)

The two loops of `uv__wait_children`, and all runs of the API and of the loops.

* `process_exit`: if no callback closes the handle whose turn is next, then a callback runs at most once for a
  child, with the child's status and on a handle that is not closed; a child whose handle is not closed
  is reported when `uv__wait_children` returns; the others stay where they are.
* `closed_and_called`: a callback closes the handle whose turn is next, and its callback runs.
-/
namespace Libuv.L2.Process

open Libuv.L1 List Option
open Libuv.L1.Queue (Walk firstOr)
open Handle (Flags handleInit handleStart handleStop)

variable {s t : State} {l stale live : List ℕ} {p : ℕ} {x : UvProcess} {v : View} {q : Node} {sigchld : Bool}

/-! ## The loops of `uv__wait_children` -/

theorem Inv.waitChildren (hs : Inv s l stale live) (hidle : s.pc = .idle) : Inv s.waitChildren l [] [] := by
  have hpc := hs.pc
  rw [hidle] at hpc
  obtain ⟨rfl, rfl⟩ := hpc
  have haway : ∀ n, n ≠ .pending → s.waitChildren.mem.next n = s.mem.next n ∧ s.waitChildren.mem.prev n = s.mem.prev n :=
    fun n hn => init_away hn
  have hne : ∀ n ∈ Node.handles :: l.map .process, n ≠ .pending := by
    intro n hn h
    rw [h] at hn
    rcases mem_cons.1 hn with h | h
    · cases h
    · exact not_mem_process _ (.inr rfl) h
  refine ⟨hs.toTable.same rfl rfl rfl rfl rfl, ⟨?_, hs.mem_l, by simp, by simp, fun i u hu ho hil hiv => ?_, hs.account, ?_⟩⟩
  · exact hs.ring.congr (fun n hn => (haway n (hne n hn)).1) fun n hn => (haway n (hne n hn)).2
  · obtain ⟨h1, h2⟩ := haway (.process i) nofun
    exact hs.alone i u hu ho hil hiv
  · exact ⟨rfl, Queue.init_ring, [], l, rfl, Queue.next_head_first hs.ring⟩

theorem next_of_ring {m : Links Node} {l₁ l₂ : List ℕ} (hr : Ring m .handles ((l₁ ++ p :: l₂).map .process)) :
    m.next (.process p) = firstOr .handles (l₂.map .process) := by
  rw [map_append] at hr
  obtain ⟨-, -, z, post, -, hz, -, -, hn, -⟩ := hr.around
  rw [hn]
  cases l₂ with
  | nil | cons a l₂ => exact (List.cons.inj hz).1.symm

theorem Inv.exited {l₁ l₂ : List ℕ} {w : View} (hs : Inv s (l₁ ++ p :: l₂) [] live)
    (hring : Ring s.mem .pending (live.map .process)) (hv : s.view p = some v)
    (hview : t.view = Function.update s.view p (some w)) (hw : w.pid = v.pid) (hwo : w.closing = v.closing)
    (hm : t.mem = Queue.insertTail (Queue.remove s.mem (.process p)) .pending (.process p))
    (hpc : t.pc = .reaping (firstOr .handles (l₂.map .process))) (hl : t.lastPid = s.lastPid)
    (he : t.exited = s.exited ++ [w.exit]) (ht : t.turns = s.turns) (hr : t.reports = s.reports)
    (hc : t.closed = s.closed) : Inv t (l₁ ++ l₂) [] (live ++ [p]) := by
  have hp : p ∈ l₁ ++ p :: l₂ := by simp
  obtain ⟨u, hu, hcl, hne, hnex⟩ := (hs.mem_l p).1 hp
  rw [hv] at hu
  cases hu
  have hnd := hs.nodup
  have hp₁ : p ∉ l₁ := fun h => (nodup_append.1 hnd).2.2 p h p (by simp) rfl
  have hpl : p ∉ l₁ ++ l₂ := by
    rw [nodup_append, nodup_cons] at hnd
    rw [mem_append, not_or]
    exact ⟨hp₁, hnd.2.1.1⟩
  have hpv : p ∉ live := fun h => hs.live_notMem h hp
  have hself : t.view p = some w := by rw [hview, Function.update_self]
  have hother : ∀ {i}, i ≠ p → t.view i = s.view i := fun hi => by rw [hview, Function.update_of_ne hi]
  obtain ⟨hhr, haway₁⟩ := remove_handles hs.ring hp
  rw [erase_append_right _ hp₁, erase_cons_head] at hhr
  have hpr : Ring (Queue.remove s.mem (.process p)) .pending (live.map .process) := by
    refine hring.congr (fun n hn => ?_) fun n hn => ?_
    · exact (haway₁ n (hs.apart (by simpa using hn)).1 (hs.apart (by simpa using hn)).2).1
    · exact (haway₁ n (hs.apart (by simpa using hn)).1 (hs.apart (by simpa using hn)).2).2
  have hnot : Node.process p ∉ Node.pending :: live.map .process := by
    rw [mem_cons, not_or, process_mem_map]
    exact ⟨nofun, hpv⟩
  have hexits : t.exited.map Exit.pid = s.exited.map Exit.pid ++ [v.pid] := by
    rw [he, map_append, ← hw]
    rfl
  have hdue : ∀ {i}, i ∈ live → t.due i false := by
    intro i hi
    have hip : i ≠ p := fun h => hpv (h ▸ hi)
    obtain ⟨u, hu, huc, hex, hn⟩ := hs.live_due i hi
    refine ⟨u, (hother hip).trans hu, huc, ?_, ht ▸ hn⟩
    rw [he]
    exact mem_append_left _ hex
  refine ⟨hs.toTable.exited hv hne hnex hview hw hl he ht hr, ⟨?_, fun i => ?_, fun i hi => ?_, by simp,
    fun i u hu hio hil hiv => ?_, fun e hex h1 h2 => ?_, ?_⟩⟩
  · rw [hm]
    refine Queue.insertTail_other hpr hhr fun n hn => ?_
    rcases mem_cons.1 hn with rfl | hn
    · refine ⟨nofun, ?_⟩
      rw [mem_cons, not_or]
      exact ⟨nofun, not_mem_process _ (.inl rfl)⟩
    · obtain ⟨i, hi, rfl⟩ := List.mem_map.1 hn
      refine ⟨fun h => hpl (process_injective h ▸ hi), ?_⟩
      rw [mem_cons, not_or, process_mem_map]
      refine ⟨nofun, fun h => hs.live_notMem h ?_⟩
      rw [mem_append] at hi
      rw [mem_append]
      tauto
  · have hi : i ∈ l₁ ++ l₂ ↔ i ∈ l₁ ++ p :: l₂ ∧ i ≠ p := by
      have := (hs.nodup.mem_erase_iff (a := i) (b := p))
      rwa [erase_append_right _ hp₁, erase_cons_head, and_comm] at this
    rw [hi, hs.mem_l]
    unfold State.running
    rw [hexits]
    by_cases hip : i = p
    · subst hip
      refine ⟨fun h => absurd rfl h.2, fun ⟨u, hu, _, _, hn⟩ => ?_⟩
      rw [hself] at hu
      cases hu
      exact absurd (mem_append_right _ (mem_singleton.2 hw)) hn
    · rw [hother hip]
      refine ⟨fun ⟨⟨u, hu, h1, h2, h3⟩, _⟩ => ⟨u, hu, h1, h2, ?_⟩, fun ⟨u, hu, h1, h2, h3⟩ => ⟨⟨u, hu, h1, h2, ?_⟩, hip⟩⟩
      · rw [mem_append, mem_singleton, not_or]
        exact ⟨h3, fun h => hip (hs.pid_inj i p u v hu hv h h2)⟩
      · exact fun h => h3 (mem_append_left _ h)
  · rcases mem_append.1 hi with hi | hi
    · exact hdue hi
    · rw [mem_singleton.1 hi]
      refine ⟨w, hself, hwo.trans hcl, ?_, ?_⟩
      · rw [he]
        simp
      · rw [ht, hw]
        exact fun h => hnex (hs.turns_exited _ h)
  · rw [mem_append, mem_singleton, not_or] at hiv
    rw [hother hiv.2] at hu
    have hil' : i ∉ l₁ ++ p :: l₂ := by
      rw [mem_append, mem_cons]
      rw [mem_append] at hil
      tauto
    obtain ⟨h1, h2⟩ := Queue.insertTail_away (x := .process i) hpr (fun h => hiv.2 (process_injective h))
      (by rw [mem_cons, not_or, process_mem_map]; exact ⟨nofun, hiv.1⟩)
    obtain ⟨h3, h4⟩ := haway₁ (.process i) nofun (by rwa [process_mem_map])
    rw [hm, h1, h2, h3, h4]
    exact hs.alone i u hu hio hil' hiv.1
  · rw [he] at hex
    rw [ht] at h1
    rw [hc] at h2
    rcases mem_append.1 hex with hex | hex
    · obtain ⟨i, hi, u, hu, hpid⟩ := hs.account e hex h1 h2
      exact ⟨i, mem_append_left _ hi, u, (hother fun h => hpv (h ▸ hi)).trans hu, hpid⟩
    · refine ⟨p, by simp, w, hself, ?_⟩
      rw [mem_singleton.1 hex]
      rfl
  · rw [hpc, hm, map_append]
    exact ⟨rfl, Queue.insertTail_ring hpr hnot, l₁, l₂, rfl, rfl⟩

theorem firstOr_process {l : List ℕ} {n : Node} (h : .process p = firstOr n (l.map .process)) (hn : n ≠ .process p) :
    ∃ k, l = p :: k := by
  cases l with
  | nil => exact absurd h.symm hn
  | cons a k =>
    have : p = a := process_injective h
    exact ⟨k, by rw [this]⟩

theorem Inv.reap (hs : Inv s l stale live) (hpc : s.pc = .reaping q) {r : Wait} (hr : sigchld || r ≠ .notYet) :
    ∃ t l' live', s.reap sigchld r q = some t ∧ Inv t l' [] live' ∧ t.reports = s.reports := by
  have hp := hs.pc
  rw [hpc] at hp
  obtain ⟨rfl, hring, l₁, l₂, rfl, hq⟩ := hp
  cases q with
  | pending =>
    cases l₂ with
    | nil | cons a l₂ => cases hq
  | handles =>
    refine ⟨{ s with pc := .walking (Queue.head s.mem .pending) }, l₁ ++ l₂, live, rfl, ?_, rfl⟩
    exact ⟨hs.toTable.same rfl rfl rfl rfl rfl, ⟨hs.ring, hs.mem_l, hs.live_due, hs.stale_due, hs.alone, hs.account,
      Walk.of_ring hring⟩⟩
  | process p =>
    obtain ⟨l₂, rfl⟩ := firstOr_process hq nofun
    obtain ⟨v, hv, -⟩ := (hs.mem_l p).1 (by simp)
    obtain ⟨x, hx, rfl⟩ := handle_of_view hv
    have hnext := next_of_ring hs.ring
    -- the loop goes on with the handles as they are
    have stay : ∀ {t : State}, t.mem = s.mem → t.view = s.view → t.pc = .reaping (s.mem.next (.process p)) →
        t.lastPid = s.lastPid → t.exited = s.exited → t.turns = s.turns → t.reports = s.reports →
        t.closed = s.closed → Inv t (l₁ ++ p :: l₂) [] live := by
      intro t h1 h2 h3 h4 h5 h6 h7 h8
      have hmid : Inv { s with pc := .reaping (s.mem.next (.process p)) } (l₁ ++ p :: l₂) [] live := by
        refine ⟨hs.toTable.same rfl rfl rfl rfl rfl, ⟨hs.ring, hs.mem_l, hs.live_due, hs.stale_due, hs.alone, hs.account, ?_⟩⟩
        exact ⟨rfl, hring, l₁ ++ [p], l₂, by simp, hnext⟩
      exact hmid.congr h1 h2 h3 h4 h5 h6 h7 h8
    unfold State.reap
    simp only [hx, bind_eq_bind, bind_some]
    by_cases hskip : sigchld = false ∧ x.reap = false
    · rw [if_pos hskip]
      exact ⟨_, _, _, rfl, stay rfl rfl rfl rfl rfl rfl rfl rfl, rfl⟩
    · rw [if_neg hskip]
      cases r with
      | notYet =>
        have hsig : sigchld = true := by simpa using hr
        rw [hsig]
        exact ⟨_, _, _, rfl, stay rfl (view_same hx rfl rfl) rfl rfl rfl rfl rfl rfl, rfl⟩
      | missed => exact ⟨_, _, _, rfl, stay rfl (view_same hx rfl rfl) rfl rfl rfl rfl rfl rfl, rfl⟩
      | exited status =>
        refine ⟨_, l₁ ++ l₂, live ++ [p], rfl, ?_, rfl⟩
        refine hs.exited hring hv (w := ⟨x.pid, status, x.exitCb, x.flags.isClosing⟩)
          (view_update (s := s) (y := { x with reap := sigchld && x.reap, status := status }) rfl) rfl rfl rfl ?_
          rfl rfl rfl rfl rfl
        exact congrArg Pc.reaping hnext

theorem Inv.turn {rest stale' live' : List ℕ} (hs : Inv s l stale live) (hlist : stale ++ live = p :: rest)
    (hv : s.view p = some v) (hw : Walk s.mem .pending (.process p) (stale.map .process) (live.map .process))
    (hm : t.mem = Queue.init (Queue.remove s.mem (.process p)) (.process p)) (hst : ∀ i ∈ stale', i ∈ stale ∧ i ∈ rest)
    (hlv : ∀ i, i ∈ live' ↔ i ∈ live ∧ i ∈ rest)
    (hw' : Walk t.mem .pending (s.mem.next (.process p)) (stale'.map .process) (live'.map .process))
    (hview : t.view = s.view)
    (hpc : t.pc = .walking (s.mem.next (.process p)) ∨ t.pc = .calling (s.mem.next (.process p)))
    (hl : t.lastPid = s.lastPid) (he : t.exited = s.exited) (ht : t.turns = s.turns ++ [v.pid])
    (hr : t.reports = if v.exitCb then s.reports ++ [v.exit.report v.closing] else s.reports)
    (hc : t.closed = s.closed) : Inv t l stale' live' := by
  have hnd : (p :: rest).Nodup := by
    rw [← hlist]
    have := hw.nodup
    rw [← map_append] at this
    exact List.Nodup.of_map _ this
  obtain ⟨c, u, hu, hcl, hex, hturn⟩ := hs.due_handle (i := p) (by rw [hlist]; simp)
  rw [hv] at hu
  cases hu
  have hmap : ∀ {n}, n ∉ Node.pending :: (stale.map Node.process ++ live.map .process) →
      t.mem.next n = s.mem.next n ∧ t.mem.prev n = s.mem.prev n := by
    intro n hn
    rw [hm]
    exact hw.next_away nofun hn
  -- the handles that are left are other handles, and their turn has not come
  have hdue : ∀ {i b}, i ∈ rest → s.due i b → t.due i b := by
    intro i b hi ⟨u, hu, hucl, huex, hn⟩
    refine ⟨u, hview ▸ hu, hucl, he ▸ huex, ?_⟩
    rw [ht, mem_append, mem_singleton, not_or]
    refine ⟨hn, fun hpid => (nodup_cons.1 hnd).1 ?_⟩
    have : i = p := hs.pid_inj i p u v hu hv hpid (hs.exited_le _ huex).1
    rwa [← this]
  refine ⟨hs.toTable.turn hex hturn hview hl he ht hr, ⟨?_, fun i => ?_, fun i hi => ?_, fun i hi => ?_,
    fun i u hu hio hil hiv => ?_, fun e hex' h1 h2 => ?_, ?_⟩⟩
  · exact hs.ring.congr (fun n hn => (hmap (hs.apart' hn)).1) fun n hn => (hmap (hs.apart' hn)).2
  · rw [hs.mem_l]
    unfold State.running
    rw [hview, he]
  · obtain ⟨h1, h2⟩ := (hlv i).1 hi
    exact hdue h2 (hs.live_due i h1)
  · obtain ⟨h1, h2⟩ := hst i hi
    exact hdue h2 (hs.stale_due i h1)
  · rw [hview] at hu
    by_cases hip : i = p
    · rw [hip, hm]
      simp [Queue.init]
    · have hi : i ∉ stale ++ live := by
        intro h
        have hrest : i ∈ rest := by
          rw [hlist] at h
          exact (mem_cons.1 h).resolve_left hip
        rcases mem_append.1 h with h | h
        · obtain ⟨u', hu', hc', -⟩ := hs.stale_due i h
          rw [hu] at hu'
          cases hu'
          rw [hio] at hc'
          cases hc'
        · exact hiv ((hlv i).2 ⟨h, hrest⟩)
      obtain ⟨h1, h2⟩ := hmap (n := .process i) (by
        rw [mem_cons, ← map_append, process_mem_map, not_or]
        exact ⟨nofun, hi⟩)
      rw [h1, h2]
      exact hs.alone i u hu hio hil fun h => hi (mem_append_right _ h)
  · rw [he] at hex'
    rw [hc] at h2
    rw [ht, mem_append, mem_singleton, not_or] at h1
    obtain ⟨i, hi, u, hu, hpid⟩ := hs.account e hex' h1.1 h2
    have hip : i ≠ p := by
      intro h
      rw [h, hv] at hu
      cases hu
      exact h1.2 hpid.symm
    have hrest : i ∈ rest := by
      have : i ∈ stale ++ live := mem_append_right _ hi
      rw [hlist] at this
      exact (mem_cons.1 this).resolve_left hip
    exact ⟨i, (hlv i).2 ⟨hi, hrest⟩, u, hview ▸ hu, hpid⟩
  · rcases hpc with hpc | hpc <;>
    · rw [hpc]
      exact hw'

theorem State.next_eq (s : State) (hx : s.handle p = some x) :
    s.next (.process p) =
      let s' : State := { s with
        mem := Queue.init (Queue.remove s.mem (.process p)) (.process p)
        handle := Function.update s.handle p (some { x with flags := (handleStop x.flags s.activeHandles).1 })
        activeHandles := (handleStop x.flags s.activeHandles).2
        turns := s.turns ++ [x.pid] }
      if x.exitCb = false then some { s' with pc := .walking (s.mem.next (.process p)) }
      else
        some { s' with
          pc := .calling (s.mem.next (.process p))
          reports := s.reports ++
            [⟨x.pid, x.status.exitStatus, x.status.termSignal, (handleStop x.flags s.activeHandles).1.isClosing⟩] } := by
  simp only [State.next, hx]
  rfl

/-- **The second loop**: one iteration. The handle it comes to is the first it was to meet, and its callback
finds it closed if its node was stale. -/
theorem Inv.next (hs : Inv s l stale live) (hpc : s.pc = .walking q) :
    ∃ t stale' live', s.next q = some t ∧ Inv t l stale' live' ∧ t.view = s.view ∧ (∀ i ∈ stale', i ∈ stale) ∧
      ∀ r ∈ t.reports, r ∈ s.reports ∨ r.closing = false ∨ ∃ i ∈ stale, ∃ v, s.view i = some v ∧ v.exitCb = true := by
  have hw := hs.pc
  rw [hpc] at hw
  have hsaved := hw.saved
  rw [← map_append] at hsaved
  cases q with
  | handles =>
    cases h : stale ++ live with
    | nil | cons a k =>
      rw [h] at hsaved
      cases hsaved
  | pending =>
    obtain ⟨h1, h2, hempty⟩ := hw.done
    obtain rfl : stale = [] := by simpa using h1
    obtain rfl : live = [] := by simpa using h2
    refine ⟨{ s with pc := .idle }, [], [], ?_, ?_, rfl, by simp, fun r hr => .inl hr⟩
    · show (if Queue.empty s.mem .pending = true then _ else _) = _
      rw [if_pos hempty]
    · exact ⟨hs.toTable.same rfl rfl rfl rfl rfl, ⟨hs.ring, hs.mem_l, hs.live_due, hs.stale_due, hs.alone, hs.account, rfl, rfl⟩⟩
  | process p =>
    obtain ⟨rest, hlist⟩ := firstOr_process hsaved nofun
    obtain ⟨c, v, hv, hcl, -⟩ := hs.due_handle (i := p) (by rw [hlist]; simp)
    obtain ⟨x, hx, rfl⟩ := handle_of_view hv
    let f := (handleStop x.flags s.activeHandles).1
    have hf : f.isClosing = x.flags.isClosing := Handle.handleStop_isClosing _ _
    -- the nodes that are left
    obtain ⟨stale', live', hst, hlv, hpst, hw'⟩ : ∃ stale' live' : List ℕ, (∀ i ∈ stale', i ∈ stale ∧ i ∈ rest) ∧
        (∀ i, i ∈ live' ↔ i ∈ live ∧ i ∈ rest) ∧ (p ∈ stale ∨ p ∈ live) ∧
        Walk (Queue.init (Queue.remove s.mem (.process p)) (.process p)) .pending (s.mem.next (.process p))
          (stale'.map .process) (live'.map .process) := by
      have hnd : (stale ++ live).Nodup := by
        have := hw.nodup
        rw [← map_append] at this
        exact List.Nodup.of_map _ this
      cases stale with
      | cons a st =>
        obtain ⟨rfl, rfl⟩ : a = p ∧ st ++ live = rest := List.cons.inj hlist
        obtain ⟨-, hw'⟩ := hw.next_stale
        refine ⟨st, live, fun i hi => ⟨mem_cons_of_mem _ hi, mem_append_left _ hi⟩,
          fun i => ⟨fun hi => ⟨hi, mem_append_right _ hi⟩, fun hi => hi.1⟩, .inl mem_cons_self, hw'⟩
      | nil =>
        cases live with
        | nil => cases hlist
        | cons a lv =>
          obtain ⟨rfl, rfl⟩ : a = p ∧ lv = rest := List.cons.inj hlist
          obtain ⟨-, hw'⟩ := hw.next_live
          refine ⟨[], lv, by simp, fun i => ⟨fun hi => ⟨mem_cons_of_mem _ hi, hi⟩, fun hi => hi.2⟩,
            .inr mem_cons_self, hw'⟩
    let m := Queue.init (Queue.remove s.mem (.process p)) (.process p)
    let t (pc : Pc) (reports : List Report) : State := { s with
      mem := m
      handle := Function.update s.handle p (some { x with flags := f })
      activeHandles := (handleStop x.flags s.activeHandles).2
      turns := s.turns ++ [x.pid]
      pc := pc
      reports := reports }
    have hsame : ∀ pc rs, (t pc rs).view = s.view := by
      intro pc rs
      refine view_same hx rfl ?_
      unfold UvProcess.view
      simp [hf]
    cases hcb : x.exitCb with
    | false =>
      have hstep : s.next (.process p) = some (t (.walking (s.mem.next (.process p))) s.reports) := by
        rw [s.next_eq hx, if_pos hcb]
      refine ⟨_, stale', live', hstep, ?_, hsame _ _, fun i hi => (hst i hi).1, fun r hr => .inl hr⟩
      refine hs.turn hlist hv hw rfl hst hlv hw' (hsame _ _) (.inl rfl) rfl rfl rfl ?_ rfl
      rw [show x.view.exitCb = false from hcb]
      rfl
    | true =>
      have hstep : s.next (.process p) = some (t (.calling (s.mem.next (.process p)))
          (s.reports ++ [x.view.exit.report x.view.closing])) := by
        rw [s.next_eq hx, if_neg (by rw [hcb]; nofun), Handle.handleStop_isClosing]
        rfl
      refine ⟨_, stale', live', hstep, ?_, hsame _ _, fun i hi => (hst i hi).1, fun r hr => ?_⟩
      · refine hs.turn hlist hv hw rfl hst hlv hw' (hsame _ _) (.inr rfl) rfl rfl rfl ?_ rfl
        rw [show x.view.exitCb = true from hcb]
        rfl
      · rcases mem_append.1 hr with hr | hr
        · exact .inl hr
        · rw [mem_singleton.1 hr]
          rcases hpst with hp | hp
          · exact .inr (.inr ⟨p, hp, x.view, hv, hcb⟩)
          · obtain ⟨u, hu, huc, -⟩ := hs.live_due p hp
            rw [hv] at hu
            cases hu
            exact .inr (.inl huc)

/-! ## Runs -/

/-- What the callbacks of a run have to keep to for no closed handle to be called. -/
structure Quiet (s : State) (stale : List ℕ) : Prop where
  stale : ∀ p ∈ stale, ∀ v, s.view p = some v → v.exitCb = false
  reports : ∀ r ∈ s.reports, r.closing = false

theorem isNext_iff (hv : s.view p = some v) :
    s.isNext p = true ↔ s.mem.prev (.process p) = .pending ∧ v.exitCb = true := by
  obtain ⟨x, hx, rfl⟩ := handle_of_view hv
  unfold State.isNext
  rw [hx]
  simp [UvProcess.view]

theorem inv_step (hs : Inv s l stale live) {lab : Label} (hen : enabled sigchld s lab = true) :
    ∃ t l' stale' live', step sigchld s lab = some t ∧ Inv t l' stale' live' ∧
      (Spares s lab → Quiet s stale → Quiet t stale') := by
  cases lab with
  | spawn p stdio exec reap exitCb =>
    simp only [enabled, Bool.and_eq_true, isNone_iff_eq_none] at hen
    obtain ⟨l', hs', hr⟩ := hs.spawn hen.2 hen.1 sigchld stdio exec reap exitCb
    refine ⟨_, l', stale, live, rfl, hs', fun _ hq => ⟨fun i hi v hv => ?_, by rw [hr]; exact hq.reports⟩⟩
    have hip : i ≠ p := by
      intro h
      obtain ⟨u, hu, -⟩ := hs.stale_due i hi
      rw [h, view_none hen.2] at hu
      cases hu
    rw [view_spawn hip] at hv
    exact hq.stale i hi v hv
  | close p =>
    simp only [enabled, Bool.and_eq_true] at hen
    obtain ⟨hu, hx⟩ := hen
    obtain ⟨x, hx, ho⟩ := (Option.any_eq_true _ _).1 hx
    have ho : x.flags.isClosing = false := by simpa using ho
    obtain ⟨t, l', stale', live', ht, hs', hc, hst⟩ := hs.close hx ho hu
    have hv := view_of_handle hx
    refine ⟨t, l', stale', live', ht, hs', fun hsp hq => ⟨fun i hi v hvi => ?_, by rw [hc.reports]; exact hq.reports⟩⟩
    rw [hc.view] at hvi
    by_cases hip : i = p
    · subst hip
      rw [Function.update_self] at hvi
      cases hvi
      rcases hst i hi with h | ⟨-, h⟩
      · exact hq.stale i h x.view hv
      · have hnot : s.isNext i = false := hsp
        show x.exitCb = false
        by_contra hcb
        rw [(isNext_iff hv).2 ⟨h, by simpa [UvProcess.view] using hcb⟩] at hnot
        cases hnot
    · rw [Function.update_of_ne hip] at hvi
      rcases hst i hi with h | ⟨h, -⟩
      · exact hq.stale i h v hvi
      · exact absurd h hip
  | finishClose p =>
    simp only [enabled, Bool.and_eq_true, decide_eq_true_eq] at hen
    obtain ⟨hidle, hx⟩ := hen
    obtain ⟨x, hx, ho⟩ := (Option.any_eq_true _ _).1 hx
    obtain ⟨t, ht, hs', hr⟩ := hs.finishClose hx ho hidle
    have hpc := hs.pc
    rw [hidle] at hpc
    obtain ⟨rfl, rfl⟩ := hpc
    exact ⟨t, l, [], [], ht, hs', fun _ hq => ⟨by simp, by rw [hr]; exact hq.reports⟩⟩
  | noteExit p =>
    simp only [enabled, Bool.and_eq_true] at hen
    obtain ⟨x, hx⟩ := isSome_iff_exists.1 hen.2
    obtain ⟨t, ht, hs', hr, hv⟩ := hs.noteExit hx
    exact ⟨t, l, stale, live, ht, hs', fun _ hq => ⟨by rw [hv]; exact hq.stale, by rw [hr]; exact hq.reports⟩⟩
  | waitChildren =>
    simp only [enabled, decide_eq_true_eq] at hen
    exact ⟨_, l, [], [], rfl, hs.waitChildren hen, fun _ hq => ⟨by simp, hq.reports⟩⟩
  | reap r =>
    cases hpc : s.pc with
    | reaping q =>
      simp only [enabled, hpc, Bool.and_true] at hen
      obtain ⟨t, l', live', ht, hs', hr⟩ := hs.reap hpc hen
      refine ⟨t, l', [], live', ?_, hs', fun _ hq => ⟨by simp, by rw [hr]; exact hq.reports⟩⟩
      simp only [step, hpc]
      exact ht
    | idle | walking q | calling q => simp [enabled, hpc] at hen
  | next =>
    cases hpc : s.pc with
    | walking q =>
      obtain ⟨t, stale', live', ht, hs', hv, hst, hrep⟩ := hs.next hpc
      refine ⟨t, l, stale', live', ?_, hs', fun _ hq => ⟨fun i hi v hvi => ?_, fun r hr => ?_⟩⟩
      · simp only [step, hpc]
        exact ht
      · rw [hv] at hvi
        exact hq.stale i (hst i hi) v hvi
      · rcases hrep r hr with h | h | ⟨i, hi, v, hvi, hcb⟩
        · exact hq.reports r h
        · exact h
        · rw [hq.stale i hi v hvi] at hcb
          cases hcb
    | idle | reaping q | calling q => simp [enabled, hpc] at hen
  | ret =>
    cases hpc : s.pc with
    | calling q =>
      refine ⟨{ s with pc := .walking q }, l, stale, live, ?_, ?_, fun _ hq => ⟨hq.stale, hq.reports⟩⟩
      · simp [step, hpc]
      · have hw := hs.pc
        rw [hpc] at hw
        exact ⟨hs.toTable.same rfl rfl rfl rfl rfl, ⟨hs.ring, hs.mem_l, hs.live_due, hs.stale_due, hs.alone, hs.account, hw⟩⟩
    | idle | reaping q | walking q => simp [enabled, hpc] at hen

theorem initial_inv : Inv initial [] [] [] := by
  refine ⟨⟨?_, ?_, nodup_nil, by simp [initial], nodup_nil, by simp [initial], List.Sublist.refl _,
    by simp [initial], by simp [initial]⟩, ⟨?_, ?_, by simp, by simp, ?_, by simp [initial], rfl, rfl⟩⟩
  · simp [State.view, initial]
  · simp [State.view, initial]
  · exact Queue.init_ring
  · simp [State.running, State.view, initial]
  · simp [State.view, initial]

theorem quiet_reachable (h : ((system sigchld).restrict Spares).Reachable s) :
    ∃ l stale live, Inv s l stale live ∧ Quiet s stale := by
  have hi : ((system sigchld).restrict Spares).Inductive
      (fun s => ∃ l stale live, Inv s l stale live ∧ Quiet s stale) := by
    refine ⟨fun s hs => ?_, fun s lab t hs ht => ?_⟩
    · rw [show s = initial from hs]
      exact ⟨[], [], [], initial_inv, by simp, by simp [initial]⟩
    · obtain ⟨l, stale, live, hs, hq⟩ := hs
      obtain ⟨hsp, hen, hst⟩ := ht
      obtain ⟨u, l', stale', live', hu, hs', hq'⟩ := inv_step hs hen
      rw [hst] at hu
      cases hu
      exact ⟨l', stale', live', hs', hq' hsp hq⟩
  exact hi.reachable h

/-- **Exit callbacks**: in a run in which no callback closes the handle whose turn is next, a callback
runs at most once for a child, on a handle that is not closed; a child with a callback that was found
exited is reported when `uv__wait_children` has returned, if its handle was not closed before; the handles
on `process_handles` are those whose child was not found exited; nothing fails, the assertion at the end
among it, and the second loop has no more iterations than there are children found. -/
theorem process_exit (h : ((system sigchld).restrict Spares).Reachable s) :
    (s.reports.map Report.pid).Nodup ∧ (∀ r ∈ s.reports, ∃ e ∈ s.exited, r = e.report false) ∧
      (s.pc = .idle → ∀ e ∈ s.exited, e.exitCb = true → e.report false ∈ s.reports ∨ e.pid ∈ s.closed) ∧
      (∃ l : List ℕ, Ring s.mem .handles (l.map .process) ∧ ∀ p, p ∈ l ↔ s.running p) ∧
      (∀ lab, enabled sigchld s lab = true → ∃ t, step sigchld s lab = some t) ∧
      s.turns.length ≤ s.exited.length := by
  obtain ⟨l, stale, live, hs, hq⟩ := quiet_reachable h
  refine ⟨hs.turns_once.sublist hs.reports_turns, fun r hr => ?_, fun hidle e he hcb => ?_, ⟨l, hs.ring, hs.mem_l⟩,
    fun lab hen => ?_, ?_⟩
  · obtain ⟨e, he, b, hb⟩ := hs.reports_exited r hr
    have hcl : b = false := by
      have := hq.reports r hr
      rwa [hb] at this
    exact ⟨e, he, hcl ▸ hb⟩
  · by_cases hcl : e.pid ∈ s.closed
    · exact .inr hcl
    · refine .inl ?_
      have hpc := hs.pc
      rw [hidle] at hpc
      have hturn : e.pid ∈ s.turns := by
        by_contra hn
        obtain ⟨p, hp, -⟩ := hs.account e he hn hcl
        rw [hpc.2] at hp
        cases hp
      obtain ⟨b, hb⟩ := hs.reported e he hturn hcb
      have hfalse : b = false := hq.reports _ hb
      exact hfalse ▸ hb
  · obtain ⟨t, -, -, -, ht, -⟩ := inv_step hs hen
    exact ⟨t, ht⟩
  · have := (subperm_of_subset hs.turns_once hs.turns_exited).length_le
    rwa [length_map] at this

def tryStep (sigchld : Bool) (s : State) (lab : Label) : Option State :=
  if enabled sigchld s lab && decide (Spares s lab) then step sigchld s lab else none

theorem tryStep_step {lab : Label} (h : tryStep sigchld s lab = some t) :
    ((system sigchld).restrict Spares).step s lab t := by
  unfold tryStep at h
  split at h
  · rename_i hc
    rw [Bool.and_eq_true, decide_eq_true_eq] at hc
    exact ⟨hc.2, hc.1, h⟩
  · cases h

/-- Of two children that have exited, the second is closed from the callback of a third one, which is
not the one before it. -/
def sparing : List Label :=
  [.spawn 0 true true false true, .spawn 1 true true false true, .spawn 2 true true false true,
    .waitChildren, .reap (.exited (.exited 3)), .reap (.exited (.signaled 9)), .reap (.exited (.exited 0)), .reap .missed,
    .next, .close 2, .ret, .next, .ret, .next]

theorem process_exit_three : ∃ s, ((system true).restrict Spares).Reachable s ∧
    s.reports = [⟨1, 3, 0, false⟩, ⟨2, 0, 9, false⟩] ∧ (s.reports.map Report.pid).Nodup := by
  have hrun : ((sparing.foldlM (tryStep true) initial).map State.reports) =
      some [⟨1, 3, 0, false⟩, ⟨2, 0, 9, false⟩] := by decide +kernel
  obtain ⟨s, hs, hr⟩ := map_eq_some_iff.1 hrun
  have hreach := LTS.Reachable.foldlM (T := (system true).restrict Spares) (fun _ _ _ => tryStep_step)
    (.init rfl) hs
  exact ⟨s, hreach, hr, (process_exit hreach).1⟩

def anyStep (sigchld : Bool) (s : State) (lab : Label) : Option State :=
  if enabled sigchld s lab then step sigchld s lab else none

theorem anyStep_step {lab : Label} (h : anyStep sigchld s lab = some t) : (system sigchld).step s lab t := by
  unfold anyStep at h
  split at h
  · exact ⟨‹_›, h⟩
  · cases h

/-- **The callback of a closed handle**: two children have exited, and the first callback closes
the second handle. -/
theorem closed_and_called : ∃ s, (system true).Reachable s ∧ ∃ r ∈ s.reports, r.closing = true := by
  have hrun : (([.spawn 0 true true false true, .spawn 1 true true false true, .waitChildren, .reap (.exited (.exited 0)),
      .reap (.exited (.exited 0)), .reap .missed, .next, .close 1, .ret, .next].foldlM (anyStep true) initial).map
      State.reports) = some [⟨1, 0, 0, false⟩, ⟨2, 0, 0, true⟩] := by decide +kernel
  obtain ⟨s, hs, hr⟩ := map_eq_some_iff.1 hrun
  have hreach := LTS.Reachable.foldlM (T := system true) (fun _ _ _ => anyStep_step) (.init rfl) hs
  refine ⟨s, hreach, ⟨2, 0, 0, true⟩, ?_, rfl⟩
  rw [hr]
  simp

end Libuv.L2.Process
