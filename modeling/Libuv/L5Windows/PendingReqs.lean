import Libuv.Core.Circular
import Libuv.Core.LTS

/-!
# The ring of pending requests (`win/req-inl.h`)

A request whose completion was taken off the completion port waits in a circular list that
`loop->pending_reqs_tail` points into, and `uv__process_reqs` hands the requests of that list
to their handlers (`libuv/src/win/req-inl.h`). The links are in the requests, and the requests are
their owners' memory: a handler may put requests into the ring, also the one it handles, and
it may free that one, after which the same address can be another request.

`mem` is the field `next_req` of every request in memory; a request that was freed has none, and
reading or storing into it makes an operation `none`. A request that was inserted is neither
inserted again nor freed or written before it is handed to its handler; from then on it is
its owner's.

* `pending_ring`: requests are handled in the order of insertion, and a pass handles what was in
  the ring at its start.
-/
namespace Libuv.L5.PendingReqs

open List

/-! ## State -/

inductive Pc (R : Type*)
  | idle
  /-- at the head of the loop, with the locals `first` and `next` -/
  | pass (first : Option R) (next : Option R)
  /-- in the handler of a request -/
  | handler (first : Option R) (next : Option R)

structure State (R : Type*) where
  /-- the field `next_req` of the requests that are allocated -/
  mem : R → Option (Option R)
  tail : Option R
  pc : Pc R
  /-- the requests inserted and not yet processed, which their owners do not touch -/
  posted : List R

variable {R : Type*} [DecidableEq R]

namespace State
variable (s : State R)

/-! ## Operations -/

/-- `req->next_req = v` -/
def setNext (req : R) (v : Option R) : Option (State R) :=
  (s.mem req).map fun _ => { s with mem := Function.update s.mem req (some v) }

/-- `uv__insert_pending_req`
mirrors win/req-inl.h:90-111 -/
def insert (req : R) : Option (State R) :=
  (s.setNext req none).bind fun s =>
    match s.tail with
    | some t =>
      (s.mem t).bind fun v =>
        (s.setNext req v).bind fun s => (s.setNext t (some req)).map fun s =>
          { s with tail := some req, posted := s.posted ++ [req] }
    | none => (s.setNext req (some req)).map fun s => { s with tail := some req, posted := s.posted ++ [req] }

/-- The start of `uv__process_reqs`.
mirrors win/req-inl.h:146-151 -/
def start : Option (State R) :=
  match s.tail with
  | none => some s
  | some t => (s.mem t).map fun first => { s with tail := none, pc := .pass first first }

/-- One turn of the loop, up to the handler.
mirrors win/req-inl.h:154-155 -/
def process (first : Option R) (req : R) : Option (State R) :=
  (s.mem req).map fun v =>
    { s with pc := .handler first (if v ≠ first then v else none), posted := s.posted.erase req }

end State

/-! ## The system -/

inductive Label (R : Type*)
  | insert (req : R)
  /-- the owner of a request frees it or puts anything there -/
  | own (req : R) (v : Option (Option R))
  | start
  | process (req : R)
  | ret
  | finish

/-- What may happen next; requests are inserted from the handlers and between the passes. -/
def enabled (s : State R) : Label R → Prop
  | .insert req => req ∉ s.posted ∧ s.mem req ≠ none ∧ ∀ first next, s.pc ≠ .pass first next
  | .own req _ => req ∉ s.posted
  | .start => s.pc = .idle
  | .process req => ∃ first, s.pc = .pass first (some req)
  | .ret => ∃ first next, s.pc = .handler first next
  | .finish => ∃ first, s.pc = .pass first none

def step (s : State R) : Label R → Option (State R)
  | .insert req => s.insert req
  | .own req v => some { s with mem := Function.update s.mem req v }
  | .start => s.start
  | .process req =>
    match s.pc with
    | .pass first _ => s.process first req
    | _ => none
  | .ret =>
    match s.pc with
    | .handler first next => some { s with pc := .pass first next }
    | _ => none
  | .finish => some { s with pc := .idle }

def fresh (s : State R) : Prop := s.tail = none ∧ s.pc = .idle ∧ s.posted = []

def system : LTS (State R) (Label R) where
  init := fresh
  step s l t := enabled s l ∧ step s l = some t

def inserted (ls : List (Label R)) : List R :=
  ls.filterMap fun
    | .insert req => some req
    | _ => none

/-- The requests handed to their handlers, in order. -/
def processed (ls : List (Label R)) : List R :=
  ls.filterMap fun
    | .process req => some req
    | _ => none

omit [DecidableEq R] in
@[simp] theorem inserted_append (a b : List (Label R)) : inserted (a ++ b) = inserted a ++ inserted b := filterMap_append

omit [DecidableEq R] in
@[simp] theorem processed_append (a b : List (Label R)) : processed (a ++ b) = processed a ++ processed b :=
  filterMap_append

/-! ## Two queues -/

/-- The requests that a pass has before it, and the ones that wait for the next. -/
structure Queues (R : Type*) where
  rest : List R
  ring : List R

def Queues.after (q : Queues R) : Label R → Queues R
  | .insert req => { q with ring := q.ring ++ [req] }
  | .start => ⟨q.ring, []⟩
  | .process _ => { q with rest := q.rest.tail }
  | _ => q

/-! ## The ring -/

/-- The field `next_req`, where it holds a request. -/
def nextReq (mem : R → Option (Option R)) (req : R) : Option R := (mem req).join

/-- `pending_reqs_tail` holds the requests `l` in a circle. -/
structure State.Holds (s : State R) (l : List R) : Prop where
  tail : s.tail = l.getLast?
  circle : ∀ a ∈ l.head?, Path (nextReq s.mem) l a

/-- The pass has the requests `rest` before it, and ends at the first one it had. -/
def Before (mem : R → Option (Option R)) (rest : List R) : Option R → Option R → Prop
  | some f, next => next = rest.head? ∧ Path (nextReq mem) rest f ∧ f ∉ rest.tail
  | none, _ => False

def During (mem : R → Option (Option R)) (rest : List R) : Pc R → Prop
  | .idle => rest = []
  | .pass first next => Before mem rest first next
  | .handler first next => Before mem rest first next

/-- The ring holds `ring`; of the ring that a pass took, `rest` is left. -/
structure Inv (s : State R) (rest ring : List R) : Prop where
  posted : s.posted = rest ++ ring
  nodup : s.posted.Nodup
  holds : s.Holds ring
  during : During s.mem rest s.pc

variable {s t : State R} {ls : List (Label R)} {rest ring : List R} {req : R}

omit [DecidableEq R] in
theorem mem_of_next {a b : R} (h : nextReq s.mem a = some b) : s.mem a = some (some b) := by
  simpa [nextReq, Option.join_eq_some_iff] using h

omit [DecidableEq R] in
theorem During.congr {pc : Pc R} (h : During s.mem rest pc) (hn : ∀ a ∈ rest, nextReq t.mem a = nextReq s.mem a) :
    During t.mem rest pc := by
  have hb : ∀ first next, Before s.mem rest first next → Before t.mem rest first next := by
    intro first next hb
    cases first with
    | none => exact hb
    | some f => exact ⟨hb.1, hb.2.1.congr hn, hb.2.2⟩
  cases pc with
  | idle => exact h
  | pass first next | handler first next => exact hb first next h

theorem nextReq_update (mem : R → Option (Option R)) (req : R) (v : Option (Option R)) :
    nextReq (Function.update mem req v) = Function.update (nextReq mem) req v.join := by
  funext a
  by_cases ha : a = req
  · subst ha
    simp [nextReq]
  · simp [nextReq, ha]

omit [DecidableEq R] in
theorem Inv.away (h : Inv s rest ring) (hp : t.posted = s.posted) (ht : t.tail = s.tail) (hc : t.pc = s.pc)
    (hn : ∀ a ∈ s.posted, nextReq t.mem a = nextReq s.mem a) : Inv t rest ring := by
  have hrest : ∀ a ∈ rest, nextReq t.mem a = nextReq s.mem a := fun a ha => hn a (by simp [h.posted, ha])
  have hring : ∀ a ∈ ring, nextReq t.mem a = nextReq s.mem a := fun a ha => hn a (by simp [h.posted, ha])
  refine ⟨hp.trans h.posted, hp ▸ h.nodup, ⟨ht.trans h.holds.tail, fun a ha => (h.holds.circle a ha).congr hring⟩, ?_⟩
  rw [hc]
  exact h.during.congr hrest

theorem Inv.own (h : Inv s rest ring) (hr : req ∉ s.posted) (v : Option (Option R)) :
    Inv { s with mem := Function.update s.mem req v } rest ring := by
  refine h.away rfl rfl rfl fun a ha => ?_
  have hne : a ≠ req := fun e => hr (e ▸ ha)
  exact congrArg Option.join (Function.update_of_ne hne ..)

theorem insert_spec (h : Inv s rest ring) (hr : req ∉ s.posted) (ha : s.mem req ≠ none) :
    ∃ t, s.insert req = some t ∧ t.pc = s.pc ∧ t.posted = s.posted ++ [req] ∧ t.tail = some req ∧
      (∀ a ∈ rest, nextReq t.mem a = nextReq s.mem a) ∧ ∀ a ∈ (ring ++ [req]).head?, Path (nextReq t.mem) (ring ++ [req]) a := by
  obtain ⟨v, hv⟩ := Option.ne_none_iff_exists'.1 ha
  rcases eq_nil_or_concat' ring with rfl | ⟨l, t, rfl⟩
  · have htail : s.tail = none := h.holds.tail
    refine ⟨{ s with mem := Function.update s.mem req (some (some req)), tail := some req, posted := s.posted ++ [req] },
      ?_, rfl, rfl, rfl, fun a ha => ?_, fun a ha => ?_⟩
    · simp [State.insert, State.setNext, hv, htail]
    · have hne : a ≠ req := fun e => hr (by simp [h.posted, ← e, ha])
      exact congrArg Option.join (Function.update_of_ne hne ..)
    · obtain rfl : req = a := by simpa using ha
      exact ⟨by simp [nextReq], trivial⟩
  · have htail : s.tail = some t := by simp [h.holds.tail]
    have hts : t ∈ s.posted := by simp [h.posted]
    have hne : t ≠ req := fun e => hr (e ▸ hts)
    obtain ⟨z, hz⟩ : ∃ z, (l ++ [t]).head? = some z := by cases l <;> simp
    have hp := h.holds.circle z hz
    have hmem : s.mem t = some (some z) := mem_of_next hp.last
    refine ⟨{ s with
        mem := Function.update (Function.update s.mem req (some (some z))) t (some (some req)), tail := some req,
        posted := s.posted ++ [req] }, ?_, rfl, rfl, rfl, fun a ha => ?_, fun a ha => ?_⟩
    · simp [State.insert, State.setNext, hv, htail, hmem, hne]
    · have hat : a ≠ t := by
        rintro rfl
        have := h.nodup
        rw [h.posted] at this
        exact (nodup_append.1 this).2.2 a ha a (by simp) rfl
      have har : a ≠ req := fun e => hr (by simp [h.posted, ← e, ha])
      exact congrArg Option.join ((Function.update_of_ne hat ..).trans (Function.update_of_ne har ..))
    · obtain rfl : z = a := by
        cases l <;> simp_all
      have hd : (l ++ [t]).Nodup := by
        have := h.nodup
        rw [h.posted] at this
        exact (nodup_append.1 this).2.1
      have hc := hp.concat hd fun hm => hr (by rw [h.posted]; exact mem_append_right _ hm)
      rwa [nextReq_update, nextReq_update]

theorem Inv.insert (h : Inv s rest ring) (hr : req ∉ s.posted) (ha : s.mem req ≠ none) :
    ∃ t, s.insert req = some t ∧ t.pc = s.pc ∧ Inv t rest (ring ++ [req]) := by
  obtain ⟨t, ht, hc, hp, htail, hrest, hring⟩ := insert_spec h hr ha
  refine ⟨t, ht, hc, by rw [hp, h.posted, append_assoc], ?_, ⟨by simp [htail], hring⟩, ?_⟩
  · rw [hp, ← concat_eq_append]
    exact h.nodup.concat hr
  · rw [hc]
    exact h.during.congr hrest

omit [DecidableEq R] in
theorem Inv.start (h : Inv s rest ring) (hi : s.pc = .idle) :
    ∃ t, s.start = some t ∧ (s.tail ≠ none → t.pc ≠ .idle) ∧ Inv t ring [] := by
  have hd := h.during
  rw [hi] at hd
  obtain rfl : rest = [] := hd
  rcases eq_nil_or_concat' ring with rfl | ⟨l, a, rfl⟩
  · have htail : s.tail = none := h.holds.tail
    refine ⟨s, ?_, fun hn => absurd htail hn, h⟩
    simp [State.start, htail]
  · have htail : s.tail = some a := by simp [h.holds.tail]
    obtain ⟨f, k, hf⟩ : ∃ f k, l ++ [a] = f :: k := exists_cons_of_ne_nil (by simp)
    have hp := h.holds.circle f (by rw [hf]; rfl)
    have hmem := mem_of_next hp.last
    have hd := h.nodup
    rw [h.posted, hf] at hd
    refine ⟨{ s with tail := none, pc := .pass (some f) (some f) }, by simp [State.start, htail, hmem], fun _ => by simp, ?_⟩
    refine ⟨by simpa using h.posted, h.nodup, ⟨rfl, fun b hb => ?_⟩, ?_⟩
    · simp at hb
    · rw [hf] at hp ⊢
      exact ⟨rfl, hp, (nodup_cons.1 hd).1⟩

theorem Inv.process (h : Inv s rest ring) {first : Option R} (hpc : s.pc = .pass first (some req)) :
    ∃ t, s.process first req = some t ∧ t.pc ≠ .idle ∧ (∃ k, rest = req :: k) ∧ Inv t rest.tail ring := by
  have hb := h.during
  rw [hpc] at hb
  cases first with
  | none => exact hb.elim
  | some f =>
    obtain ⟨hhead, hp, hf⟩ := hb
    cases rest with
    | nil => cases hhead
    | cons a k =>
      obtain rfl : req = a := Option.some_inj.1 hhead
      have hd := h.nodup
      rw [h.posted] at hd
      have hstep : s.process (some f) req = some { s with
          pc := .handler (some f) (if some (k.headD f) ≠ some f then some (k.headD f) else none)
          posted := s.posted.erase req } := by
        rw [State.process, mem_of_next hp.1]
        rfl
      refine ⟨_, hstep, by simp, ⟨k, rfl⟩, by simp [h.posted], ?_, ⟨h.holds.tail, h.holds.circle⟩, ?_, hp.2,
        fun hm => hf (mem_of_mem_tail hm)⟩
      · rw [h.posted]
        simpa using hd.of_cons
      · -- the link of the last request is the only one that leads to the first
        cases k with
        | nil => simp
        | cons b k =>
          have hbf : b ≠ f := fun e => hf (by simp [e])
          simp [hbf]

theorem step_spec (h : Inv s rest ring) {l : Label R} (he : enabled s l) :
    ∃ t, step s l = some t ∧ (l ≠ .finish → s.pc ≠ .idle → t.pc ≠ .idle) ∧
      (∀ req, l = .process req → ∃ k, rest = req :: k) ∧ (l = .start → rest = []) ∧ (l = .finish → rest = []) ∧
      Inv t (Queues.after ⟨rest, ring⟩ l).rest (Queues.after ⟨rest, ring⟩ l).ring := by
  cases l with
  | insert req =>
    obtain ⟨t, ht, hc, hi⟩ := h.insert he.1 he.2.1
    exact ⟨t, ht, fun _ hn => hc ▸ hn, by simp, by simp, by simp, hi⟩
  | own req v => exact ⟨_, rfl, fun _ hn => hn, by simp, by simp, by simp, h.own he v⟩
  | start =>
    obtain ⟨t, ht, -, hi⟩ := h.start he
    have hd := h.during
    rw [show s.pc = .idle from he] at hd
    exact ⟨t, ht, fun _ hn => absurd he hn, by simp, fun _ => hd, by simp, hi⟩
  | process req =>
    obtain ⟨first, hpc⟩ := he
    obtain ⟨t, ht, hn, hr, hi⟩ := h.process hpc
    refine ⟨t, by simpa [step, hpc] using ht, fun _ _ => hn, fun r e => ?_, by simp, by simp, hi⟩
    cases e
    exact hr
  | ret =>
    obtain ⟨first, next, hpc⟩ := he
    have hd := h.during
    rw [hpc] at hd
    have hstep : step s .ret = some { s with pc := .pass first next } := by simp [step, hpc]
    exact ⟨_, hstep, by simp, by simp, by simp, by simp, h.posted, h.nodup, ⟨h.holds.tail, h.holds.circle⟩, hd⟩
  | finish =>
    obtain ⟨first, hpc⟩ := he
    have hd := h.during
    rw [hpc] at hd
    have hrest : rest = [] := by
      cases first with
      | none => exact hd.elim
      | some f => exact head?_eq_none_iff.1 hd.1.symm
    have hinv : Inv { s with pc := .idle } rest ring := ⟨h.posted, h.nodup, ⟨h.holds.tail, h.holds.circle⟩, hrest⟩
    exact ⟨_, rfl, fun e => absurd rfl e, by simp, by simp, fun _ => hrest, hinv⟩

/-! ## Runs -/

theorem inv_inductive : (system (R := R)).TraceInductive fun ls s =>
    (∃ rest ring, Inv s rest ring) ∧ inserted ls = processed ls ++ s.posted := by
  refine ⟨fun s ⟨ht, hpc, hp⟩ => ⟨⟨[], [], ?_⟩, hp.symm⟩, fun ls s l t ⟨⟨rest, ring, h⟩, hio⟩ ⟨he, hst⟩ => ?_⟩
  · refine ⟨hp, hp ▸ nodup_nil, ⟨ht, fun a ha => by simp at ha⟩, ?_⟩
    rw [hpc]
    rfl
  · obtain ⟨u, hu, -, hproc, hstart, -, hi⟩ := step_spec h he
    cases hu.symm.trans hst
    refine ⟨⟨_, _, hi⟩, ?_⟩
    rw [inserted_append, hio, h.posted, hi.posted]
    cases l with
    | process req =>
      obtain ⟨k, rfl⟩ := hproc req rfl
      simp [Queues.after, inserted, processed]
    | start => simp [Queues.after, hstart rfl, inserted, processed]
    | _ => simp [Queues.after, inserted, processed]

theorem pass_of_run {p : List R} {b : List (Label R)} (h : Inv s p []) (hs : s.pc ≠ .idle) (hr : system.Run s b t)
    (hb : .finish ∉ b) : t.pc ≠ .idle ∧ ∃ rest, p = processed b ++ rest ∧ Inv t rest (inserted b) := by
  induction hr with
  | nil => exact ⟨hs, p, rfl, h⟩
  | @snoc u v b l _ hst ih =>
    rw [mem_append, mem_singleton, not_or] at hb
    obtain ⟨hn, rest, hp, hi⟩ := ih hb.1
    obtain ⟨he, hst⟩ := hst
    obtain ⟨w, hw, hpc, hproc, -, -, hiw⟩ := step_spec hi he
    cases hw.symm.trans hst
    refine ⟨hpc (fun e => hb.2 e.symm) hn, (Queues.after ⟨rest, inserted b⟩ l).rest, ?_, ?_⟩
    · rw [hp, processed_append, append_assoc]
      congr 1
      cases l with
      | process req =>
        obtain ⟨k, rfl⟩ := hproc req rfl
        simp [Queues.after, processed]
      | start => exact absurd he hn
      | _ => simp [Queues.after, processed]
    · cases l with
      | start => exact absurd he hn
      | _ => simpa [Queues.after, inserted] using hiw

/-- **The ring of pending requests.** In every run nothing that was freed is used; requests are processed in
the order in which they were inserted, once for each insertion; between passes the tail
holds a circle of exactly those not processed yet. A pass processes the requests that were in the ring at
its start, in order: what it has processed at any moment and the `rest` it has before it are these
requests, so that it ends when it has processed them; the ring holds what was inserted since. -/
theorem pending_ring (h : system.History ls s) : (∀ l, enabled s l → ∃ t, step s l = some t) ∧ s.posted.Nodup ∧
    inserted ls = processed ls ++ s.posted ∧ (s.pc = .idle → s.Holds s.posted) ∧
    ∀ s₁ b t, s.pc = .idle → s.tail ≠ none → s.start = some s₁ → system.Run s₁ b t → .finish ∉ b →
      ∃ rest, s.posted = processed b ++ rest ∧ t.posted = rest ++ inserted b ∧ t.Holds (inserted b) ∧
        ∀ first next, t.pc = .pass first next → next = rest.head? := by
  obtain ⟨⟨rest, ring, hi⟩, hio⟩ := inv_inductive.run h
  have hring : s.pc = .idle → rest = [] := by
    intro hpc
    have hd := hi.during
    rwa [hpc] at hd
  refine ⟨fun l he => ?_, hi.nodup, hio, fun hpc => ?_, fun s₁ b t hpc ht hs hr hb => ?_⟩
  · obtain ⟨t, ht, -⟩ := step_spec hi he
    exact ⟨t, ht⟩
  · rw [hi.posted, hring hpc]
    exact hi.holds
  · obtain ⟨u, hu, hn, hiu⟩ := hi.start hpc
    cases hu.symm.trans hs
    obtain ⟨-, k, hk, hit⟩ := pass_of_run hiu (hn ht) hr hb
    refine ⟨k, by rw [hi.posted, hring hpc, nil_append, hk], hit.posted, hit.holds, fun first next hp => ?_⟩
    have hd := hit.during
    rw [hp] at hd
    cases first with
    | none => exact hd.elim
    | some f => exact hd.1

def two : State ℕ := ⟨fun r => if r = 1 then some (some 2) else if r = 2 then some (some 1) else some none, some 2, .idle, [1, 2]⟩

/-- A pass over two requests: the handler of the first puts it back, the one of the second frees it. -/
theorem pending_ring_two : system.History [.insert 1, .insert 2] two ∧
    ∃ t : State ℕ, t.posted = [1] ∧ t.Holds [1] ∧ t.mem 2 = none := by
  have h := LTS.History.nil (T := system) (s := (⟨fun _ => some none, none, .idle, []⟩ : State ℕ)) ⟨rfl, rfl, rfl⟩
  have h := h.snoc (l := .insert 1) ⟨by simp [enabled], rfl⟩
  have h : system.History _ two := h.snoc (l := .insert 2) ⟨by simp [enabled], ?_⟩
  · obtain ⟨-, -, -, -, hp⟩ := pending_ring h
    have r := LTS.Run.nil (T := system) { two with tail := none, pc := .pass (some 1) (some 1) }
    have r := r.snoc (l := .process 1) ⟨by exact ⟨_, rfl⟩, rfl⟩
    have r := r.snoc (l := .insert 1) ⟨by simp [enabled, two], rfl⟩
    have r := r.snoc (l := .ret) ⟨by exact ⟨_, _, rfl⟩, rfl⟩
    have r := r.snoc (l := .process 2) ⟨by exact ⟨_, rfl⟩, rfl⟩
    have r := r.snoc (l := .own 2 none) ⟨by simp [enabled, two], rfl⟩
    obtain ⟨rest, hrest, hposted, hholds, -⟩ := hp _ _ _ rfl (by simp [two]) rfl r (by simp)
    obtain rfl : rest = [] := by simpa [two, processed] using hrest
    exact ⟨h, _, hposted, hholds, by rfl⟩
  · have hmem : two.mem = Function.update (Function.update (Function.update (Function.update (Function.update
        (fun _ => some none) 1 (some none)) 1 (some (some 1))) 2 (some none)) 2 (some (some 1))) 1 (some (some 2)) := by
      funext r
      by_cases h1 : r = 1 <;> by_cases h2 : r = 2 <;> simp_all [two]
    rw [show two = ⟨two.mem, some 2, .idle, [1, 2]⟩ from rfl, hmem]
    rfl

end Libuv.L5.PendingReqs
