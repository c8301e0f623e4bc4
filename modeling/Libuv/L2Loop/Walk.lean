import Libuv.L1Data.Queue
import Libuv.Core.LTS

/-!
# Walking the handles (`uv-common.c`)

`uv_walk` with every store of `queue.h`: it moves the loop's `handle_queue` to a head on its own
stack and puts the handles back one by one, each before its callback. The callbacks, and the
program between two walks, initialise handles, close them and walk the same loop again; the
calls of `uv_walk` that have not returned are a stack, the innermost first. A closing handle leaves the queue
in `uv__finish_close`, which the loop runs and no callback of a walk does.

`handles` is what an observer knows to be the loop's handles and `inQueue` what the loop's queue
holds; of each call it writes down both at the beginning (`present`, `entry`), what the private queue still
holds (`rest`), the callbacks made and the handles initialised since. The code reads the links alone.

* `walk_complete`: each call comes to an end after as many rounds as the queue had handles when it began,
  and has then called back each of these that is not internal once, in order. They are all handles of the loop
  but those the surrounding calls have yet to reach; in a call that is not nested, all of them.
* `walk_misses`: a nested walk does not see the rest of the outer one.
-/
namespace Libuv.L2.Walk

open List
open L1 (Queue.insertTail Queue.remove Queue.move Queue.empty Queue.head)

/-- The nodes of queues: the head in the loop, the heads on the stack, a handle's node. -/
inductive Node
  | handles
  | queue (n : ℕ)
  | handle (h : ℕ)
  deriving DecidableEq

/-- A call of `uv_walk`; `cur` is the handle whose callback is running. -/
structure Call where
  cur : Option ℕ
  present : List ℕ
  entry : List ℕ
  rest : List ℕ
  called : List ℕ
  added : List ℕ
  rounds : ℕ
  deriving DecidableEq

structure State where
  links : Links Node
  closing : ℕ → Bool
  handles : List ℕ
  inQueue : List ℕ
  calls : List Call

/-- What is left in the private queues of these calls. -/
def unreached (calls : List Call) : List ℕ := calls.flatMap Call.rest

namespace State
variable (s : State)

/-- Code of the program is running: no walk, or a callback of the innermost one. -/
def inUser : Bool :=
  match s.calls with
  | [] => true
  | c :: _ => c.cur.isSome

/-- `uv_walk` up to its loop.
mirrors uv-common.c:500-505 -/
def walk : State :=
  { s with
    links := Queue.move s.links .handles (.queue s.calls.length)
    inQueue := []
    calls := ⟨none, s.handles, s.inQueue, s.inQueue, [], [], 0⟩ :: s.calls }

/-- One round of the loop, up to the callback, or the return.
mirrors uv-common.c:506-516 -/
def next (internal : ℕ → Bool) : Option State :=
  match s.calls with
  | [] => none
  | c :: cs =>
    if Queue.empty s.links (.queue cs.length) then some { s with calls := cs }
    else
      match Queue.head s.links (.queue cs.length) with
      | .handle h =>
        let links := Queue.remove s.links (.handle h)
        let c := { c with rest := c.rest.tail, rounds := c.rounds + 1 }
        some { s with
          links := Queue.insertTail links .handles (.handle h)
          inQueue := s.inQueue ++ [h]
          calls := (if internal h then c else { c with cur := some h, called := c.called ++ [h] }) :: cs }
      | _ => none

/-- `uv__handle_init`, in the functions that initialise a handle. -/
def init (h : ℕ) : State :=
  { s with
    links := Queue.insertTail s.links .handles (.handle h)
    closing := Function.update s.closing h false
    handles := s.handles ++ [h]
    inQueue := s.inQueue ++ [h]
    calls := s.calls.map fun c => { c with added := c.added ++ [h] } }

/-- `uv_close`, which leaves the handle where it is. -/
def close (h : ℕ) : State := { s with closing := Function.update s.closing h true }

/-- `uv__finish_close`. -/
def finishClose (h : ℕ) : State :=
  { s with
    links := Queue.remove s.links (.handle h)
    handles := s.handles.erase h
    inQueue := s.inQueue.erase h }

end State

inductive Label
  | walk
  | next
  | ret
  | init (h : ℕ)
  | close (h : ℕ)
  | finishClose (h : ℕ)
  deriving DecidableEq

def step (internal : ℕ → Bool) (s : State) : Label → Option State
  | .walk => if s.inUser then some s.walk else none
  | .next => if s.inUser then none else s.next internal
  | .ret =>
    match s.calls with
    | [] => none
    | c :: cs => if c.cur.isSome then some { s with calls := { c with cur := none } :: cs } else none
  | .init h => if s.inUser ∧ h ∉ s.handles then some (s.init h) else none
  | .close h => if s.inUser ∧ h ∈ s.handles ∧ s.closing h = false then some (s.close h) else none
  | .finishClose h => if s.calls = [] ∧ h ∈ s.handles ∧ s.closing h then some (s.finishClose h) else none

/-- `QUEUE_INIT` of the loop's queue by `uv_loop_init`, in any memory. -/
def system (internal : ℕ → Bool) : LTS State Label where
  init s := ∃ m, s = ⟨L1.Queue.init m .handles, fun _ => false, [], [], []⟩
  step s l t := step internal s l = some t

/-! ## The queues -/

/-- Each call's head holds what the call has left. -/
def Heads (m : Links Node) : List Call → Prop
  | [] => True
  | c :: cs => Ring m (.queue cs.length) (c.rest.map .handle) ∧ Heads m cs

/-- The books of a call: `q` is in the loop's queue or was taken from it by an inner call, `beyond`
is what the surrounding calls have left. -/
structure Call.Tallied (internal : ℕ → Bool) (q beyond : List ℕ) (c : Call) : Prop where
  visited : ∃ visited, c.entry = visited ++ c.rest ∧ c.called = visited.filter (fun h => !internal h) ∧
    c.rounds = visited.length ∧ q.Perm (visited ++ c.added)
  present : c.present.Perm (c.entry ++ beyond)
  nodup : c.present.Nodup

def Tally (internal : ℕ → Bool) (q : List ℕ) : List Call → Prop
  | [] => True
  | c :: cs => c.Tallied internal q (unreached cs) ∧ Tally internal (q ++ c.rest) cs

structure Inv (internal : ℕ → Bool) (s : State) : Prop where
  loop : Ring s.links .handles (s.inQueue.map .handle)
  heads : Heads s.links s.calls
  perm : s.handles.Perm (s.inQueue ++ unreached s.calls)
  nodup : s.handles.Nodup
  tally : Tally internal s.inQueue s.calls

variable {internal : ℕ → Bool} {s t : State} {m m' : Links Node} {q : List ℕ} {c : Call} {cs : List Call} {h : ℕ}

@[simp] theorem unreached_nil : unreached [] = [] := rfl

@[simp] theorem unreached_cons : unreached (c :: cs) = c.rest ++ unreached cs := rfl
theorem Heads.congr (hh : Heads m cs) (hq : ∀ n < cs.length, m'.next (.queue n) = m.next (.queue n) ∧
      m'.prev (.queue n) = m.prev (.queue n))
    (hr : ∀ h ∈ unreached cs, m'.next (.handle h) = m.next (.handle h) ∧ m'.prev (.handle h) = m.prev (.handle h)) :
    Heads m' cs := by
  induction cs with
  | nil => trivial
  | cons c cs ih =>
    have away : ∀ x ∈ Node.queue cs.length :: c.rest.map .handle, m'.next x = m.next x ∧ m'.prev x = m.prev x := by
      intro x hx
      rcases mem_cons.1 hx with rfl | hx
      · exact hq _ (by simp)
      · obtain ⟨h, hh, rfl⟩ := mem_map.1 hx
        exact hr h (by simp [hh])
    refine ⟨hh.1.congr (fun x hx => (away x hx).1) fun x hx => (away x hx).2, ih hh.2 (fun n hn => hq n ?_) fun h hm => hr h ?_⟩
    · simp only [length_cons]
      omega
    · simp [hm]

@[simp] theorem heads_map {f : Call → Call} (hf : ∀ c, (f c).rest = c.rest) : Heads m (cs.map f) ↔ Heads m cs := by
  induction cs with
  | nil => rfl
  | cons c cs ih => simp [Heads, hf, ih]

theorem unreached_map {f : Call → Call} (hf : ∀ c, (f c).rest = c.rest) : unreached (cs.map f) = unreached cs := by
  induction cs with
  | nil => rfl
  | cons c cs ih => simp [hf, ih]

theorem Tally.init (ht : Tally internal q cs) :
    ∀ q', q'.Perm (q ++ [h]) → Tally internal q' (cs.map fun c => { c with added := c.added ++ [h] }) := by
  induction cs generalizing q with
  | nil => exact fun _ _ => trivial
  | cons c cs ih =>
    intro q' hq
    obtain ⟨⟨⟨visited, h1, h2, h3, h4⟩, h5, h6⟩, htail⟩ := ht
    refine ⟨⟨⟨visited, h1, h2, h3, ?_⟩, ?_, h6⟩, ih htail _ ?_⟩
    · rw [← append_assoc]
      exact hq.trans (h4.append_right [h])
    · rw [unreached_map (by simp)]
      exact h5
    · have : (q ++ [h] ++ c.rest).Perm (q ++ c.rest ++ [h]) := by
        simp only [append_assoc]
        exact perm_append_comm.append_left q
      exact (hq.append_right c.rest).trans this

/-! ## Steps -/

theorem Inv.walk (hi : Inv internal s) : Inv internal s.walk := by
  have hn : Node.queue s.calls.length ∉ Node.handles :: s.inQueue.map .handle := by simp
  obtain ⟨h1, h2⟩ := L1.Queue.move_ring hi.loop hn
  have hnd : (s.inQueue ++ unreached s.calls).Nodup := hi.perm.nodup_iff.1 hi.nodup
  refine ⟨h1, ⟨h2, hi.heads.congr (fun n hlt => ?_) fun h hm => ?_⟩, hi.perm, hi.nodup, ⟨⟨⟨[], ?_⟩, hi.perm, hi.nodup⟩, hi.tally⟩⟩
  · refine L1.Queue.move_away hi.loop hn ?_ (by simp)
    simp [hlt.ne]
  · refine L1.Queue.move_away hi.loop hn (by simp) ?_
    have : h ∉ s.inQueue := fun hq => (nodup_append.1 hnd).2.2 h hq h hm rfl
    simpa using this
  · simp [State.walk]

/-- **A round** puts the first handle of the private queue back, and with nothing left the call returns. -/
theorem Inv.next (hi : Inv internal s) (hc : s.calls = c :: cs) :
    ∃ t, s.next internal = some t ∧ Inv internal t ∧ (c.rest = [] ∧ t = { s with calls := cs } ∨
        ∃ h c', c.rest = h :: c'.rest ∧ t.calls = c' :: cs ∧ c'.rounds = c.rounds + 1 ∧ c'.present = c.present ∧
          c'.entry = c.entry ∧ t.handles = s.handles) := by
  obtain ⟨hloop, hheads, hperm, hnodup, htally⟩ := hi
  rw [hc] at hheads hperm htally
  obtain ⟨hring, hheads⟩ := hheads
  obtain ⟨⟨⟨visited, h1, h2, h3, h4⟩, h5, h6⟩, htally⟩ := htally
  unfold State.next
  rw [hc]
  dsimp only
  cases hrest : c.rest with
  | nil =>
    rw [hrest] at hring htally
    rw [if_pos ((L1.Queue.empty_iff hring).2 rfl)]
    refine ⟨_, rfl, ⟨hloop, hheads, by simpa [hrest] using hperm, hnodup, by simpa using htally⟩, .inl ⟨rfl, rfl⟩⟩
  | cons h rest =>
    rw [hrest] at hring htally h1
    rw [if_neg (by simp [L1.Queue.empty_iff hring])]
    have hhead : Queue.head s.links (.queue cs.length) = .handle h := L1.Queue.head_eq hring
    rw [hhead]
    have hnd : (s.inQueue ++ h :: (rest ++ unreached cs)).Nodup := by simpa [hrest] using hperm.nodup_iff.1 hnodup
    obtain ⟨hh, hnd'⟩ := nodup_cons.1 (perm_middle.nodup_iff.1 hnd)
    simp only [mem_append, not_or] at hh
    have hdis := (nodup_append.1 hnd').2.2
    have hrestd := (nodup_append.1 (nodup_append.1 hnd').2.1).2.2
    -- the loop's queue and the private one once `h` is out of both
    have hring' : Ring (Queue.remove s.links (.handle h)) (.queue cs.length) (rest.map .handle) :=
      L1.Queue.remove_ring (l := []) hring
    have hloop' : Ring (Queue.remove s.links (.handle h)) .handles (s.inQueue.map .handle) := by
      refine L1.Queue.remove_other (l := []) hring hloop fun x hx hx' => ?_
      rcases mem_cons.1 hx with rfl | hx
      · simp at hx'
      · obtain ⟨g, hg, rfl⟩ := mem_map.1 hx
        rcases show g = h ∨ g ∈ rest by simpa using hx' with rfl | hg'
        · exact hh.1 hg
        · exact hdis g hg g (by simp [hg']) rfl
    have hq : Node.handle h ∉ Node.handles :: s.inQueue.map .handle := by simpa using hh.1
    have away : ∀ x, x ∉ Node.queue cs.length :: (h :: rest).map .handle → x ∉ Node.handles :: s.inQueue.map .handle →
        (Queue.insertTail (Queue.remove s.links (.handle h)) .handles (.handle h)).next x = s.links.next x ∧
        (Queue.insertTail (Queue.remove s.links (.handle h)) .handles (.handle h)).prev x = s.links.prev x := by
      intro x h1 h2
      obtain ⟨a1, a2⟩ := L1.Queue.remove_away (l := []) hring h1
      obtain ⟨b1, b2⟩ := L1.Queue.insertTail_away hloop' (x := x) (q := .handle h) (fun e => h1 (by simp [e])) h2
      exact ⟨b1.trans a1, b2.trans a2⟩
    have hheads' : Heads (Queue.insertTail (Queue.remove s.links (.handle h)) .handles (.handle h)) cs := by
      refine hheads.congr (fun n hlt => away _ ?_ (by simp)) fun g hg => away _ ?_ ?_
      · simpa using hlt.ne
      · have h1 : g ≠ h := fun e => hh.2.2 (e ▸ hg)
        have h2 : g ∉ rest := fun hr => hrestd g hr g hg rfl
        simp [h1, h2]
      · have : g ∉ s.inQueue := fun hq => hdis g hq g (by simp [hg]) rfl
        simpa using this
    have hnew : Ring (Queue.insertTail (Queue.remove s.links (.handle h)) .handles (.handle h)) (.queue cs.length)
        (rest.map .handle) := by
      refine L1.Queue.insertTail_other hloop' hring' fun x hx => ?_
      rcases mem_cons.1 hx with rfl | hx
      · simp
      · obtain ⟨g, hg, rfl⟩ := mem_map.1 hx
        have h1 : g ≠ h := fun e => hh.2.1 (e ▸ hg)
        have h2 : g ∉ s.inQueue := fun hq => hdis g hq g (by simp [hg]) rfl
        simp [h1, h2]
    have hloopn : Ring (Queue.insertTail (Queue.remove s.links (.handle h)) .handles (.handle h)) .handles
        ((s.inQueue ++ [h]).map .handle) := by
      simpa using L1.Queue.insertTail_ring hloop' hq
    have hq' : (s.inQueue ++ [h]).Perm (visited ++ [h] ++ c.added) := by
      have : (visited ++ c.added ++ [h]).Perm (visited ++ [h] ++ c.added) := by
        simp only [append_assoc]
        exact perm_append_comm.append_left visited
      exact (h4.append_right [h]).trans this
    refine ⟨_, rfl, ?_, ?_⟩
    · split
      · next hint =>
        refine ⟨hloopn, ⟨hnew, hheads'⟩, by simpa [hrest] using hperm, hnodup, ⟨⟨⟨visited ++ [h], ?_⟩, h5, h6⟩, ?_⟩⟩
        · exact ⟨by simp [h1], by simp [h2, hint], by simp [h3], hq'⟩
        · simpa using htally
      · next hint =>
        refine ⟨hloopn, ⟨hnew, hheads'⟩, by simpa [hrest] using hperm, hnodup, ⟨⟨⟨visited ++ [h], ?_⟩, h5, h6⟩, ?_⟩⟩
        · exact ⟨by simp [h1], by simp [h2, hint], by simp [h3], hq'⟩
        · simpa using htally
    · refine .inr ⟨h, _, ?_, rfl, ?_⟩
      · split <;> simp
      · split <;> simp

theorem Inv.init (hi : Inv internal s) (hh : h ∉ s.handles) : Inv internal (s.init h) := by
  obtain ⟨hloop, hheads, hperm, hnodup, htally⟩ := hi
  have hmem : h ∉ s.inQueue ++ unreached s.calls := fun hm => hh (hperm.mem_iff.2 hm)
  simp only [mem_append, not_or] at hmem
  have hnd : (s.inQueue ++ unreached s.calls).Nodup := hperm.nodup_iff.1 hnodup
  have hq : Node.handle h ∉ Node.handles :: s.inQueue.map .handle := by simpa using hmem.1
  have hrest : ∀ c : Call, { c with added := c.added ++ [h] }.rest = c.rest := fun _ => rfl
  refine ⟨?_, ?_, ?_, ?_, htally.init _ (.refl _)⟩
  · simpa [State.init] using L1.Queue.insertTail_ring hloop hq
  · refine (heads_map hrest).2 (hheads.congr (fun n _ => ?_) fun g hg => ?_)
    · exact L1.Queue.insertTail_away hloop (by simp) (by simp)
    · have h1 : g ≠ h := fun e => hmem.2 (e ▸ hg)
      have h2 : g ∉ s.inQueue := fun hq => (nodup_append.1 hnd).2.2 g hq g hg rfl
      exact L1.Queue.insertTail_away hloop (by simpa using h1) (by simpa using h2)
  · simp only [State.init, unreached_map hrest, append_assoc]
    refine (hperm.append_right [h]).trans ?_
    rw [append_assoc]
    exact perm_append_comm.append_left s.inQueue
  · exact nodup_append.2 ⟨hnodup, by simp, fun a ha b hb e => hh (by rwa [← mem_singleton.1 hb, ← e])⟩

theorem Inv.finishClose (hi : Inv internal s) (hc : s.calls = []) (hh : h ∈ s.handles) :
    Inv internal (s.finishClose h) := by
  obtain ⟨hloop, -, hperm, hnodup, -⟩ := hi
  have hp : s.handles.Perm s.inQueue := by simpa [hc] using hperm
  have hq := hp.nodup_iff.1 hnodup
  obtain ⟨l, k, hl⟩ := append_of_mem (hp.mem_iff.1 hh)
  have hout : h ∉ l := fun hm => by
    rw [hl] at hq
    exact (nodup_append.1 hq).2.2 h hm h (by simp) rfl
  have herase : s.inQueue.erase h = l ++ k := by
    rw [hl, erase_append_right _ hout, erase_cons_head]
  have hring : Ring s.links .handles (l.map .handle ++ .handle h :: k.map .handle) := by simpa [hl] using hloop
  refine ⟨?_, ?_, ?_, hnodup.erase h, ?_⟩
  · simpa [State.finishClose, herase] using L1.Queue.remove_ring hring
  · simp [State.finishClose, hc, Heads]
  · simpa [State.finishClose, hc] using hp.erase h
  · simp [State.finishClose, hc, Tally]

theorem inv_inductive : (system internal).Inductive (Inv internal) where
  init := by
    intro s hs
    obtain ⟨m, rfl⟩ := hs
    exact ⟨L1.Queue.init_ring, trivial, .nil, nodup_nil, trivial⟩
  step := by
    intro s lab t hi h
    cases lab with
    | walk =>
      obtain ⟨-, rfl⟩ : _ ∧ s.walk = t := by simpa [system, step] using h
      exact hi.walk
    | next =>
      obtain ⟨-, h⟩ : _ ∧ s.next internal = some t := by simpa [system, step] using h
      cases hc : s.calls with
      | nil => simp [State.next, hc] at h
      | cons c cs =>
        obtain ⟨u, hu, hi', -⟩ := hi.next hc
        rw [hu] at h
        cases h
        exact hi'
    | ret =>
      simp only [system, step] at h
      split at h
      · cases h
      · next c cs hc =>
        obtain ⟨-, rfl⟩ : c.cur.isSome ∧ _ = t := by simpa using h
        obtain ⟨hloop, hheads, hperm, hnodup, htally⟩ := hi
        rw [hc] at hheads hperm htally
        obtain ⟨⟨h1, h2, h3⟩, h4⟩ := htally
        exact ⟨hloop, hheads, hperm, hnodup, ⟨h1, h2, h3⟩, h4⟩
    | init g =>
      obtain ⟨⟨-, hg⟩, rfl⟩ : (_ ∧ g ∉ s.handles) ∧ s.init g = t := by simpa [system, step] using h
      exact hi.init hg
    | close g =>
      obtain ⟨-, rfl⟩ : _ ∧ s.close g = t := by simpa [system, step] using h
      exact ⟨hi.loop, hi.heads, hi.perm, hi.nodup, hi.tally⟩
    | finishClose g =>
      obtain ⟨⟨hc, hg, -⟩, rfl⟩ : (s.calls = [] ∧ g ∈ s.handles ∧ _) ∧ s.finishClose g = t := by
        simpa [system, step] using h
      exact hi.finishClose hc hg

/-! ## Completeness -/

theorem Call.Tallied.entry {beyond : List ℕ} (ht : c.Tallied internal q beyond) :
    c.entry.Nodup ∧ ∀ h, h ∈ c.entry ↔ h ∈ c.present ∧ h ∉ beyond := by
  have hnd := ht.present.nodup_iff.1 ht.nodup
  obtain ⟨h1, -, h3⟩ := nodup_append.1 hnd
  refine ⟨h1, fun h => ?_⟩
  rw [ht.present.mem_iff, mem_append]
  constructor
  · exact fun hm => ⟨.inl hm, fun hb => h3 h hm h hb rfl⟩
  · rintro ⟨hm | hm, hn⟩
    · exact hm
    · exact absurd hm hn

theorem Call.Tallied.done {beyond : List ℕ} (ht : c.Tallied internal q beyond) (hr : c.rest = []) :
    c.called = c.entry.filter (fun h => !internal h) ∧ q.Perm (c.entry ++ c.added) := by
  obtain ⟨visited, h1, h2, -, h4⟩ := ht.visited
  rw [hr, append_nil] at h1
  subst h1
  exact ⟨h2, h4⟩

/-- **A walk visits what its queue held.** A call of `uv_walk`, nested or not, has before it the handles of the
loop that the surrounding calls have already put back, each once; there are no others but those
the surrounding calls have yet to reach. Outside of its callbacks it goes on: a round takes it
one handle further, up to as many rounds as there are handles, or it returns. It then has called back each of its handles
that is not internal, once and in order, and the loop's queue holds its handles and those
initialised since, which is all of the loop's handles if no other call is running. -/
theorem walk_complete (h : (system internal).Reachable s) (hc : s.calls = c :: cs) :
    (c.entry.Nodup ∧ ∀ h, h ∈ c.entry ↔ h ∈ c.present ∧ h ∉ unreached cs) ∧
    c.called <+: c.entry.filter (fun h => !internal h) ∧ c.rounds ≤ c.entry.length ∧
    (c.cur = none → ∃ t, step internal s .next = some t ∧
      (t.calls = cs ∧ c.called = c.entry.filter (fun h => !internal h) ∧
          Ring t.links .handles (t.inQueue.map .handle) ∧ t.inQueue.Perm (c.entry ++ c.added) ∧
          (cs = [] → t.inQueue.Perm t.handles) ∨
        ∃ c', t.calls = c' :: cs ∧ c'.rounds = c.rounds + 1 ∧ c'.present = c.present ∧ c'.entry = c.entry)) := by
  have hi := inv_inductive.reachable h
  have htally := hi.tally
  rw [hc] at htally
  obtain ⟨ht, -⟩ := htally
  refine ⟨ht.entry, ?_, ?_, fun hcur => ?_⟩
  · obtain ⟨visited, h1, h2, -⟩ := ht.visited
    rw [h1, h2, filter_append]
    exact List.prefix_append _ _
  · obtain ⟨visited, h1, -, h3, -⟩ := ht.visited
    simp [h1, h3]
  · obtain ⟨t, ht', hi', hcase⟩ := hi.next hc
    refine ⟨t, by simp [step, State.inUser, hc, hcur, ht'], ?_⟩
    rcases hcase with ⟨hr, rfl⟩ | ⟨h, c', -, h1, h2, h3, h4, -⟩
    · obtain ⟨h1, h2⟩ := ht.done hr
      refine .inl ⟨rfl, h1, hi'.loop, h2, ?_⟩
      rintro rfl
      simpa using hi'.perm.symm
    · exact .inr ⟨c', h1, h2, h3, h4⟩

/-- Two handles, the second internal, and a third one initialised in the callback. -/
theorem walk_complete_three : ∃ s c, (system (· == 1)).Reachable s ∧ s.calls = [c] ∧ c.cur = none ∧ c.called = [0] ∧
    c.entry = [0, 1] ∧ ∃ t, step (· == 1) s .next = some t ∧ t.inQueue.Perm [0, 1, 2] := by
  obtain ⟨s, c, hs, hc, hcur, hcalled, hentry, hadded, hnext⟩ : ∃ (s : State) (c : Call),
      [Label.init 0, .init 1, .walk, .next, .init 2, .ret, .next].foldlM (step (· == 1))
        ⟨L1.Queue.init ⟨id, id⟩ .handles, fun _ => false, [], [], []⟩ = some s ∧
      s.calls = [c] ∧ c.cur = none ∧ c.called = [0] ∧ c.entry = [0, 1] ∧ c.added = [2] ∧
      ∀ t, step (· == 1) s .next = some t → t.calls = [] := by
    refine ⟨_, _, rfl, rfl, rfl, rfl, rfl, rfl, fun t ht => ?_⟩
    cases ht
    rfl
  have h : (system (· == 1)).Reachable s :=
    (LTS.Reachable.init (T := system _) ⟨⟨id, id⟩, rfl⟩).foldlM (fun _ _ _ h => h) hs
  refine ⟨s, c, h, hc, hcur, hcalled, hentry, ?_⟩
  obtain ⟨t, ht, ⟨-, -, -, hp, -⟩ | ⟨c', hc', -⟩⟩ := (walk_complete h hc).2.2.2 hcur
  · rw [hentry, hadded] at hp
    exact ⟨t, ht, hp⟩
  · rw [hnext t ht] at hc'
    cases hc'

/-- Two handles; the first one's callback walks the loop. The nested walk is over before the second
handle, which the outer walk has yet to put back, has been called back. -/
theorem walk_misses : ¬ ∀ (internal : ℕ → Bool) (s t : State) (c : Call) (cs : List Call), (system internal).Reachable s →
    s.calls = c :: cs → step internal s .next = some t → t.calls = cs →
    ∀ h ∈ c.present, internal h = false → h ∈ c.called := by
  intro hall
  obtain ⟨s, c, cs, t, hs, hc, ht, hcs, hp, hcalled⟩ : ∃ (s : State) (c : Call) (cs : List Call) (t : State),
      [Label.init 0, .init 1, .walk, .next, .walk, .next, .ret].foldlM (step fun _ => false)
        ⟨L1.Queue.init ⟨id, id⟩ .handles, fun _ => false, [], [], []⟩ = some s ∧
      s.calls = c :: cs ∧ step (fun _ => false) s .next = some t ∧ t.calls = cs ∧ c.present = [0, 1] ∧
      c.called = [0] := ⟨_, _, _, _, rfl, rfl, rfl, rfl, rfl, rfl⟩
  have h : (system fun _ => false).Reachable s :=
    (LTS.Reachable.init (T := system _) ⟨⟨id, id⟩, rfl⟩).foldlM (fun _ _ _ h => h) hs
  have := hall _ s t c cs h hc ht hcs 1 (by simp [hp]) rfl
  rw [hcalled] at this
  simp at this

end Libuv.L2.Walk
