import Libuv.L3Stream.Lasting
import Libuv.L3Stream.WriteSize

/-!
# Writes of blocking streams

Where `uv_write2` adds a request to a queue that is not empty, it asserts that the stream does
not have `UV_HANDLE_BLOCKING_WRITES`: such a stream never has anything in its queue. That is
so: `uv__write` goes on until the request is written or fails. But the branch is chosen by
`write_queue_size`, and the bytes left of a failed request are counted there up to its callback.

* `assertion_iff`: when the assertion fails.
* `write_after_error`: a write behind one that failed.
-/
namespace Libuv.L3.Stream

open State (uvWriteLoop)

variable {s : State} {iovmax : ℕ}

/-- A write is submitted while no connect is in progress. -/
def NotConnecting (s : State) : Label → Prop
  | .write .. => s.connectReq = none
  | _ => True

/-! ## The queue -/

def Emptied (c : WriteEnd) : Prop := c.blockingWrites = true → c.writeQueue = []

theorem ioStartOut_empties (hs : Emptied s.writeEnd) : Leads Emptied s.ioStartOut := Sat.ite (fun _ => trivial) fun _ => hs

/-- **`uv__write`** of a blocking stream with one request goes on until it is done or failed. -/
theorem uvWriteLoop_empties {outs : List Outcome} (hq : s.flags.blockingWrites = true → s.writeQueue.length ≤ 1) :
    Leads Emptied (uvWriteLoop iovmax outs s) := by
  induction outs generalizing s with
  | nil =>
    unfold uvWriteLoop
    cases h : s.writeQueue with
    | nil => exact fun _ => h
    | cons req rest => exact trivial
  | cons o outs ih =>
    unfold uvWriteLoop
    cases h : s.writeQueue with
    | nil => exact fun _ => h
    | cons req rest =>
      have hrest : s.flags.blockingWrites = true → rest = [] := fun hb => by
        have hlen := hq hb
        rw [h, List.length_cons] at hlen
        exact List.eq_nil_of_length_eq_zero (by omega)
      refine Sat.bind ((State.uvTryWrite_sat (T := anyTerms iovmax) False.elim).mono (fun _ hp => hp) fun _ _ => trivial) fun p hp => ?_
      obtain ⟨more, -, ⟨n, -, rfl⟩ | ⟨hneg, ht⟩⟩ := hp
      · simp only
        refine Sat.bind (State.writeReqUpdate_sat.mono (fun _ hp => hp) fun _ _ => trivial) fun p hp => ?_
        obtain ⟨bs, k, -, -, -, he⟩ := hp
        obtain ⟨done, p⟩ := p
        cases he
        simp only
        refine Sat.ite (fun _ => ?_) fun _ => ?_
        · rw [State.writeReqFinish_eq]
          exact hrest
        · refine Sat.ite (fun hb => ih fun _ => ?_) fun hb => ioStartOut_empties fun hb' => absurd hb' hb
          simp [hrest hb]
      · obtain ⟨n, t⟩ := p
        obtain rfl : t = { s with sent := s.sent ++ more } := ht
        simp only
        rw [if_neg (by simpa using hneg)]
        refine Sat.ite (fun _ => ?_) fun _ => Sat.ite (fun _ => ih hq) fun hb => ioStartOut_empties fun hb' => absurd hb' hb
        rw [State.writeReqFinish_eq, State.ioStopOut_eq]
        exact hrest

theorem uvWrite_empties {outs : List Outcome} (hq : s.flags.blockingWrites = true → s.writeQueue.length ≤ 1) :
    Leads Emptied (s.uvWrite iovmax outs) := Sat.ite (fun _ => trivial) fun _ => uvWriteLoop_empties hq

theorem write2_empties (hs : Emptied s.writeEnd) (hreq : s.connectReq = none) {bufs : List Buf} {send : Option Bool}
    {cb alloc : Bool} {outs : List Outcome} : Leads Emptied (s.write2 iovmax bufs send cb alloc outs) := by
  refine Sat.ite (fun _ => trivial) fun _ => Sat.ite (fun _ => hs) fun _ => Sat.ite (fun _ => hs) fun _ => ?_
  refine Sat.ite (fun h => ?_) fun _ => Sat.ite (fun _ => uvWrite_empties fun hb => ?_) fun _ => ?_
  · rw [show (s.writeSubmit bufs send cb).connectReq = none from hreq] at h
    cases h
  · have hq : s.writeQueue = [] := hs hb
    simp [State.writeSubmit, hq]
  · exact Sat.ite (fun _ => trivial) fun hb => ioStartOut_empties fun hb' => absurd hb' hb

theorem emptied_lasting : Lasting iovmax NotConnecting Emptied where
  flush _ _ := fun _ => rfl
  drain s t ht hs := by
    rw [ht.frame]
    exact hs
  closing _ hs := hs
  unshut _ _ hs := hs
  shutdown _ _ hs := hs
  uvWrite s outs hs := uvWrite_empties fun hb => by simp [show s.writeQueue = [] from hs hb]
  write _ _ _ _ _ _ hreq hs := write2_empties hs hreq

/-- The queue of a blocking stream is empty, its size is what is outstanding, and what is
outstanding is left of failed requests. -/
theorem emptied_run : ((system iovmax).restrict NotConnecting).Inductive
    fun s => (Wf (anyTerms iovmax) s ∧ Sized s.view ∧ Marked s.view) ∧ Emptied s.writeEnd :=
  emptied_lasting.run (fun _ _ _ _ => rfl) (I := fun r => Sized r ∧ Marked r) (fun _ _ _ => ⟨rfl, nofun, nofun, nofun⟩)
    fun _ _ hm h => ⟨h.1.micro hm, h.2.micro hm⟩

/-! ## The assertion -/

/-- The bytes that are left of failed requests whose callbacks have not started. -/
def State.failedSize (s : State) : ℕ := unwritten (failed (s.writeCompletedQueue ++ s.pq))

/-- `uv_write2` comes to its assertion about `UV_HANDLE_BLOCKING_WRITES`.
mirrors unix/stream.c:1509-1565 -/
structure State.Asserts (s : State) (bufs : List Buf) (send : Option Bool) (alloc : Bool) : Prop where
  nonempty : bufs ≠ []
  accepts : s.AcceptsWrite bufs send alloc
  connected : s.connectReq = none
  queue : s.writeQueueSize ≠ 0

/-- The assertion of `uv_write2` fails. -/
def AssertionFails (s : State) : Label → Prop
  | .write bufs send _ alloc _ => s.Asserts bufs send alloc ∧ s.flags.blockingWrites = true
  | _ => False

/-- No write is accepted while failed requests wait for their callbacks with bytes left. -/
def NoneFailed (s : State) : Label → Prop
  | .write bufs send _ alloc _ => bufs ≠ [] → s.AcceptsWrite bufs send alloc → s.failedSize % sizeMax = 0
  | _ => True

theorem blocking_size (h : ((system iovmax).restrict NotConnecting).Reachable s) (hb : s.flags.blockingWrites = true) :
    s.writeQueueSize = s.failedSize % sizeMax := by
  obtain ⟨⟨-, hsized, hmarked⟩, hempty⟩ := emptied_run.reachable h
  have hq : unwritten s.view.queue = 0 := by
    rw [show s.view.queue = [] from hempty hb]
    rfl
  calc s.writeQueueSize = s.view.outstanding % sizeMax := hsized
    _ = s.failedSize % sizeMax := by
      rw [hmarked.outstanding, hq, Nat.zero_add]
      rfl

/-- **The assertion** about blocking streams: in every run of such a stream whose writes are
submitted while no connect is in progress, it holds in a step if and only if no write is
accepted there while failed requests wait for their callbacks with bytes left. -/
theorem assertion_iff (h : ((system iovmax).restrict NotConnecting).Reachable s) (hb : s.flags.blockingWrites = true)
    {l : Label} (hl : NotConnecting s l) : ¬ AssertionFails s l ↔ NoneFailed s l := by
  have hsize := blocking_size h hb
  cases l with
  | write bufs send cb alloc outs =>
    refine ⟨fun hf hne ha => ?_, fun hn hf => ?_⟩
    · by_contra h0
      exact hf ⟨⟨hne, ha, hl, by rwa [hsize]⟩, hb⟩
    · exact hf.1.queue (by rw [hsize, hn hf.1.nonempty hf.1.accepts])
  | _ => exact ⟨fun _ => trivial, fun _ => id⟩

/-- The kernel takes one write in two parts, and the next is submitted before its callback. -/
theorem assertion_iff_two : ∃ s, ((system 1024).restrict NotConnecting).Reachable s ∧ s.writeCompletedQueue ≠ [] ∧
    ¬ AssertionFails s (.write [[3]] none true true []) := by
  have h0 : ((system 1024).restrict NotConnecting).Reachable (streamInit .tty false true) := .init ⟨_, _, _, rfl⟩
  have h1 := h0.next (.open 3 true true) ⟨trivial, rfl⟩
  have h2 := h1.next (.write [[1], [2]] none true true [.wrote 1, .again, .wrote 1]) ⟨rfl, rfl⟩
  exact ⟨_, h2, nofun, (assertion_iff h2 rfl (l := .write [[3]] none true true []) rfl).2 fun _ _ => by decide⟩

/-- A write on a blocking TTY fails with `EPIPE`, and the next comes before its callback: the
byte that was not written is counted, and the assertion fails. -/
theorem write_after_error : ∃ s, ((system 1024).restrict NotConnecting).Reachable s ∧ s.type = .tty ∧
    s.flags.blockingWrites = true ∧ s.connectReq = none ∧ s.writeQueue = [] ∧
    AssertionFails s (.write [[2]] none true true []) ∧ step 1024 s (.write [[2]] none true true []) = .error .crash := by
  have h0 : ((system 1024).restrict NotConnecting).Reachable (streamInit .tty false true) := .init ⟨_, _, _, rfl⟩
  have h1 := h0.next (.open 3 true true) ⟨trivial, rfl⟩
  have h2 := h1.next (.write [[1]] none true true [.error (-32)]) ⟨rfl, (rfl : step 1024 _ _ = .ok _)⟩
  exact ⟨_, h2, rfl, rfl, rfl, rfl, ⟨⟨nofun, ⟨rfl, nofun⟩, rfl, nofun⟩, rfl⟩, rfl⟩

end Libuv.L3.Stream
