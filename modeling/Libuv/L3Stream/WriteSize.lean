import Libuv.L3Stream.WriteOrder

/-!
# What `write_queue_size` counts

The size is what is left of the queued requests and of those that failed and were not called
yet, so none of the three assertions about it can fail. It is a `size_t`, and
`uv__stream_destroy` runs callbacks after it has flushed the queue: the runs are those that
keep what is outstanding in range and in which no write is accepted there.

* `write_queue_size`: the size in every such run, and that its steps do not fail there.
* `size_lost`: the assertions fail in other runs.
-/
namespace Libuv.L3.Stream

open List
open State (offered)

variable {T : Terms} {r r' : Reqs}

def unwritten (l : List WriteReq) : ℕ := (l.map fun q => q.bytes.length).sum

def failed (l : List WriteReq) : List WriteReq := l.filter fun q => q.error ≠ 0

@[simp] theorem unwritten_append (l m : List WriteReq) : unwritten (l ++ m) = unwritten l + unwritten m := by simp [unwritten]

/-- A queued request has not failed, and one that completed without an error has nothing left. -/
structure Marked (r : Reqs) : Prop where
  queued : ∀ q ∈ r.queue, q.error = 0
  completed : ∀ q ∈ r.completed, q.error = 0 → q.bytes = []
  running : ∀ q ∈ r.running, q.error = 0 → q.bytes = []

theorem unwritten_failed {l : List WriteReq} (h : ∀ q ∈ l, q.error = 0 → q.bytes = []) : unwritten l = unwritten (failed l) := by
  induction l with
  | nil => rfl
  | cons q l ih =>
    have hl := ih fun x hx => h x (mem_cons_of_mem _ hx)
    unfold unwritten failed at *
    by_cases he : q.error = 0
    · rw [filter_cons_of_neg (by simp [he]), ← hl]
      simp [h q mem_cons_self he]
    · rw [filter_cons_of_pos (by simp [he]), map_cons, map_cons, sum_cons, sum_cons, hl]

theorem Marked.outstanding (h : Marked r) : r.outstanding = unwritten r.queue + unwritten (failed (r.completed ++ r.running)) := by
  have hdone : ∀ q ∈ r.completed ++ r.running, q.error = 0 → q.bytes = [] := fun q hq =>
    (mem_append.1 hq).elim (h.completed q) (h.running q)
  rw [← unwritten_failed hdone, ← unwritten_append, ← append_assoc]
  rfl

theorem Marked.complete (h : Marked r) {q q' : WriteReq} {rest : List WriteReq} (hq : r.queue = q :: rest)
    (hq' : q'.error = 0 → q'.bytes = []) : Marked { r with queue := rest, completed := r.completed ++ [q'] } where
  queued x hx := h.queued x (by simp [hq, hx])
  completed x hx := by
    rcases mem_append.1 hx with hx | hx
    · exact h.completed x hx
    · rw [mem_singleton] at hx
      subst hx
      exact hq'
  running := h.running

theorem Marked.micro (h : Marked r) (hm : Micro T r r') : Marked r' := by
  cases hm with
  | submit =>
    refine { h with queued := fun x hx => ?_ }
    rcases mem_append.1 hx with hx | hx
    · exact h.queued x hx
    · rw [mem_singleton] at hx
      subst hx
      rfl
  | @wrote q rest n k bs hq =>
    refine { h with queued := fun x hx => ?_ }
    rcases mem_cons.1 hx with rfl | hx
    · exact h.queued q (by simp [hq])
    · exact h.queued x (by simp [hq, hx])
  | finish hq hdone => exact h.complete hq fun _ => WriteReq.finished_bytes hdone
  | fail hq he => exact h.complete hq fun h0 => absurd h0 he.ne
  | flush =>
    refine ⟨nofun, fun x hx => ?_, h.running⟩
    rcases mem_append.1 hx with hx | hx
    · exact h.completed x hx
    · obtain ⟨q, -, rfl⟩ := mem_map.1 hx
      exact fun h0 => absurd h0 (by decide : UV_ECANCELED ≠ 0)
  | begin => exact ⟨h.queued, nofun, h.completed⟩
  | pop hq => exact ⟨h.queued, h.completed, fun x hx => h.running x (by simp [hq, hx])⟩
  | leak | tryWrite | spill | connect | lose | connected | shutdown | shut => exact ⟨h.queued, h.completed, h.running⟩

/-! ## The accounting -/

/-- The size is what is outstanding, and what is outstanding is marked. -/
structure Accounted (r : Reqs) : Prop where
  counted : Counted r
  marked : Marked r

theorem Accounted.micro (hB : T.bounded) (hm : Micro T r r') (h : Accounted r) : Accounted r' where
  counted := h.counted.micro hB hm
  marked := h.marked.micro hm

theorem Counted.not_fails (h : Counted r) (hT : T.tidy) {e : Fault} (hf : r.Fails T e) : e = .stuck ∨ e = .crash := by
  have hshort : ¬ r.Short := by
    intro ⟨q, hq, hlt⟩
    rw [h.size] at hlt
    exact absurd (single_le_sum (fun _ _ => Nat.zero_le _) _ (mem_map_of_mem hq)) (not_le.2 hlt)
  cases e with
  | stuck => exact .inl rfl
  | crash => exact .inr rfl
  | reqUpdate | reqSize => exact absurd hf hshort
  | destroySize =>
    obtain ⟨h1, h2, h3, hne⟩ := hf hT
    refine absurd ?_ hne
    rw [h.size, Reqs.outstanding, h1, h2, h3]
    rfl

/-- The runs that keep what is outstanding in range and write nothing behind the last flush. -/
def counting (iovmax : ℕ) : Terms := { iovmax := iovmax, lossless := False, bounded := True, tidy := True, dying := False }

theorem accounted_run {iovmax : ℕ} : ((system iovmax).restrict fun s l => Fits s l ∧ Tidy s l).Inductive
    fun s => Wf (counting iovmax) s ∧ Accounted s.view :=
  inductive_of_micros (T := counting iovmax) id (fun _ _ h => ⟨fun _ => h.2, nofun, fun _ => h.1, nofun, nofun⟩)
    (fun _ _ _ => ⟨⟨rfl, (by decide : 0 < sizeMax)⟩, nofun, nofun, nofun⟩) fun _ _ hm h => h.micro trivial hm

/-- **`write_queue_size`** is what is left of the queued requests and of the failed ones that
were not called yet, and no step fails an assertion about it. -/
theorem write_queue_size {iovmax : ℕ} {s : State}
    (h : ((system iovmax).restrict fun s l => Fits s l ∧ Tidy s l).Reachable s) :
    s.writeQueueSize = unwritten s.writeQueue + unwritten (failed (s.writeCompletedQueue ++ s.pq)) ∧
    ∀ l e, Fits s l → Tidy s l → step iovmax s l = .error e → e ≠ .reqUpdate ∧ e ≠ .reqSize ∧ e ≠ .destroySize := by
  obtain ⟨hw, hi⟩ := accounted_run.reachable h
  refine ⟨hi.counted.size.trans hi.marked.outstanding, fun l e hfit htidy hst => ?_⟩
  have hstep := step_lib hw (fun h => False.elim h) (l := l) ⟨fun _ => htidy, nofun, fun _ => hfit, nofun, nofun⟩
  obtain ⟨r', hm, hf⟩ := hstep.of_error hst
  have hi' : Accounted r' := hm.keep (fun _ _ hm h => h.micro trivial hm) hi
  rcases hi'.counted.not_fails trivial hf with rfl | rfl
  · exact ⟨nofun, nofun, nofun⟩
  · exact ⟨nofun, nofun, nofun⟩

/-- A write of two bytes, of which the kernel takes one. -/
theorem write_queue_size_one : ∃ s, ((system 1024).restrict fun s l => Fits s l ∧ Tidy s l).Reachable s ∧ s.writeQueueSize = 1 ∧
    1 = unwritten s.writeQueue + unwritten (failed (s.writeCompletedQueue ++ s.pq)) := by
  have h0 : ((system 1024).restrict fun s l => Fits s l ∧ Tidy s l).Reachable (streamInit .tcp false false) := .init ⟨_, _, _, rfl⟩
  have h1 := h0.next (.open 3 true true) ⟨⟨trivial, trivial⟩, rfl⟩
  have h2 := h1.next (.write [[1], [2]] none true true [.wrote 1])
    ⟨⟨fun _ => by decide, fun _ h => h.elim nofun fun h => h.elim nofun nofun⟩, rfl⟩
  exact ⟨_, h2, rfl, (write_queue_size h2).1⟩

theorem write_update {bufs : List Buf} (hne : bufs ≠ []) (h0 : countBufs bufs = 0) (hlen : 1 ≤ (offered 1024 bufs).length) :
    ∃ s l, (system 1024).Reachable s ∧ s.writeQueueSize = 0 ∧ unwritten s.writeQueue = bufs.flatten.length ∧
      step 1024 s l = .error .reqUpdate := by
  have hwrite : (system 1024).Reachable _ := opened_reachable.step (write_again hne h0)
  refine ⟨_, .io ⟨false, true, false, false⟩ ⟨[.wrote 1], 0, 0, .again, true⟩, hwrite, rfl, ?_, ?_⟩
  · simp [unwritten, WriteReq.bytes, WriteReq.remaining]
  · have htry : ∀ s : State, s.uvTryWrite 1024 0 bufs (.wrote 1) =
        .ok (CInt.ofNat 1, { s with sent := s.sent ++ ((offered 1024 bufs).take 1).map (Prod.mk 0) }) := fun s => if_pos hlen
    show State.uvWriteLoop 1024 [.wrote 1] _ >>= _ = _
    unfold State.uvWriteLoop
    dsimp only
    rw [show ∀ s : State, s.uvTryWrite 1024 0 (WriteReq.remaining ⟨0, some bufs, 0, 0, false, true⟩) (.wrote 1) = _ from htry]
    rfl

/-- 2^64 bytes count as none, and an assertion fails when the first of them is written; a
write in a callback of `uv__stream_destroy`, on a stream that was opened again, is left. -/
theorem size_lost :
    (∃ s l, (system 1024).Reachable s ∧ s.writeQueueSize = 0 ∧ unwritten s.writeQueue = 2 ^ 64 ∧ step 1024 s l = .error .reqUpdate) ∧
    ∃ s l, (system 1024).Reachable s ∧ step 1024 s l = .error .destroySize := by
  refine ⟨?_, ?_⟩
  · have hmany := write_update huge_ne huge_count ?_
    · rw [huge_length] at hmany
      exact hmany
    · rw [offered, huge]
      norm_num
  · have h1 : (system 1024).Reachable opened := opened_reachable
    have h2 := h1.next (.write [[1]] none true true [.again]) rfl
    have h3 := h2.next .close rfl
    have h4 := h3.next (.destroy ⟨[], 0, 0, .again, true⟩) rfl
    have h5 := h4.next (.open 4 true true) rfl
    have h6 := h5.next (.write [[2]] none true true [.again]) rfl
    exact ⟨_, .ret ⟨[], 0, 0, .again, true⟩, h6, rfl⟩

end Libuv.L3.Stream
