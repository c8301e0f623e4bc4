import Mathlib.Logic.Relation
import Libuv.L3Stream.Stream

/-!
# The life of the requests of a stream

What the stream's code does to requests, apart from flags, events and callbacks: a write
is submitted to the queue, loses bytes to the kernel from its head, is finished or fails,
is moved to the completed ones, and its callback starts; a connect and a shutdown are
submitted and called. `Micro` has one constructor for each of these; `Micros` is any
number of them. `Terms` says what a run leaves out.
-/
namespace Libuv.L3.Stream

open List
open State (offered advance)

structure Reqs where
  connect : Option ℕ
  shutdown : Option ℕ
  queue : List WriteReq
  completed : List WriteReq
  /-- being called -/
  running : List WriteReq
  size : ℕ
  active : ℕ
  calls : List Call
  sent : List (ℕ × UInt8)
  called : List (ℕ × ℤ)

/-! ## Buffers -/

def WriteReq.bytes (q : WriteReq) : List UInt8 := q.remaining.flatten

/-- The request after `uv__write_req_update`. -/
def WriteReq.updated (q : WriteReq) (bufs : List Buf) (k : ℕ) : WriteReq :=
  { q with
    sendHandle := false
    bufs := some ((q.bufs.getD []).take q.writeIndex ++ bufs)
    writeIndex := q.writeIndex + k }

/-- `req->write_index == req->nbufs` -/
def WriteReq.done (q : WriteReq) : Prop := q.writeIndex = (q.bufs.getD []).length

/-- The request as it goes to the completed ones. -/
def WriteReq.finished (q : WriteReq) : WriteReq := if q.error = 0 then { q with bufs := none } else q

theorem countBufs_eq (bufs : List Buf) : countBufs bufs = bufs.flatten.length % sizeMax := by
  rw [countBufs, length_flatten]

variable {n : ℕ} {q : WriteReq}

theorem offered_take {m : ℕ} {bufs : List Buf} (h : n ≤ (offered m bufs).length) :
    (offered m bufs).take n = bufs.flatten.take n := by
  unfold offered at *
  conv_rhs => rw [← take_append_drop m bufs, flatten_append]
  rw [take_append_of_le_length h]

theorem offered_length_le (m : ℕ) (bufs : List Buf) : (offered m bufs).length ≤ bufs.flatten.length := by
  conv_rhs => rw [← take_append_drop m bufs, flatten_append]
  rw [length_append]
  exact Nat.le_add_right _ _

theorem advance_spec : ∀ {bufs : List Buf} {n : ℕ} {bs : List Buf} {k : ℕ}, advance n bufs = some (bs, k) →
    bs.length = bufs.length ∧ k ≤ bs.length ∧ (bs.drop k).flatten = bufs.flatten.drop n ∧ bufs ≠ [] := by
  intro bufs
  induction bufs with
  | nil => intro n bs k h; simp [advance] at h
  | cons buf bufs ih =>
    intro n bs k h
    unfold advance at h
    simp only at h
    split at h
    · next hempty =>
      rw [length_drop] at hempty
      split at h
      · next hn =>
        -- the bytes end with this buffer
        cases h
        have : n = buf.length := by omega
        simp [this]
      · next hn =>
        cases ha : advance (n - min n buf.length) bufs with
        | none => rw [ha] at h; cases h
        | some p =>
          rw [ha] at h
          cases h
          obtain ⟨h1, h2, h3, -⟩ := ih ha
          have hlen : min n buf.length = buf.length := by omega
          refine ⟨by simp [h1], by simpa using h2, ?_, by simp⟩
          rw [drop_succ_cons, h3, hlen, flatten_cons, drop_append]
          rw [drop_eq_nil_of_le (by omega : buf.length ≤ n), nil_append]
    · next hleft =>
      cases h
      rw [length_drop] at hleft
      have hn : n < buf.length := by omega
      refine ⟨by simp, Nat.zero_le _, ?_, by simp⟩
      rw [drop_zero, flatten_cons, flatten_cons, drop_append_of_le_length (by omega), Nat.min_eq_left hn.le]

theorem WriteReq.updated_remaining {k : ℕ} {bs : List Buf}
    (h : advance n q.remaining = some (bs, k)) : (q.updated bs k).remaining = bs.drop k := by
  obtain ⟨-, -, -, hne⟩ := advance_spec h
  have hlt : q.writeIndex < (q.bufs.getD []).length := by
    by_contra hge
    exact hne (drop_eq_nil_of_le (by omega))
  unfold WriteReq.remaining WriteReq.updated
  simp only [Option.getD_some]
  rw [drop_append, drop_eq_nil_of_le (by simp), nil_append, length_take]
  congr 1
  omega

theorem WriteReq.updated_bytes {k : ℕ} {bs : List Buf}
    (h : advance n q.remaining = some (bs, k)) : (q.updated bs k).bytes = q.bytes.drop n := by
  unfold WriteReq.bytes
  rw [WriteReq.updated_remaining h, (advance_spec h).2.2.1]

theorem WriteReq.done_bytes (h : q.done) : q.bytes = [] := by
  unfold WriteReq.bytes WriteReq.remaining
  rw [h, drop_length, flatten_nil]

theorem WriteReq.finished_bytes (h : q.done) : q.finished.bytes = [] := by
  unfold WriteReq.finished
  split
  · simp [WriteReq.bytes, WriteReq.remaining]
  · exact WriteReq.done_bytes h

theorem WriteReq.finished_of_ne (h : q.error ≠ 0) : q.finished = q := if_neg h

@[simp] theorem WriteReq.updated_id (q : WriteReq) (bs : List Buf) (k : ℕ) : (q.updated bs k).id = q.id := rfl

@[simp] theorem WriteReq.finished_id (q : WriteReq) : q.finished.id = q.id := by
  unfold WriteReq.finished; split <;> rfl


/-! ## Steps -/

/-- What write requests have still to write, and what was left of failed ones. -/
def Reqs.outstanding (r : Reqs) : ℕ :=
  ((r.queue ++ r.completed ++ r.running).map fun q => q.bytes.length).sum

/-- What is known of the steps, apart from what they do. -/
structure Terms where
  iovmax : ℕ
  /-- No connect request is lost (one `uv_pipe_connect` on top of another, or behind
  `uv__stream_destroy`) and no registration leaks (`UV_ENOMEM`). -/
  lossless : Prop
  /-- Write calls keep what is outstanding below the range of `size_t`. -/
  bounded : Prop
  /-- No write is accepted once `uv__stream_destroy` has flushed the queue. -/
  tidy : Prop
  /-- The stream is being destroyed. -/
  dying : Prop
  /-- The counts of write calls fit in an `int`. -/
  narrow : Prop := False

/-- The count fits in an `int`. -/
def Outcome.Narrow (o : Outcome) : Prop := ∀ n, o = .wrote n → n < 2 ^ 31

def anyTerms (iovmax : ℕ) : Terms := { iovmax := iovmax, lossless := False, bounded := False, tidy := False, dying := False }

inductive Micro (T : Terms) : Reqs → Reqs → Prop
  | submit {r : Reqs} {bufs : List Buf} {sendHandle cb : Bool} (hne : bufs ≠ [])
      (hb : T.bounded → r.outstanding + bufs.flatten.length < sizeMax) :
      Micro T r { r with
        queue := r.queue ++ [⟨r.calls.length, some bufs, 0, 0, sendHandle, cb⟩]
        size := (r.size + countBufs bufs) % sizeMax
        active := r.active + 1
        calls := r.calls ++ [.write bufs cb] }
  | leak {r : Reqs} (hp : ¬ T.lossless) : Micro T r { r with active := r.active + 1 }
  | tryWrite {r : Reqs} {bufs : List Buf} {n : ℕ} (h0 : r.size = 0) (hn : n ≤ (offered T.iovmax bufs).length) :
      Micro T r { r with
        sent := r.sent ++ ((offered T.iovmax bufs).take n).map (Prod.mk r.calls.length)
        calls := r.calls ++ [.tryWrite bufs] }
  /-- bytes of a call whose count was cut off -/
  | spill {r : Reqs} {more : List (ℕ × UInt8)} (hn : ¬ T.narrow) : Micro T r { r with sent := r.sent ++ more }
  | wrote {r : Reqs} {q : WriteReq} {rest : List WriteReq} {n k : ℕ} {bs : List Buf} (hq : r.queue = q :: rest)
      (hn : n ≤ (offered T.iovmax q.remaining).length) (hs : n ≤ r.size)
      (ha : advance n q.remaining = some (bs, k)) :
      Micro T r { r with
        queue := q.updated bs k :: rest
        size := r.size - n
        sent := r.sent ++ ((offered T.iovmax q.remaining).take n).map (Prod.mk q.id) }
  | finish {r : Reqs} {q : WriteReq} {rest : List WriteReq} (hq : r.queue = q :: rest) (h : q.done) (hd : ¬ T.dying) :
      Micro T r { r with queue := rest, completed := r.completed ++ [q.finished] }
  | fail {r : Reqs} {q : WriteReq} {rest : List WriteReq} {e : ℤ} (hq : r.queue = q :: rest) (he : e < 0)
      (hd : ¬ T.dying) :
      Micro T r { r with queue := rest, completed := r.completed ++ [{ q with error := e }] }
  | flush {r : Reqs} :
      Micro T r { r with
        queue := []
        completed := r.completed ++ r.queue.map fun q => { q with error := UV_ECANCELED } }
  | begin {r : Reqs} (hr : r.running = []) :
      Micro T r { r with running := r.completed, completed := [] }
  | pop {r : Reqs} {q : WriteReq} {rest : List WriteReq} {size : ℕ} (hq : r.running = q :: rest) (ha : 0 < r.active)
      (hs : q.bufs = none ∧ size = 0 ∨ size = countBufs q.remaining) (hle : size ≤ r.size) :
      Micro T r { r with
        running := rest
        size := r.size - size
        active := r.active - 1
        called := r.called ++ [(q.id, q.error)] }
  | connect {r : Reqs} {cb : Bool} (hc : r.connect = none) :
      Micro T r { r with
        connect := some r.calls.length
        active := r.active + 1
        calls := r.calls ++ [.connect cb] }
  | lose {r : Reqs} {cb : Bool} {c : Option ℕ} (hp : ¬ T.lossless) (hc : ∀ i ∈ c, i = r.calls.length) :
      Micro T r { r with connect := c, active := r.active + 1, calls := r.calls ++ [.connect cb] }
  | connected {r : Reqs} {i : ℕ} {e : ℤ} (hc : r.connect = some i) (ha : 0 < r.active)
      (hd : T.dying → e = UV_ECANCELED) :
      Micro T r { r with connect := none, active := r.active - 1, called := r.called ++ [(i, e)] }
  | shutdown {r : Reqs} {cb : Bool} (hc : r.shutdown = none) :
      Micro T r { r with
        shutdown := some r.calls.length
        active := r.active + 1
        calls := r.calls ++ [.shutdown cb] }
  | shut {r : Reqs} {i : ℕ} {e : ℤ} (hc : r.shutdown = some i) (ha : 0 < r.active)
      (hd : T.dying → e = UV_ECANCELED) :
      Micro T r { r with shutdown := none, active := r.active - 1, called := r.called ++ [(i, e)] }

def Micros (T : Terms) : Reqs → Reqs → Prop := Relation.ReflTransGen (Micro T)

variable {T : Terms} {r r' : Reqs}

theorem Micros.keep {I : Reqs → Prop} (hI : ∀ r r', Micro T r r' → I r → I r')
    (h : Micros T r r') (hr : I r) : I r' := by
  induction h with
  | refl => exact hr
  | tail _ hs ih => exact hI _ _ hs ih

/-! ## `write_queue_size` -/

/-- The size is what is outstanding, modulo the range of `size_t`. -/
def Sized (r : Reqs) : Prop := r.size = r.outstanding % sizeMax

theorem sub_mod_sizeMax {o : ℕ} (h : n ≤ o % sizeMax) : o % sizeMax - n = (o - n) % sizeMax := by
  have h1 := Nat.div_add_mod o sizeMax
  have h2 : o - n = sizeMax * (o / sizeMax) + (o % sizeMax - n) := by omega
  have h3 : o % sizeMax < sizeMax := Nat.mod_lt _ (by decide)
  calc o % sizeMax - n = (o % sizeMax - n) % sizeMax := (Nat.mod_eq_of_lt (by omega)).symm
    _ = (o - n) % sizeMax := by rw [h2, Nat.mul_add_mod]

theorem Reqs.outstanding_cons {rest : List WriteReq} (h : r.queue = q :: rest) :
    r.outstanding = q.bytes.length + ((rest ++ r.completed ++ r.running).map fun q => q.bytes.length).sum := by
  simp [Reqs.outstanding, h]

theorem Sized.micro (h : Micro T r r') (hr : Sized r) : Sized r' := by
  unfold Sized at *
  cases h with
  | submit hne hb =>
    rw [countBufs_eq, hr]
    simp [Reqs.outstanding, WriteReq.bytes, WriteReq.remaining, Nat.add_comm, Nat.add_left_comm]
  | @wrote q rest n k bs hq hn hs ha =>
    have hle : n ≤ q.bytes.length := hn.trans (offered_length_le _ _)
    have ho := Reqs.outstanding_cons hq
    simp only
    rw [hr, sub_mod_sizeMax (hr ▸ hs)]
    congr 1
    simp only [Reqs.outstanding, cons_append, map_cons, sum_cons, WriteReq.updated_bytes ha, length_drop] at ho ⊢
    omega
  | finish hq h hd =>
    simp only
    rw [hr]
    congr 1
    simp [Reqs.outstanding, hq, WriteReq.done_bytes h, WriteReq.finished_bytes h]
  | @fail q rest e hq he hd =>
    have hb : ({ q with error := e } : WriteReq).bytes = q.bytes := rfl
    simp only
    rw [hr]
    congr 1
    simp [Reqs.outstanding, hq, hb]; omega
  | flush =>
    have hb : ∀ q : WriteReq, ({ q with error := UV_ECANCELED } : WriteReq).bytes = q.bytes := fun _ => rfl
    simp only
    rw [hr]
    congr 1
    simp [Reqs.outstanding, Function.comp_def, hb]; omega
  | begin hr' =>
    simp only
    rw [hr]
    congr 1
    simp [Reqs.outstanding, hr']
  | @pop q rest size hq ha hs hle =>
    have hlen : size = q.bytes.length % sizeMax := by
      rcases hs with ⟨h0, rfl⟩ | h0
      · simp [WriteReq.bytes, WriteReq.remaining, h0]
      · rw [h0, countBufs_eq]; rfl
    have ho : r.outstanding = q.bytes.length + ((r.queue ++ r.completed ++ rest).map fun q => q.bytes.length).sum := by
      simp [Reqs.outstanding, hq]; omega
    have key : ∀ a b : ℕ, a % sizeMax ≤ (a + b) % sizeMax → (a + b) % sizeMax - a % sizeMax = b % sizeMax := by
      intro a b hab
      have hd := Nat.div_add_mod a sizeMax
      have hsub := sub_mod_sizeMax hab
      rw [hsub, show a + b - a % sizeMax = sizeMax * (a / sizeMax) + b by omega, Nat.mul_add_mod]
    simp only
    rw [hr, ho] at hle ⊢
    rw [hlen] at hle ⊢
    rw [key _ _ hle]
    simp [Reqs.outstanding]
  | leak | tryWrite | spill | connect | lose | connected | shutdown | shut => exact hr

theorem bounded_micros (hB : T.bounded) (h : Micros T r r') (hr : r.outstanding < sizeMax) :
    r'.outstanding < sizeMax := by
  refine h.keep (I := fun r => r.outstanding < sizeMax) (fun r r' hm hr => ?_) hr
  cases hm with
  | submit hne hb =>
    have := hb hB
    simpa [Reqs.outstanding, WriteReq.bytes, WriteReq.remaining, Nat.add_comm, Nat.add_left_comm] using this
  | wrote hq hn hs ha =>
    rw [Reqs.outstanding_cons hq] at hr
    simp only [Reqs.outstanding, cons_append, map_cons, sum_cons, WriteReq.updated_bytes ha, length_drop]
    omega
  | finish hq h hd =>
    simpa [Reqs.outstanding, hq, WriteReq.done_bytes h, WriteReq.finished_bytes h] using hr
  | @fail q rest e hq he hd =>
    have hb : ({ q with error := e } : WriteReq).bytes = q.bytes := rfl
    simp [Reqs.outstanding, hq, hb] at hr ⊢
    omega
  | flush =>
    have hb : ∀ q : WriteReq, ({ q with error := UV_ECANCELED } : WriteReq).bytes = q.bytes := fun _ => rfl
    simp [Reqs.outstanding, Function.comp_def, hb] at hr ⊢
    omega
  | begin hr' => simpa [Reqs.outstanding, hr'] using hr
  | pop hq ha hs hle =>
    simp [Reqs.outstanding, hq] at hr ⊢
    omega
  | leak | tryWrite | spill | connect | lose | connected | shutdown | shut => exact hr

structure Counted (r : Reqs) : Prop where
  sized : Sized r
  fits : r.outstanding < sizeMax

theorem Counted.size (h : Counted r) : r.size = r.outstanding := by
  have := h.sized
  rw [this, Nat.mod_eq_of_lt h.fits]

theorem Counted.micro (hB : T.bounded) (hm : Micro T r r') (h : Counted r) : Counted r' where
  sized := h.sized.micro hm
  fits := bounded_micros hB (.single hm) h.fits

end Libuv.L3.Stream
