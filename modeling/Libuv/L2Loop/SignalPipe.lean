import Mathlib.Tactic

/-!
# The framing of the signal pipe (`uv__signal_event`)

`libuv/src/unix/signal.c:457-524` byte by byte: the loop over `read`, its buffer of 32 messages, and what it takes for a message.
`Signal` has what a message does, and takes the messages whole. `size` is `sizeof(uv__signal_msg_t)`. A `read` is given what the
kernel makes of it: interrupted, nothing there, or bytes; any other error is an `abort`. The poller calls
`uv__signal_event` again after it has returned, and the buffer is new then.

The `continue`s of the loop go to its condition, `end == sizeof buf`, which does not hold when a part of a message is left.

* `Frame.Clean`: at the head of the loop nothing is ever left in the buffer.
* `dispatched_iff`: what is dispatched are the messages written, if and only if every `read` ends between two messages.
-/
namespace Libuv.L2.SignalPipe

open List

/-! ## The source -/

inductive Read
  | eintr
  | again
  | data (bs : List UInt8)
  deriving DecidableEq

/-- The first `bytes` bytes of `buf`, and `end`. -/
structure Frame where
  buf : List UInt8
  fin : ℕ
  deriving DecidableEq

variable (size : ℕ)

/-- `sizeof(buf)` -/
def sizeofBuf : ℕ := size * 32

/-- The `for` loop: the messages at 0, `size`, .. before `fin`. -/
def messages (buf : List UInt8) (fin : ℕ) : List (List UInt8) :=
  (List.range (fin / size)).map fun k => (buf.drop (k * size)).take size

def Frame.next (f : Frame) : Option Frame := if f.fin = sizeofBuf size then some f else none

/-- One round, with the messages dispatched.
mirrors unix/signal.c:471-523 -/
def round (f : Frame) : Read → Option Frame × List (List UInt8)
  | .eintr => (f.next size, [])
  | .again => if f.buf ≠ [] then (f.next size, []) else (none, [])
  | .data bs =>
    let buf := f.buf ++ bs
    let fin := buf.length / size * size
    (Frame.next size ⟨buf.drop fin, fin⟩, messages size buf fin)

/-- What is dispatched in the course of these reads, of a call that is under way or of the next one. -/
def signalEvents : Option Frame → List Read → List (List UInt8)
  | _, [] => []
  | f, r :: rs =>
    let o := round size (f.getD ⟨[], 0⟩) r
    o.2 ++ signalEvents o.1 rs

/-! ## What a call is given and dispatches -/

/-- A `read` gives something, and no more than the buffer holds. -/
def Read.Fits : Read → Prop
  | .data bs => 0 < bs.length ∧ bs.length ≤ sizeofBuf size
  | _ => True

/-- The `read` ends between two messages. -/
def Read.Whole : Read → Prop
  | .data bs => size ∣ bs.length
  | _ => True

def Read.bytes : Read → List UInt8
  | .data bs => bs
  | _ => []

def bytes (rs : List Read) : List UInt8 := rs.flatMap Read.bytes

/-- Nothing is left in the buffer at the head of the loop. -/
def Clean (f : Option Frame) : Prop := ∀ g, f = some g → g.buf = []

section Framing
variable {size : ℕ} {r : Read} {rs : List Read} {f : Option Frame}

theorem messages_length {buf : List UInt8} {fin : ℕ} (hfin : fin ≤ buf.length) : ∀ m ∈ messages size buf fin, m.length = size := by
  intro m hm
  obtain ⟨k, hk, rfl⟩ := mem_map.1 hm
  have hlt : k + 1 ≤ fin / size := mem_range.1 hk
  have hmul : (k + 1) * size ≤ fin := (Nat.mul_le_mul_right size hlt).trans (Nat.div_mul_le_self fin size)
  rw [length_take, length_drop]
  rw [Nat.succ_mul] at hmul
  omega

theorem messages_flatten (hsize : 0 < size) (buf : List UInt8) (n : ℕ) :
    (messages size buf (n * size)).flatten = buf.take (n * size) := by
  unfold messages
  rw [Nat.mul_div_cancel n hsize]
  induction n with
  | zero => simp
  | succ n ih => rw [range_succ, map_append, flatten_append, ih, map_singleton, flatten_singleton,
      Nat.succ_mul, take_add]

theorem round_clean {f : Frame} (hf : f.buf = []) (hr : r.Fits size) : Clean (round size f r).1 := by
  have hnext : ∀ {g : Frame}, f.next size = some g → g.buf = [] := by
    intro g hg
    unfold Frame.next at hg
    split at hg
    · cases hg
      exact hf
    · cases hg
  cases r with
  | eintr => exact fun _ => hnext
  | again => rw [round, if_neg (by simp [hf])]; exact fun _ hg => by cases hg
  | data bs =>
    intro g hg
    unfold round Frame.next at hg
    dsimp only at hg
    rw [hf] at hg
    split at hg
    · next hfin =>
      cases hg
      rw [hfin]
      exact drop_eq_nil_of_le hr.2
    · cases hg

/-- What a `read` leads to with nothing in the buffer. -/
def Read.dispatched (size : ℕ) : Read → List (List UInt8)
  | .data bs => messages size bs (bs.length / size * size)
  | _ => []

theorem round_dispatched {f : Frame} (hf : f.buf = []) : (round size f r).2 = r.dispatched size := by
  cases r with
  | eintr => rfl
  | again => rw [round, if_neg (by simp [hf])]; rfl
  | data bs => unfold round Read.dispatched; rw [hf]; rfl

theorem signalEvents_eq (hf : Clean f) (hr : ∀ r ∈ rs, r.Fits size) :
    signalEvents size f rs = rs.flatMap (Read.dispatched size) := by
  induction rs generalizing f with
  | nil => rfl
  | cons r rs ih =>
    have hbuf : (f.getD ⟨[], 0⟩).buf = [] := by
      cases f with
      | none => rfl
      | some g => exact hf g rfl
    have hclean := round_clean hbuf (hr r mem_cons_self)
    rw [signalEvents, flatMap_cons, round_dispatched hbuf, ih hclean fun r' hr' => hr r' (mem_cons_of_mem r hr')]

theorem Read.dispatched_flatten (hsize : 0 < size) (r : Read) :
    (r.dispatched size).flatten = r.bytes.take (r.bytes.length / size * size) := by
  cases r with
  | eintr | again => simp [Read.dispatched, Read.bytes]
  | data bs => exact messages_flatten hsize bs _

theorem flatMap_flatten (hsize : 0 < size) :
    (rs.flatMap (Read.dispatched size)).flatten = rs.flatMap fun r => r.bytes.take (r.bytes.length / size * size) := by
  induction rs with
  | nil => rfl
  | cons r rs ih => rw [flatMap_cons, flatten_append, ih, flatMap_cons, r.dispatched_flatten hsize]

theorem Read.whole_iff : r.Whole size ↔ r.bytes.length / size * size = r.bytes.length := by
  cases r with
  | eintr | again => simp [Read.Whole, Read.bytes]
  | data bs => exact ⟨Nat.div_mul_cancel, fun h => Dvd.intro_left _ h⟩

/-- No byte is missing exactly when every `read` ends between two messages. -/
theorem length_eq_iff :
    (rs.flatMap fun r => r.bytes.take (r.bytes.length / size * size)).length ≤ (bytes rs).length ∧
      ((rs.flatMap fun r => r.bytes.take (r.bytes.length / size * size)).length = (bytes rs).length ↔
        ∀ r ∈ rs, r.Whole size) := by
  induction rs with
  | nil => simp [bytes]
  | cons r rs ih =>
    obtain ⟨hle, hiff⟩ := ih
    have hr : r.bytes.length / size * size ≤ r.bytes.length := Nat.div_mul_le_self _ _
    unfold bytes at hle hiff ⊢
    simp only [flatMap_cons, length_append, length_take, Nat.min_eq_left hr, forall_mem_cons, Read.whole_iff]
    refine ⟨by omega, fun h => ⟨by omega, ?_⟩, fun h => ?_⟩
    · exact fun r' hr' => Read.whole_iff.1 (hiff.1 (by omega) r' hr')
    · rw [hiff.2 fun r' hr' => Read.whole_iff.2 (h.2 r' hr'), h.1]

theorem flatMap_whole (h : ∀ r ∈ rs, r.Whole size) :
    (rs.flatMap fun r => r.bytes.take (r.bytes.length / size * size)) = bytes rs := by
  refine flatMap_congr fun r hr => ?_
  rw [Read.whole_iff.1 (h r hr), take_length]

theorem eq_of_flatten {xs ys : List (List UInt8)} (hsize : 0 < size) (hx : ∀ x ∈ xs, x.length = size)
    (hy : ∀ y ∈ ys, y.length = size) (h : xs.flatten = ys.flatten) : xs = ys := by
  have hmap : ∀ {zs : List (List UInt8)}, (∀ z ∈ zs, z.length = size) → zs.map List.length = List.replicate zs.length size :=
    fun hz => eq_replicate_iff.2 ⟨length_map _, fun b hb => by
      obtain ⟨z, hm, rfl⟩ := mem_map.1 hb
      exact hz z hm⟩
  have hlen := congrArg List.length h
  rw [length_flatten, length_flatten, hmap hx, hmap hy, sum_replicate, sum_replicate, smul_eq_mul,
    smul_eq_mul] at hlen
  exact eq_iff_flatten_eq.2 ⟨h, by rw [hmap hx, hmap hy, Nat.eq_of_mul_eq_mul_right hsize hlen]⟩

end Framing

/-- However the kernel splits the messages written into reads, those are dispatched, in order and no others, exactly when no
`read` ends within a message. -/
theorem dispatched_iff {size : ℕ} (hsize : 0 < size) {msgs : List (List UInt8)} (hmsgs : ∀ m ∈ msgs, m.length = size)
    {rs : List Read} (hr : ∀ r ∈ rs, r.Fits size) (hb : bytes rs = msgs.flatten) :
    signalEvents size none rs = msgs ↔ ∀ r ∈ rs, r.Whole size := by
  rw [signalEvents_eq (fun _ h => by cases h) hr]
  constructor
  · intro h
    refine length_eq_iff.2.1 ?_
    rw [← flatMap_flatten hsize, h, hb]
  · intro h
    refine eq_of_flatten hsize (fun m hm => ?_) hmsgs ?_
    · obtain ⟨r, -, hm⟩ := mem_flatMap.1 hm
      cases r with
      | eintr | again => cases hm
      | data bs => exact messages_length (Nat.div_mul_le_self _ _) m hm
    · rw [flatMap_flatten hsize, flatMap_whole h, hb]

/-- Three messages in two reads of one and a half: the second half of the second one is taken for the head of a message. -/
theorem dispatched_misaligned : ∃ msgs rs, (∀ m ∈ msgs, m.length = 16) ∧ (∀ r ∈ rs, r.Fits 16) ∧ bytes rs = msgs.flatten ∧
    signalEvents 16 none rs = [List.replicate 16 1, List.replicate 8 2 ++ List.replicate 8 3] ∧
    signalEvents 16 none rs ≠ msgs :=
  ⟨[List.replicate 16 1, List.replicate 16 2, List.replicate 16 3],
    [.data (List.replicate 16 1 ++ List.replicate 8 2), .data (List.replicate 8 2 ++ List.replicate 16 3)],
    by decide, by simp [Read.Fits, sizeofBuf], by decide, by decide, by decide⟩

theorem dispatched_interrupted :
    signalEvents 4 none [.eintr, .data [1, 2, 3, 4], .again, .data [5, 6, 7, 8]] = [[1, 2, 3, 4], [5, 6, 7, 8]] :=
  (@dispatched_iff 4 (by decide) [[1, 2, 3, 4], [5, 6, 7, 8]] (by decide)
    [.eintr, .data [1, 2, 3, 4], .again, .data [5, 6, 7, 8]] (by simp [Read.Fits, sizeofBuf]) rfl).2 (by simp [Read.Whole])

end Libuv.L2.SignalPipe
