import Libuv.L3Stream.Refine

/-!
# The order of writes

What the kernel accepts of a stream, against what the caller submitted. `uv_write` looks at
`write_queue_size` to choose between writing and queueing, and so does `uv_try_write`: a
request with nothing left to write does not show there, nor would 2^64 bytes.

* `Ordered.micro`: one step of the requests keeps the order.
* `write_order`: every run does, as long as the outstanding bytes fit in a `size_t`.
-/
namespace Libuv.L3.Stream

open List
open State (offered advance)

variable {T : Terms} {r r' : Reqs}

/-! ## What the caller submitted -/

def Call.data : Call → List UInt8
  | write bufs _ => bufs.flatten
  | tryWrite bufs => bufs.flatten
  | _ => []

def Call.isWrite : Call → Bool
  | write .. => true
  | _ => false

def Call.isTryWrite : Call → Bool
  | tryWrite _ => true
  | _ => false

/-- The bytes of the call number `i`. -/
def dataOf (calls : List Call) (i : ℕ) : List UInt8 := (calls[i]?.map Call.data).getD []

/-- The call number `i` is a `uv_write` or `uv_write2`. -/
def isWrite (calls : List Call) (i : ℕ) : Bool := calls[i]?.any Call.isWrite

/-- The call number `i` is a `uv_try_write`. -/
def isTryWrite (calls : List Call) (i : ℕ) : Bool := calls[i]?.any Call.isTryWrite

/-- What the kernel accepted of the call number `i`. -/
def acceptedOf (sent : List (ℕ × UInt8)) (i : ℕ) : List UInt8 := (sent.filter fun p => p.1 == i).map Prod.snd

/-- The calls whose write callbacks have started, in this order. -/
def writesCalled (calls : List Call) (called : List (ℕ × ℤ)) : List ℕ :=
  (called.map Prod.fst).filter fun i => isWrite calls i

section Calls
variable {calls : List Call} {c : Call} {i : ℕ}

theorem dataOf_append (hi : i < calls.length) : dataOf (calls ++ [c]) i = dataOf calls i := by
  unfold dataOf
  rw [getElem?_append_left hi]

theorem isWrite_append (hi : i < calls.length) : isWrite (calls ++ [c]) i = isWrite calls i := by
  unfold isWrite
  rw [getElem?_append_left hi]

theorem isTryWrite_append (hi : i < calls.length) : isTryWrite (calls ++ [c]) i = isTryWrite calls i := by
  unfold isTryWrite
  rw [getElem?_append_left hi]

@[simp] theorem dataOf_last : dataOf (calls ++ [c]) calls.length = c.data := by simp [dataOf]

@[simp] theorem isWrite_last : isWrite (calls ++ [c]) calls.length = c.isWrite := by simp [isWrite]

@[simp] theorem isTryWrite_last : isTryWrite (calls ++ [c]) calls.length = c.isTryWrite := by simp [isTryWrite]

theorem isWrite_lt (h : isWrite calls i = true) : i < calls.length := by
  by_contra hge
  rw [isWrite, getElem?_eq_none (by omega)] at h
  cases h

end Calls

section Sent
variable {sent : List (ℕ × UInt8)} {bytes : List UInt8} {i j : ℕ}

theorem acceptedOf_append {more : List (ℕ × UInt8)} : acceptedOf (sent ++ more) i = acceptedOf sent i ++ acceptedOf more i := by
  simp [acceptedOf]

theorem acceptedOf_same : acceptedOf (bytes.map (Prod.mk i)) i = bytes := by
  simp [acceptedOf, filter_map, Function.comp_def]

theorem acceptedOf_other (h : j ≠ i) : acceptedOf (bytes.map (Prod.mk j)) i = [] := by
  simp [acceptedOf, filter_map, Function.comp_def, h]

theorem acceptedOf_none (h : ∀ p ∈ sent, p.1 ≠ i) : acceptedOf sent i = [] := by
  unfold acceptedOf
  rw [map_eq_nil_iff, filter_eq_nil_iff]
  intro p hp
  simpa using h p hp

theorem sorted_append (hs : (sent.map Prod.fst).Pairwise (· ≤ ·)) (h : bytes ≠ [] → ∀ p ∈ sent, p.1 ≤ i) :
    ((sent ++ bytes.map (Prod.mk i)).map Prod.fst).Pairwise (· ≤ ·) := by
  have hsame : ∀ x ∈ (bytes.map (Prod.mk i)).map Prod.fst, x = i ∧ bytes ≠ [] := by
    intro x hx
    obtain ⟨p, hp, rfl⟩ := mem_map.1 hx
    obtain ⟨b, hb, rfl⟩ := mem_map.1 hp
    exact ⟨rfl, ne_nil_of_mem hb⟩
  rw [map_append]
  refine pairwise_append.2 ⟨hs, pairwise_of_forall_mem_list fun x hx y hy => ?_, fun x hx y hy => ?_⟩
  · rw [(hsame x hx).1, (hsame y hy).1]
  · obtain ⟨p, hp, rfl⟩ := mem_map.1 hx
    rw [(hsame y hy).1]
    exact h (hsame y hy).2 p hp

theorem acceptedOf_pairs : (acceptedOf sent i).map (Prod.mk i) = sent.filter fun p => p.1 == i := by
  unfold acceptedOf
  rw [map_map]
  conv_rhs => rw [← map_id (sent.filter fun p => p.1 == i)]
  apply map_congr_left
  intro p hp
  have : p.1 = i := by simpa using (mem_filter.1 hp).2
  subst this
  rfl

theorem sorted_split {n : ℕ} (hs : (sent.map Prod.fst).Pairwise (· ≤ ·)) (hle : ∀ p ∈ sent, p.1 ≤ n) :
    sent = (sent.filter fun p => p.1 < n) ++ sent.filter fun p => p.1 == n := by
  induction sent with
  | nil => rfl
  | cons p l ih =>
    rw [map_cons, pairwise_cons] at hs
    have hrest := ih hs.2 fun p hp => hle p (mem_cons_of_mem _ hp)
    by_cases hp : p.1 < n
    · have hne : (p.1 == n) = false := by simpa using hp.ne
      rw [filter_cons_of_pos (by simpa using hp), filter_cons_of_neg (by simp [hne]), cons_append, ← hrest]
    · have hlast : ∀ x ∈ p :: l, x.1 = n := by
        intro x hx
        have h1 := hle x hx
        rcases mem_cons.1 hx with rfl | hx
        · omega
        · have := hs.1 x.1 (mem_map_of_mem hx)
          omega
      rw [filter_eq_nil_iff.2 fun x hx => by simp [hlast x hx], nil_append]
      exact (filter_eq_self.2 fun x hx => by simp [hlast x hx]).symm

theorem sorted_eq_flatMap {n : ℕ} (hs : (sent.map Prod.fst).Pairwise (· ≤ ·)) (hlt : ∀ p ∈ sent, p.1 < n) :
    sent = (List.range n).flatMap fun i => (acceptedOf sent i).map (Prod.mk i) := by
  simp only [acceptedOf_pairs]
  induction n generalizing sent with
  | zero =>
    cases sent with
    | nil => rfl
    | cons p l => exact absurd (hlt p mem_cons_self) (Nat.not_lt_zero _)
  | succ n ih =>
    have hsplit := sorted_split hs fun p hp => Nat.le_of_lt_succ (hlt p hp)
    have hbelow := @ih (sent.filter fun p => p.1 < n) (hs.sublist (filter_sublist.map _))
      fun p hp => by simpa using (mem_filter.1 hp).2
    have hsame : ∀ i ∈ List.range n, ((sent.filter fun p => p.1 < n).filter fun p => p.1 == i) = sent.filter fun p => p.1 == i := by
      intro i hi
      rw [filter_filter]
      apply filter_congr
      intro p _
      have := mem_range.1 hi
      by_cases h : p.1 = i
      · simp [h, this]
      · simp [h]
    rw [range_succ, flatMap_append, flatMap_singleton]
    conv_lhs => rw [hsplit, hbelow]
    rw [flatMap_congr hsame]

end Sent

/-! ## The order -/

/-- Where bytes of a later call are accepted while a request is queued, the request has nothing
left to write and the call is a `uv_try_write`. -/
def Behind (r : Reqs) : Prop :=
  ∀ q ∈ r.queue, ∀ p ∈ r.sent, q.id < p.1 → q.bytes = [] ∧ isTryWrite r.calls p.1 = true

structure Ordered (r : Reqs) : Prop where
  ids : (writesCalled r.calls r.called ++ (r.running ++ r.completed ++ r.queue).map (·.id)).Pairwise (· < ·)
  writes : ∀ q ∈ r.running ++ r.completed ++ r.queue, isWrite r.calls q.id = true
  connect : ∀ i ∈ r.connect, i < r.calls.length ∧ isWrite r.calls i = false
  shutdown : ∀ i ∈ r.shutdown, i < r.calls.length ∧ isWrite r.calls i = false
  calledLt : ∀ p ∈ r.called, p.1 < r.calls.length
  sentLt : ∀ p ∈ r.sent, p.1 < r.calls.length
  sorted : (r.sent.map Prod.fst).Pairwise (· ≤ ·)
  prefixes : ∀ i, acceptedOf r.sent i <+: dataOf r.calls i
  queued : ∀ q ∈ r.queue, q.error = 0 ∧ acceptedOf r.sent q.id ++ q.bytes = dataOf r.calls q.id
  completed : ∀ q ∈ r.running ++ r.completed, q.error = 0 → acceptedOf r.sent q.id = dataOf r.calls q.id
  called : ∀ p ∈ r.called, isWrite r.calls p.1 = true → p.2 = 0 → acceptedOf r.sent p.1 = dataOf r.calls p.1
  behind : Behind r

namespace Ordered

theorem writesCalled_append {calls : List Call} {c : Call} {called : List (ℕ × ℤ)} (h : ∀ p ∈ called, p.1 < calls.length) :
    writesCalled (calls ++ [c]) called = writesCalled calls called := by
  apply filter_congr
  intro i hi
  obtain ⟨p, hp, rfl⟩ := mem_map.1 hi
  exact isWrite_append (h p hp)

theorem extend (h : Ordered r) (c : Call) : Ordered { r with calls := r.calls ++ [c] } where
  ids := by
    rw [writesCalled_append h.calledLt]
    exact h.ids
  writes q hq := by
    rw [isWrite_append (isWrite_lt (h.writes q hq))]
    exact h.writes q hq
  connect i hi := by
    obtain ⟨hlt, hw⟩ := h.connect i hi
    rw [isWrite_append hlt, length_append]
    exact ⟨Nat.lt_succ_of_lt hlt, hw⟩
  shutdown i hi := by
    obtain ⟨hlt, hw⟩ := h.shutdown i hi
    rw [isWrite_append hlt, length_append]
    exact ⟨Nat.lt_succ_of_lt hlt, hw⟩
  calledLt p hp := by
    rw [length_append]
    exact Nat.lt_succ_of_lt (h.calledLt p hp)
  sentLt p hp := by
    rw [length_append]
    exact Nat.lt_succ_of_lt (h.sentLt p hp)
  sorted := h.sorted
  prefixes i := by
    by_cases hi : i < r.calls.length
    · rw [dataOf_append hi]
      exact h.prefixes i
    · rw [show acceptedOf r.sent i = [] from acceptedOf_none fun p hp => by have := h.sentLt p hp; omega]
      exact nil_prefix
  queued q hq := by
    rw [dataOf_append (isWrite_lt (h.writes q (mem_append_right _ hq)))]
    exact h.queued q hq
  completed q hq := by
    rw [dataOf_append (isWrite_lt (h.writes q (mem_append_left _ hq)))]
    exact h.completed q hq
  called p hp := by
    rw [isWrite_append (h.calledLt p hp), dataOf_append (h.calledLt p hp)]
    exact h.called p hp
  behind q hq p hp hlt := by
    rw [isTryWrite_append (h.sentLt p hp)]
    exact h.behind q hq p hp hlt

variable {size : ℕ} {q : WriteReq} {rest : List WriteReq}

theorem submit (h : Ordered r) {bufs : List Buf} {sendHandle cb : Bool} {active : ℕ} :
    Ordered { r with
      queue := r.queue ++ [⟨r.calls.length, some bufs, 0, 0, sendHandle, cb⟩]
      size := size
      active := active
      calls := r.calls ++ [.write bufs cb] } := by
  have he := h.extend (.write bufs cb)
  refine { he with ids := ?_, writes := ?_, queued := ?_, behind := ?_ }
  · have hsplit : ∀ l : List ℕ, ∀ q : WriteReq, l ++ (r.running ++ r.completed ++ (r.queue ++ [q])).map (·.id) =
        l ++ (r.running ++ r.completed ++ r.queue).map (·.id) ++ [q.id] := fun l q => by simp
    rw [hsplit, writesCalled_append h.calledLt]
    refine pairwise_append.2 ⟨h.ids, pairwise_singleton _ _, ?_⟩
    intro i hi j hj
    rw [mem_singleton] at hj
    subst hj
    rcases mem_append.1 hi with hi | hi
    · obtain ⟨p, hp, rfl⟩ := mem_map.1 (mem_filter.1 hi).1
      exact h.calledLt p hp
    · obtain ⟨q, hq, rfl⟩ := mem_map.1 hi
      exact isWrite_lt (h.writes q hq)
  · intro q hq
    rw [← append_assoc] at hq
    rcases mem_append.1 hq with hq | hq
    · exact he.writes q hq
    · rw [mem_singleton] at hq
      subst hq
      exact isWrite_last
  · intro q hq
    rcases mem_append.1 hq with hq | hq
    · exact he.queued q hq
    · rw [mem_singleton] at hq
      subst hq
      refine ⟨rfl, ?_⟩
      rw [acceptedOf_none fun p hp => (h.sentLt p hp).ne, dataOf_last]
      rfl
  · intro q hq p hp hlt
    rcases mem_append.1 hq with hq | hq
    · exact he.behind q hq p hp hlt
    · rw [mem_singleton] at hq
      subst hq
      exact absurd (h.sentLt p hp) hlt.not_gt

theorem tryWrite (h : Ordered r) (hempty : ∀ q ∈ r.queue, q.bytes = []) {bufs : List Buf} {bytes : List UInt8}
    (hb : bytes <+: bufs.flatten) :
    Ordered { r with
      sent := r.sent ++ bytes.map (Prod.mk r.calls.length)
      calls := r.calls ++ [.tryWrite bufs] } := by
  have he := h.extend (.tryWrite bufs)
  have hold : ∀ i, i ≠ r.calls.length → acceptedOf (r.sent ++ bytes.map (Prod.mk r.calls.length)) i = acceptedOf r.sent i := by
    intro i hi
    rw [acceptedOf_append, acceptedOf_other hi.symm, append_nil]
  refine { he with sentLt := ?_, sorted := ?_, prefixes := ?_, queued := ?_, completed := ?_, called := ?_, behind := ?_ }
  · intro p hp
    rcases mem_append.1 hp with hp | hp
    · exact he.sentLt p hp
    · obtain ⟨b, -, rfl⟩ := mem_map.1 hp
      simp
  · exact sorted_append h.sorted fun _ p hp => (h.sentLt p hp).le
  · intro i
    by_cases hi : i = r.calls.length
    · subst hi
      rw [acceptedOf_append, acceptedOf_none fun p hp => (h.sentLt p hp).ne, acceptedOf_same, dataOf_last]
      exact hb
    · rw [hold i hi]
      exact he.prefixes i
  · intro q hq
    rw [hold q.id (isWrite_lt (h.writes q (mem_append_right _ hq))).ne]
    exact he.queued q hq
  · intro q hq
    rw [hold q.id (isWrite_lt (h.writes q (mem_append_left _ hq))).ne]
    exact he.completed q hq
  · intro p hp
    rw [hold p.1 (h.calledLt p hp).ne]
    exact he.called p hp
  · intro q hq p hp hlt
    rcases mem_append.1 hp with hp | hp
    · exact he.behind q hq p hp hlt
    · obtain ⟨b, -, rfl⟩ := mem_map.1 hp
      exact ⟨hempty q hq, isTryWrite_last⟩

theorem head_ne (h : Ordered r) (hq : r.queue = q :: rest) :
    (∀ x ∈ r.running ++ r.completed, x.id ≠ q.id) ∧ (∀ x ∈ rest, q.id < x.id) ∧ ∀ i ∈ writesCalled r.calls r.called, i ≠ q.id := by
  have hids := h.ids
  rw [hq, map_append] at hids
  obtain ⟨-, hids, hcalled⟩ := pairwise_append.1 hids
  obtain ⟨-, hqueue, hdone⟩ := pairwise_append.1 hids
  rw [map_cons, pairwise_cons] at hqueue
  refine ⟨fun x hx => ?_, fun x hx => hqueue.1 _ (mem_map_of_mem hx), fun i hi => ?_⟩
  · exact (hdone _ (mem_map_of_mem hx) _ (by simp)).ne
  · exact (hcalled i hi _ (by simp)).ne

theorem wrote (h : Ordered r) {n k : ℕ} {bs : List Buf} (hq : r.queue = q :: rest)
    (ha : advance n q.remaining = some (bs, k)) :
    Ordered { r with
      queue := q.updated bs k :: rest
      size := size
      sent := r.sent ++ (q.bytes.take n).map (Prod.mk q.id) } := by
  obtain ⟨hdone, hrest, hcalled⟩ := h.head_ne hq
  have hmem : q ∈ r.queue := by simp [hq]
  have hw := h.writes q (mem_append_right _ hmem)
  have hdata := (h.queued q hmem).2
  have hself : acceptedOf (r.sent ++ (q.bytes.take n).map (Prod.mk q.id)) q.id = acceptedOf r.sent q.id ++ q.bytes.take n := by
    rw [acceptedOf_append, acceptedOf_same]
  have hold : ∀ i, i ≠ q.id → acceptedOf (r.sent ++ (q.bytes.take n).map (Prod.mk q.id)) i = acceptedOf r.sent i := by
    intro i hi
    rw [acceptedOf_append, acceptedOf_other hi.symm, append_nil]
  refine { h with
    ids := ?_, writes := ?_, sentLt := ?_, sorted := ?_, prefixes := ?_, queued := ?_, completed := ?_, called := ?_, behind := ?_ }
  · have := h.ids
    rw [hq] at this
    simpa using this
  · intro x hx
    have hor : x ∈ r.running ++ r.completed ∨ x = q.updated bs k ∨ x ∈ rest := by simpa [or_assoc] using hx
    rcases hor with hx | rfl | hx
    · exact h.writes x (mem_append_left _ hx)
    · exact hw
    · exact h.writes x (mem_append_right _ (by simp [hq, hx]))
  · intro p hp
    rcases mem_append.1 hp with hp | hp
    · exact h.sentLt p hp
    · obtain ⟨b, -, rfl⟩ := mem_map.1 hp
      exact isWrite_lt hw
  · refine sorted_append h.sorted fun hb p hp => ?_
    -- a later byte before these: the request has none left
    by_contra hlt
    rw [(h.behind q hmem p hp (not_le.1 hlt)).1] at hb
    simp at hb
  · intro i
    by_cases hi : i = q.id
    · subst hi
      rw [hself, ← hdata]
      exact (prefix_append_right_inj _).2 (List.take_prefix _ _)
    · rw [hold i hi]
      exact h.prefixes i
  · intro x hx
    rcases mem_cons.1 hx with rfl | hx
    · refine ⟨(h.queued q hmem).1, ?_⟩
      rw [WriteReq.updated_id, hself, WriteReq.updated_bytes ha, append_assoc, take_append_drop, hdata]
    · rw [hold x.id (hrest x hx).ne']
      exact h.queued x (by simp [hq, hx])
  · intro x hx
    rw [hold x.id (hdone x hx)]
    exact h.completed x hx
  · intro p hp hpw
    have hne : p.1 ≠ q.id := hcalled p.1 (mem_filter.2 ⟨mem_map_of_mem hp, hpw⟩)
    rw [hold p.1 hne]
    exact h.called p hp hpw
  · intro x hx p hp hlt
    have hx' : x.id = q.id ∧ x.bytes = q.bytes.drop n ∨ x ∈ rest := by
      rcases mem_cons.1 hx with rfl | hx
      · exact .inl ⟨rfl, WriteReq.updated_bytes ha⟩
      · exact .inr hx
    rcases mem_append.1 hp with hp | hp
    · rcases hx' with ⟨hid, hbytes⟩ | hx'
      · obtain ⟨hnil, htry⟩ := h.behind q hmem p hp (hid ▸ hlt)
        exact ⟨by rw [hbytes, hnil, drop_nil], htry⟩
      · exact h.behind x (by simp [hq, hx']) p hp hlt
    · obtain ⟨b, -, rfl⟩ := mem_map.1 hp
      rcases hx' with ⟨hid, -⟩ | hx'
      · exact absurd hlt (by simp [hid])
      · exact absurd (hrest x hx') (not_lt.2 (le_of_lt hlt))

theorem complete (h : Ordered r) {q' : WriteReq} (hq : r.queue = q :: rest) (hid : q'.id = q.id)
    (he : q'.error = 0 → q.bytes = []) :
    Ordered { r with queue := rest, completed := r.completed ++ [q'] } := by
  have hmem : q ∈ r.queue := by simp [hq]
  have hrest : ∀ x ∈ rest, x ∈ r.queue := fun x hx => by simp [hq, hx]
  refine { h with ids := ?_, writes := ?_, queued := ?_, completed := ?_, behind := ?_ }
  · have := h.ids
    rw [hq] at this
    simpa [hid] using this
  · intro x hx
    have hor : x ∈ r.running ++ r.completed ∨ x = q' ∨ x ∈ rest := by
      simpa [or_assoc] using hx
    rcases hor with hx | rfl | hx
    · exact h.writes x (mem_append_left _ hx)
    · rw [hid]
      exact h.writes q (mem_append_right _ hmem)
    · exact h.writes x (mem_append_right _ (hrest x hx))
  · exact fun x hx => h.queued x (hrest x hx)
  · intro x hx hx0
    rw [← append_assoc] at hx
    rcases mem_append.1 hx with hx | hx
    · exact h.completed x hx hx0
    · rw [mem_singleton] at hx
      subst hx
      have := (h.queued q hmem).2
      rw [he hx0, append_nil] at this
      rw [hid]
      exact this
  · exact fun x hx => h.behind x (hrest x hx)

theorem flush (h : Ordered r) :
    Ordered { r with
      queue := []
      completed := r.completed ++ r.queue.map fun q => { q with error := UV_ECANCELED } } := by
  have hcancelled : ∀ x ∈ r.queue.map fun q => { q with error := UV_ECANCELED }, x.error ≠ 0 ∧ ∃ q ∈ r.queue, q.id = x.id := by
    intro x hx
    obtain ⟨q, hq, rfl⟩ := mem_map.1 hx
    exact ⟨(by decide : UV_ECANCELED ≠ 0), q, hq, rfl⟩
  refine { h with ids := ?_, writes := ?_, queued := nofun, completed := ?_, behind := nofun }
  · have := h.ids
    simpa [Function.comp_def] using this
  · intro x hx
    rw [append_nil, ← append_assoc] at hx
    rcases mem_append.1 hx with hx | hx
    · exact h.writes x (mem_append_left _ hx)
    · obtain ⟨-, q, hq, hid⟩ := hcancelled x hx
      rw [← hid]
      exact h.writes q (mem_append_right _ hq)
  · intro x hx hx0
    rw [← append_assoc] at hx
    rcases mem_append.1 hx with hx | hx
    · exact h.completed x hx hx0
    · exact absurd hx0 (hcancelled x hx).1

theorem begin (h : Ordered r) (hr : r.running = []) : Ordered { r with running := r.completed, completed := [] } := by
  obtain ⟨ids, writes, connect, shutdown, calledLt, sentLt, sorted, prefixes, queued, completed, called, behind⟩ := h
  rw [hr] at ids writes completed
  exact ⟨by simpa using ids, by simpa using writes, connect, shutdown, calledLt, sentLt, sorted, prefixes, queued,
    by simpa using completed, called, behind⟩

theorem pop (h : Ordered r) {active : ℕ} (hq : r.running = q :: rest) :
    Ordered { r with running := rest, size := size, active := active, called := r.called ++ [(q.id, q.error)] } := by
  have hw : isWrite r.calls q.id = true := h.writes q (by simp [hq])
  have hrest : ∀ x, x ∈ rest → x ∈ r.running := fun x hx => by simp [hq, hx]
  refine { h with ids := ?_, writes := ?_, calledLt := ?_, completed := ?_, called := ?_ }
  · have hcalled : writesCalled r.calls (r.called ++ [(q.id, q.error)]) = writesCalled r.calls r.called ++ [q.id] := by
      simp [writesCalled, hw]
    have := h.ids
    rw [hq] at this
    rw [hcalled]
    simpa using this
  · intro x hx
    have hor : x ∈ rest ∨ x ∈ r.completed ∨ x ∈ r.queue := by simpa [or_assoc] using hx
    apply h.writes
    rcases hor with hx | hx | hx
    · simp [hrest x hx]
    · simp [hx]
    · simp [hx]
  · intro p hp
    rcases mem_append.1 hp with hp | hp
    · exact h.calledLt p hp
    · rw [mem_singleton] at hp
      subst hp
      exact isWrite_lt hw
  · intro x hx
    apply h.completed
    rcases mem_append.1 hx with hx | hx
    · exact mem_append_left _ (hrest x hx)
    · exact mem_append_right _ hx
  · intro p hp hpw hp0
    rcases mem_append.1 hp with hp | hp
    · exact h.called p hp hpw hp0
    · rw [mem_singleton] at hp
      subst hp
      exact h.completed q (by simp [hq]) hp0

theorem callOther (h : Ordered r) {i : ℕ} {e : ℤ} (hi : i < r.calls.length ∧ isWrite r.calls i = false) :
    Ordered { r with called := r.called ++ [(i, e)] } := by
  refine { h with ids := ?_, calledLt := ?_, called := ?_ }
  · have hcalled : writesCalled r.calls (r.called ++ [(i, e)]) = writesCalled r.calls r.called := by
      simp [writesCalled, hi.2]
    rw [hcalled]
    exact h.ids
  · intro p hp
    rcases mem_append.1 hp with hp | hp
    · exact h.calledLt p hp
    · rw [mem_singleton] at hp
      subst hp
      exact hi.1
  · intro p hp hpw
    rcases mem_append.1 hp with hp | hp
    · exact h.called p hp hpw
    · rw [mem_singleton] at hp
      subst hp
      rw [hi.2] at hpw
      cases hpw

theorem last_other {c : Call} (hc : c.isWrite = false) :
    r.calls.length < (r.calls ++ [c]).length ∧ isWrite (r.calls ++ [c]) r.calls.length = false := by
  rw [isWrite_last]
  exact ⟨by simp, hc⟩

/-- **One step** of the requests keeps the order. -/
theorem micro (hN : T.narrow) (h : Ordered r) (hempty : r.size = 0 → ∀ q ∈ r.queue, q.bytes = []) (hm : Micro T r r') :
    Ordered r' := by
  cases hm with
  | submit => exact h.submit
  | leak => exact { h with }
  | spill hn => exact absurd hN hn
  | @tryWrite bufs n h0 hn =>
    rw [offered_take hn]
    exact h.tryWrite (hempty h0) (List.take_prefix _ _)
  | @wrote q rest n k bs hq hn hs ha =>
    rw [offered_take hn]
    exact h.wrote hq ha
  | finish hq hdone => exact h.complete hq (WriteReq.finished_id _) fun _ => WriteReq.done_bytes hdone
  | fail hq he => exact h.complete hq rfl fun h0 => absurd h0 he.ne
  | flush => exact h.flush
  | begin hr => exact h.begin hr
  | pop hq => exact h.pop hq
  | @connect cb => exact { h.extend (.connect cb) with connect := fun i hi => by cases hi; exact last_other rfl }
  | @lose cb c hp hc =>
    refine { h.extend (.connect cb) with connect := fun i hi => ?_ }
    rw [hc i hi]
    exact last_other rfl
  | connected hc => exact { h.callOther (h.connect _ hc) with connect := nofun }
  | @shutdown cb => exact { h.extend (.shutdown cb) with shutdown := fun i hi => by cases hi; exact last_other rfl }
  | shut hc => exact { h.callOther (h.shutdown _ hc) with shutdown := nofun }

end Ordered

/-! ## No write is lost -/

/-- Every write that was submitted is queued, completed or called. -/
def Kept (r : Reqs) : Prop := ∀ i, isWrite r.calls i = true →
  i ∈ writesCalled r.calls r.called ++ (r.running ++ r.completed ++ r.queue).map (·.id)

theorem Kept.extend (h : Kept r) (hlt : ∀ p ∈ r.called, p.1 < r.calls.length) {c : Call} {i : ℕ}
    (hi : isWrite (r.calls ++ [c]) i = true) :
    i ∈ writesCalled (r.calls ++ [c]) r.called ++ (r.running ++ r.completed ++ r.queue).map (·.id) ∨
      i = r.calls.length ∧ c.isWrite = true := by
  by_cases hold : i < r.calls.length
  · rw [isWrite_append hold] at hi
    rw [Ordered.writesCalled_append hlt]
    exact .inl (h i hi)
  · have := isWrite_lt hi
    rw [length_append, length_singleton] at this
    obtain rfl : i = r.calls.length := by omega
    rw [isWrite_last] at hi
    exact .inr ⟨rfl, hi⟩

theorem Kept.extendOther (h : Kept r) (hlt : ∀ p ∈ r.called, p.1 < r.calls.length) {c : Call} (hc : c.isWrite = false) :
    Kept { r with calls := r.calls ++ [c] } := by
  intro i hi
  refine (h.extend hlt hi).resolve_right fun hlast => ?_
  rw [hc] at hlast
  cases hlast.2

theorem Kept.micro (h : Kept r) (hlt : ∀ p ∈ r.called, p.1 < r.calls.length) (hm : Micro T r r') : Kept r' := by
  have hcall : ∀ {j : ℕ} {e : ℤ} {i : ℕ}, i ∈ writesCalled r.calls r.called → i ∈ writesCalled r.calls (r.called ++ [(j, e)]) := by
    intro j e i hi
    unfold writesCalled
    rw [map_append, filter_append]
    exact mem_append_left _ hi
  cases hm with
  | submit =>
    intro i hi
    rcases h.extend hlt hi with hi | ⟨rfl, -⟩
    · simp only [map_append, mem_append] at hi ⊢
      tauto
    · simp
  | leak | spill => exact h
  | tryWrite | connect | lose | shutdown => exact h.extendOther hlt rfl
  | connected | shut =>
    intro i hi
    exact mem_append.2 ((mem_append.1 (h i hi)).imp_left hcall)
  | wrote hq | finish hq | fail hq =>
    intro i hi
    have := h i hi
    rw [hq] at this
    simp at this ⊢
    tauto
  | flush =>
    intro i hi
    have := h i hi
    simp [Function.comp_def] at this ⊢
    tauto
  | begin hr =>
    intro i hi
    have := h i hi
    rw [hr] at this
    simpa using this
  | @pop q rest size hq =>
    intro i hi
    have := h i hi
    rw [hq] at this
    rcases mem_append.1 this with hold | hnew
    · exact mem_append_left _ (hcall hold)
    · by_cases hid : i = q.id
      · refine mem_append_left _ (mem_filter.2 ⟨?_, hi⟩)
        simp [hid]
      · refine mem_append_right _ ?_
        simp only [map_append, map_cons, mem_append, mem_cons, hid, false_or] at hnew ⊢
        exact hnew

/-! ## Every run -/

/-- The runs whose outstanding bytes fit in a `size_t`, and counts in an `int`. -/
def fitting (iovmax : ℕ) : Terms where
  iovmax := iovmax
  lossless := False
  bounded := True
  tidy := False
  dying := False
  narrow := True

/-- The requests are accounted for, in order, and complete. -/
structure InOrder (r : Reqs) : Prop where
  counted : Counted r
  ordered : Ordered r
  kept : Kept r

theorem InOrder.empty (h : InOrder r) (h0 : r.size = 0) : ∀ q ∈ r.queue, q.bytes = [] := by
  intro q hq
  have hsum : r.outstanding = 0 := by rw [← h.counted.size, h0]
  unfold Reqs.outstanding at hsum
  rw [sum_eq_zero_iff] at hsum
  exact eq_nil_of_length_eq_zero (hsum _ (mem_map_of_mem (by simp [hq])))

theorem InOrder.micro (hB : T.bounded) (hN : T.narrow) (hm : Micro T r r') (h : InOrder r) : InOrder r' where
  counted := h.counted.micro hB hm
  ordered := h.ordered.micro hN h.empty hm
  kept := h.kept.micro h.ordered.calledLt hm

theorem InOrder.init {type : HandleType} {ipc b : Bool} : InOrder (streamInit type ipc b).view where
  counted := ⟨rfl, (by decide : 0 < sizeMax)⟩
  ordered := by
    refine ⟨List.Pairwise.nil, nofun, nofun, nofun, nofun, nofun, List.Pairwise.nil, fun _ => nil_prefix, nofun, nofun, nofun, nofun⟩
  kept := nofun

theorem InOrder.micros (hB : T.bounded) (hN : T.narrow) (hm : Micros T r r') (h : InOrder r) :
    InOrder r' ∧ Relation.ReflTransGen (fun a b => Micro T a b ∧ Behind b) r r' := by
  induction hm with
  | refl => exact ⟨h, .refl⟩
  | tail _ hs ih =>
    have hnext := ih.1.micro hB hN hs
    exact ⟨hnext, ih.2.tail ⟨hs, hnext.ordered.behind⟩⟩

theorem inOrder_run {iovmax : ℕ} :
    ((system iovmax).restrict fun s l => Fits s l ∧ Narrow l).Inductive fun s => Wf (fitting iovmax) s ∧ InOrder s.view :=
  inductive_of_micros (T := fitting iovmax) id (fun _ _ h => ⟨nofun, nofun, fun _ => h.1, nofun, fun _ => h.2⟩)
    (fun _ _ _ => InOrder.init) fun _ _ hm h => h.micro trivial trivial hm

structure State.Written (iovmax : ℕ) (s : State) : Prop where
  /-- The bytes accepted are what was accepted of each call, in the order of the calls. -/
  concat : s.sent = (List.range s.calls.length).flatMap fun i => (acceptedOf s.sent i).map (Prod.mk i)
  prefixes : ∀ i, acceptedOf s.sent i <+: dataOf s.calls i
  /-- A write whose callback got 0 was accepted as a whole. -/
  whole : ∀ p ∈ s.called, isWrite s.calls p.1 = true → p.2 = 0 → acceptedOf s.sent p.1 = dataOf s.calls p.1
  behind : Behind s.view
  /-- So it is at each moment of a step. -/
  moments : ∀ l t, Fits s l → Narrow l → step iovmax s l = .ok t →
    Relation.ReflTransGen (fun a b => Micro (fitting iovmax) a b ∧ Behind b) s.view t.view
  callbacks : (writesCalled s.calls s.called).Pairwise (· < ·)
  /-- A write whose callback has not started is queued or completed. -/
  kept : ∀ i, isWrite s.calls i = true → i ∉ writesCalled s.calls s.called →
    ∃ q ∈ s.pq ++ s.writeCompletedQueue ++ s.writeQueue, q.id = i

/-- **The order of writes**, while what is outstanding fits in a `size_t` and each count in an `int`: the kernel accepts a
prefix of each call's bytes, call by call in the order of submission, all of them where the
status is 0, and the callbacks start in this order. No byte is accepted behind a request that
is still queued, but those of a `uv_try_write` behind requests with nothing left to write. -/
theorem write_order {iovmax : ℕ} {s : State} (h : ((system iovmax).restrict fun s l => Fits s l ∧ Narrow l).Reachable s) :
    s.Written iovmax := by
  obtain ⟨hw, hi⟩ := inOrder_run.reachable h
  have ho := hi.ordered
  refine ⟨sorted_eq_flatMap ho.sorted ho.sentLt, ho.prefixes, ho.called, ho.behind, fun l t hl hn hst => ?_,
    (pairwise_append.1 ho.ids).1, fun i hi' hne => ?_⟩
  · have hstep := step_lib hw id (l := l) ⟨nofun, nofun, fun _ => hl, nofun, fun _ => hn⟩
    exact (hi.micros trivial trivial (hstep.of_ok hst).2).2
  · have hmem := (mem_append.1 (hi.kept i hi')).resolve_left hne
    exact mem_map.1 hmem

/-- A write in two parts, and the callback. -/
theorem write_order_two : ∃ s, ((system 1024).restrict fun s l => Fits s l ∧ Narrow l).Reachable s ∧ s.called = [(0, 0)] ∧
    acceptedOf s.sent 0 = [1, 2] := by
  have hone : ∀ o ∈ [Outcome.wrote 1], o.Narrow := by simp [Outcome.Narrow]
  have h0 : ((system 1024).restrict fun s l => Fits s l ∧ Narrow l).Reachable (streamInit .tcp false false) :=
    .init ⟨_, _, _, rfl⟩
  have h1 := h0.next (.open 3 true true) ⟨⟨trivial, nofun⟩, rfl⟩
  have h2 := h1.next (.write [[1], [], [2]] none true true [.wrote 1]) ⟨⟨fun _ => by decide, hone⟩, rfl⟩
  have h3 := h2.next (.io ⟨false, true, false, false⟩ ⟨[.wrote 1], 0, 0, .again, true⟩) ⟨⟨trivial, hone⟩, rfl⟩
  exact ⟨_, h3, rfl, (write_order h3).whole (0, 0) (mem_singleton_self _) rfl rfl⟩

def opened : State :=
  { streamInit .tcp false false with fd := 3, flags := { Flags.none false with readable := true, writable := true } }

theorem opened_reachable {iovmax : ℕ} : (system iovmax).Reachable opened :=
  LTS.Reachable.step (l := .open 3 true true) (.init ⟨.tcp, false, false, rfl⟩) rfl

theorem write_again {iovmax : ℕ} {bufs : List Buf} (hne : bufs ≠ []) (h0 : countBufs bufs = 0) :
    step iovmax opened (.write bufs none true true [.again]) = .ok { opened with
      writeQueue := [⟨0, some bufs, 0, 0, false, true⟩]
      pollout := true
      activeReqs := 1
      calls := [.write bufs true] } := by
  have hcheck : opened.checkBeforeWrite none = true := rfl
  show opened.write2 iovmax bufs none true true [.again] = _
  unfold State.write2
  rw [if_neg hne, if_neg (by rw [hcheck]; nofun)]
  rw [if_neg (fun h => by cases h.2)]
  unfold State.writeSubmit
  rw [h0]
  rfl

/-- A write whose size counts as zero is overtaken by a `uv_try_write`. -/
theorem overtaken {bufs : List Buf} (hne : bufs ≠ []) (h0 : countBufs bufs = 0) :
    ∃ s, (system 1024).Reachable s ∧ ∃ q ∈ s.writeQueue, q.bytes = bufs.flatten ∧ ∃ p ∈ s.sent, q.id < p.1 := by
  have hwrite : (system 1024).Reachable _ := opened_reachable.step (write_again hne h0)
  have htry : (system 1024).Reachable _ := hwrite.step (l := .tryWrite [[1]] (.wrote 1)) rfl
  exact ⟨_, htry, _, mem_singleton_self _, rfl, (1, 1), mem_singleton_self _, Nat.zero_lt_one⟩

def huge : List Buf := List.replicate (2 ^ 18) (List.replicate (2 ^ 46) 0)

theorem huge_ne : huge ≠ [] := fun h => by
  cases h

theorem huge_length : huge.flatten.length = 2 ^ 64 := by
  rw [huge, length_flatten, map_replicate, sum_replicate, length_replicate, smul_eq_mul, ← pow_add]

theorem huge_count : countBufs huge = 0 := by
  rw [countBufs_eq, huge_length]
  rfl

/-- Bytes of a `uv_try_write` go out ahead of a queued write, one of no bytes or one of 2^64. -/
theorem writes_overtaken :
    (∃ s, (system 1024).Reachable s ∧ ∃ q ∈ s.writeQueue, q.bytes = [] ∧ ∃ p ∈ s.sent, q.id < p.1) ∧
    ∃ s, (system 1024).Reachable s ∧ ∃ q ∈ s.writeQueue, q.bytes.length = 2 ^ 64 ∧ ∃ p ∈ s.sent, q.id < p.1 := by
  refine ⟨@overtaken [[]] nofun rfl, ?_⟩
  obtain ⟨s, hs, q, hq, hbytes, hp⟩ := overtaken huge_ne huge_count
  exact ⟨s, hs, q, hq, by rw [hbytes, huge_length], hp⟩

end Libuv.L3.Stream
