import Libuv.L3Stream.UdpQueue

/-!
# UDP handles: the two ways to send

`uv__udp_sendmmsg` against the loop of `uv__udp_sendmsg`, with a kernel that decides each datagram by itself. An error of
`sendmmsg` is that of the first datagram of the batch; the code gives it to all of them.

* `Batched`, `oneByOne`: what either does to a queue, without the handle.
* `batch_agrees`: the fates of the requests are the same exactly if every batch whose first datagram fails fails as a whole, with
  one error.
-/
namespace Libuv.L3.Udp

open List

/-- What the kernel decides about a datagram; `blocks` is one of `EAGAIN`, `EWOULDBLOCK` and `ENOBUFS`. -/
inductive Decision where
  | sends
  | fails (errno : ℕ)
  | blocks
  deriving DecidableEq

/-- The number of leading datagrams that are sent, or the error of the first one. -/
def independent (d : Req → Decision) : Kernel := fun batch =>
  let n := (batch.takeWhile fun r => d r = .sends).length
  if n = 0 then
    match batch.head?.map d with
    | some (.fails errno) => .error errno
    | _ => .again
  else .sent (n - 1)

/-- `uv__udp_sendmmsg` and, while it feeds the watcher and leaves requests, the `uv__udp_io` of the pending queue. -/
def redispatch (k : Kernel) : ℕ → State → State
  | 0, s => s
  | fuel + 1, s =>
    let t := sendmmsg s k
    if t.node = .linked ∧ t.writeQueue ≠ [] then redispatch k fuel { t with node := .out } else t

/-- A fate: `none` if the datagram is sent, or the error. -/
abbrev Fate := Req × Option ℕ

def Status.fate : Status → Option ℕ
  | .sent _ => none
  | .err errno => some errno

def fates (s : State) : List Fate := s.writeCompletedQueue.map fun c => (c.1, c.2.fate)

/-- The datagrams with a fate that the kernel took. -/
def taken (fs : List Fate) : List ℕ := (fs.filter fun f => f.2 = none).map fun f => f.1.seq

def ofQueue (rs : List Req) : State := { State.fresh with writeQueue := rs }

/-! ## Without the handle -/

def oneByOne (d : Req → Decision) : List Req → List Fate × List Req
  | [] => ([], [])
  | r :: rs =>
    match d r with
    | .sends => ((r, none) :: (oneByOne d rs).1, (oneByOne d rs).2)
    | .fails errno => ((r, some errno) :: (oneByOne d rs).1, (oneByOne d rs).2)
    | .blocks => ([], r :: rs)

inductive Batched (d : Req → Decision) : List Req → List Fate → List Req → Prop
  | nil : Batched d [] [] []
  | blocks {r : Req} {rs : List Req} (h : d r = .blocks) : Batched d (r :: rs) [] (r :: rs)
  | sends {r : Req} {rs left : List Req} {fs : List Fate} (h : d r = .sends) (hrs : Batched d rs fs left) :
      Batched d (r :: rs) ((r, none) :: fs) left
  | fails {r : Req} {rs left : List Req} {fs : List Fate} {errno : ℕ} (h : d r = .fails errno)
      (hrs : Batched d ((r :: rs).drop maxWidth) fs left) :
      Batched d (r :: rs) (((r :: rs).take maxWidth).map (fun x => (x, some errno)) ++ fs) left

/-- From every failing datagram that is reached on, as many as a batch takes fail with its error. -/
inductive FailsAlike (d : Req → Decision) : List Req → Prop
  | nil : FailsAlike d []
  | blocks {r : Req} {rs : List Req} (h : d r = .blocks) : FailsAlike d (r :: rs)
  | sends {r : Req} {rs : List Req} (h : d r = .sends) (hrs : FailsAlike d rs) : FailsAlike d (r :: rs)
  | fails {r : Req} {rs : List Req} {errno : ℕ} (h : ∀ x ∈ (r :: rs).take maxWidth, d x = .fails errno)
      (hrs : FailsAlike d ((r :: rs).drop maxWidth)) : FailsAlike d (r :: rs)

section Lists
variable {d : Req → Decision} {rs left : List Req} {fs : List Fate} {errno : ℕ}

theorem Batched.sends_append {a : List Req} (ha : ∀ x ∈ a, d x = .sends) (h : Batched d rs fs left) :
    Batched d (a ++ rs) (a.map (fun x => (x, none)) ++ fs) left := by
  induction a with
  | nil => exact h
  | cons x a ih => exact .sends (ha x (.head _)) (ih fun y hy => ha y (.tail _ hy))

theorem oneByOne_fails {a : List Req} (ha : ∀ x ∈ a, d x = .fails errno) (rs : List Req) :
    oneByOne d (a ++ rs) = (a.map (fun x => (x, some errno)) ++ (oneByOne d rs).1, (oneByOne d rs).2) := by
  induction a with
  | nil => rfl
  | cons x a ih =>
    have hx := ha x (.head _)
    rw [cons_append, oneByOne, ih fun y hy => ha y (.tail _ hy)]
    simp [hx]

theorem mem_oneByOne {r : Req} (h : (r, some errno) ∈ (oneByOne d rs).1) : d r = .fails errno := by
  induction rs with
  | nil => cases h
  | cons x rs ih =>
    rw [oneByOne] at h
    cases hx : d x with
    | sends =>
      rw [hx] at h
      rcases mem_cons.1 h with e | h
      · cases e
      · exact ih h
    | fails e =>
      rw [hx] at h
      rcases mem_cons.1 h with e' | h
      · cases e'
        exact hx
      · exact ih h
    | blocks =>
      rw [hx] at h
      cases h

theorem Batched.agrees_iff (h : Batched d rs fs left) :
    (fs = (oneByOne d rs).1 ∧ left = (oneByOne d rs).2) ↔ FailsAlike d rs := by
  induction h with
  | nil => exact ⟨fun _ => .nil, fun _ => ⟨rfl, rfl⟩⟩
  | blocks h =>
    rw [oneByOne, h]
    exact ⟨fun _ => .blocks h, fun _ => ⟨rfl, rfl⟩⟩
  | @sends r rs left fs h _ ih =>
    rw [oneByOne, h]
    simp only [List.cons.injEq, true_and]
    rw [ih]
    constructor
    · exact .sends h
    · intro hf
      cases hf with
      | blocks h' => rw [h] at h'; cases h'
      | sends _ hrs => exact hrs
      | fails h' =>
        have := h' r (by simp [maxWidth])
        rw [h] at this
        cases this
  | @fails r rs left fs errno h _ ih =>
    constructor
    · rintro ⟨hfs, hleft⟩
      -- the fates of the batch are among those that the kernel decided
      have hall : ∀ x ∈ (r :: rs).take maxWidth, d x = .fails errno := by
        intro x hx
        apply @mem_oneByOne d (r :: rs)
        rw [← hfs]
        exact mem_append_left _ (mem_map.2 ⟨x, hx, rfl⟩)
      refine .fails hall (ih.1 ?_)
      have hsplit := oneByOne_fails hall ((r :: rs).drop maxWidth)
      rw [take_append_drop] at hsplit
      rw [hsplit] at hfs hleft
      exact ⟨append_cancel_left hfs, hleft⟩
    · intro hf
      cases hf with
      | blocks h' | sends h' => rw [h] at h'; cases h'
      | @fails _ _ e hall hrs =>
        have he := hall r (by simp [maxWidth])
        rw [h] at he
        cases he
        obtain ⟨hfs, hleft⟩ := ih.2 hrs
        have hsplit := oneByOne_fails hall ((r :: rs).drop maxWidth)
        rw [take_append_drop] at hsplit
        rw [hsplit, hfs, hleft]
        exact ⟨rfl, rfl⟩

end Lists

/-! ## The code -/

section Code
variable {d : Req → Decision} {s t : State} {fuel : ℕ} {rs left : List Req} {fs fs' : List Fate}

/-- `t` is `s` with these fates. -/
structure Gives (s t : State) (fs : List Fate) : Prop where
  closing : t.closing = s.closing
  fates : fates t = fates s ++ fs
  sent : t.sent = s.sent ++ taken fs

theorem Gives.nil (s : State) : Gives s s [] := ⟨rfl, (append_nil _).symm, (append_nil _).symm⟩

theorem Gives.trans {u : State} (h : Gives s t fs) (h' : Gives t u fs') : Gives s u (fs ++ fs') where
  closing := h'.closing.trans h.closing
  fates := by rw [h'.fates, h.fates, append_assoc]
  sent := by rw [h'.sent, h.sent, taken, taken, taken, filter_append, map_append, append_assoc]

theorem Gives.ioFeed (s : State) : Gives s (ioFeed s) [] :=
  ⟨ioFeed_closing s, by simp [Udp.fates], by simp [taken]⟩

theorem taken_sent (a : List Req) : taken (a.map fun x => (x, none)) = a.map (·.seq) := by
  induction a with
  | nil => rfl
  | cons x a ih => simpa [taken] using ih

theorem taken_error (a : List Req) (errno : ℕ) : taken (a.map fun x => (x, some errno)) = [] := by
  simp [taken]

theorem Gives.failed (s : State) (a w : List Req) (errno : ℕ) :
    Gives s { s with
      writeQueue := w, writeCompletedQueue := s.writeCompletedQueue ++ a.map fun x => (x, .err errno) }
      (a.map fun x => (x, some errno)) where
  closing := rfl
  fates := by
    rw [Udp.fates, map_append, map_map]
    rfl
  sent := by rw [taken_error, append_nil]

theorem Gives.took (s : State) (a w : List Req) (f : Req → ℕ) :
    Gives s { s with
      writeQueue := w, writeCompletedQueue := s.writeCompletedQueue ++ a.map fun x => (x, .sent (f x))
      sent := s.sent ++ a.map (·.seq) } (a.map fun x => (x, none)) where
  closing := rfl
  fates := by
    rw [Udp.fates, map_append, map_map]
    rfl
  sent := by rw [taken_sent]

theorem independent_blocks {r : Req} {rs : List Req} (h : d r = .blocks) : independent d (r :: rs) = .again := by
  simp [independent, h]

theorem independent_fails {r : Req} {rs : List Req} {errno : ℕ} (h : d r = .fails errno) :
    independent d (r :: rs) = .error errno := by
  simp [independent, h]

theorem independent_sends {r : Req} {rs : List Req} (h : d r = .sends) :
    ∃ n, independent d (r :: rs) = .sent n ∧ n ≤ rs.length ∧
      (r :: rs).take (n + 1) = (r :: rs).takeWhile fun r => d r = .sends := by
  refine ⟨((rs.takeWhile fun r => d r = .sends)).length, ?_, (List.takeWhile_prefix _).length_le, ?_⟩
  · simp [independent, h]
  · rw [takeWhile_cons_of_pos (by simp [h]), take_succ_cons]
    congr 1
    exact (prefix_iff_eq_take.1 (List.takeWhile_prefix _)).symm

theorem sendLoop_oneByOne (ho : s.closing = false) (hf : s.writeQueue.length ≤ fuel) :
    Gives s (sendLoop (independent d) fuel s) (oneByOne d s.writeQueue).1 ∧
      (sendLoop (independent d) fuel s).writeQueue = (oneByOne d s.writeQueue).2 := by
  induction fuel generalizing s with
  | zero =>
    rw [length_eq_zero_iff.1 (Nat.le_zero.1 hf)]
    exact ⟨.nil s, length_eq_zero_iff.1 (Nat.le_zero.1 hf)⟩
  | succ fuel ih =>
    rw [sendLoop]
    cases hw : s.writeQueue with
    | nil => exact ⟨.nil s, hw⟩
    | cons r rs =>
      rw [hw, length_cons] at hf
      -- the request `r` gets its status, and the loop goes on
      have hone (status : Status) (st : List ℕ) (hst : st = taken [(r, status.fate)]) :
          Gives s (sendLoop (independent d) fuel (Udp.ioFeed { s with
            writeQueue := rs, writeCompletedQueue := s.writeCompletedQueue ++ [(r, status)], sent := s.sent ++ st }))
            ((r, status.fate) :: (oneByOne d rs).1) ∧ (sendLoop (independent d) fuel (Udp.ioFeed { s with
            writeQueue := rs, writeCompletedQueue := s.writeCompletedQueue ++ [(r, status)], sent := s.sent ++ st })).writeQueue =
            (oneByOne d rs).2 := by
        have hmoved : Gives s { s with
            writeQueue := rs, writeCompletedQueue := s.writeCompletedQueue ++ [(r, status)], sent := s.sent ++ st }
            [(r, status.fate)] := ⟨rfl, by simp [Udp.fates], by rw [hst]⟩
        have hrest := ih (s := Udp.ioFeed { s with
          writeQueue := rs, writeCompletedQueue := s.writeCompletedQueue ++ [(r, status)], sent := s.sent ++ st })
          (by simpa using ho) (by simp; omega)
        rw [ioFeed_writeQueue] at hrest
        exact ⟨hmoved.trans ((Gives.ioFeed _).trans hrest.1), hrest.2⟩
      rw [oneByOne]
      cases hd : d r with
      | sends =>
        obtain ⟨n, hn, -, -⟩ := @independent_sends d r [] hd
        simp only [hn, call_open s ho]
        exact hone (.sent (countBufs r.bufs)) [r.seq] rfl
      | fails errno =>
        simp only [independent_fails hd, call_open s ho]
        have h := hone (.err errno) [] rfl
        simp only [append_nil] at h
        exact h
      | blocks =>
        simp only [independent_blocks hd, call_open s ho]
        exact ⟨.nil s, hw⟩

/-- One call of `uv__udp_sendmmsg` comes to a datagram that blocks, or has fed the watcher. -/
theorem drain_batched (ho : s.closing = false) (hn : s.node = .out) (hw : s.writeQueue ≠ [])
    (hf : s.writeQueue.length ≤ fuel) : ∃ fs, Gives s (writeQueueDrain (independent d) fuel s) fs ∧
      ((writeQueueDrain (independent d) fuel s).node = .out ∧
          Batched d s.writeQueue fs (writeQueueDrain (independent d) fuel s).writeQueue ∨
        (writeQueueDrain (independent d) fuel s).node = .linked ∧
          (writeQueueDrain (independent d) fuel s).writeQueue.length < s.writeQueue.length ∧
          ∀ fs' left, Batched d (writeQueueDrain (independent d) fuel s).writeQueue fs' left →
            Batched d s.writeQueue (fs ++ fs') left) := by
  induction fuel generalizing s with
  | zero => exact absurd (length_eq_zero_iff.1 (Nat.le_zero.1 hf)) hw
  | succ fuel ih =>
    obtain ⟨r, rs, hrs⟩ := exists_cons_of_ne_nil hw
    have hbatch : s.writeQueue.take maxWidth = r :: rs.take 19 := by
      rw [hrs]
      rfl
    rw [writeQueueDrain]
    rw [hbatch, call_open s ho]
    cases hd : d r with
    | blocks =>
      simp only [independent_blocks hd]
      refine ⟨[], .nil s, .inl ⟨hn, ?_⟩⟩
      rw [hrs]
      exact .blocks hd
    | fails errno =>
      simp only [independent_fails hd]
      have hdrop : s.writeQueue.drop (r :: rs.take 19).length = (r :: rs).drop maxWidth := by
        rw [hrs, length_cons, length_take, maxWidth, drop_succ_cons, drop_succ_cons]
        rcases Nat.le_total 19 rs.length with h | h
        · rw [Nat.min_eq_left h]
        · rw [Nat.min_eq_right h, drop_length, drop_of_length_le h]
      refine ⟨(r :: rs.take 19).map fun x => (x, some errno), ?_, .inr ⟨?_, ?_, ?_⟩⟩
      · have hfailed := (Gives.failed s (r :: rs.take 19) (s.writeQueue.drop (r :: rs.take 19).length) errno).trans (.ioFeed _)
        rwa [append_nil] at hfailed
      · simp [Udp.ioFeed, hn]
      · rw [ioFeed_writeQueue]
        rw [hdrop, hrs, length_drop, length_cons, maxWidth]
        omega
      · intro fs' left hleft
        rw [ioFeed_writeQueue] at hleft
        simp only [hdrop] at hleft
        rw [hrs]
        exact .fails hd hleft
    | sends =>
      obtain ⟨n, hsent, hle, htake⟩ := @independent_sends d r (rs.take 19) hd
      simp only [hsent]
      -- the datagrams that were sent are the first of the queue
      have hfirst : s.writeQueue.take (n + 1) = (r :: rs.take 19).take (n + 1) := by
        rw [← hbatch, take_take, Nat.min_eq_left]
        have h19 : (rs.take 19).length ≤ 19 := length_take_le ..
        rw [maxWidth]
        omega
      have hmem : ∀ x ∈ s.writeQueue.take (n + 1), d x = .sends := by
        intro x hx
        rw [hfirst, htake] at hx
        simpa using all_eq_true.1 all_takeWhile x hx
      have hsplit : s.writeQueue.take (n + 1) ++ s.writeQueue.drop (n + 1) = s.writeQueue := take_append_drop ..
      have htook := Gives.took s (s.writeQueue.take (n + 1)) (s.writeQueue.drop (n + 1)) fun x => x.bufs.headD 0
      have hlen : (s.writeQueue.drop (n + 1)).length < s.writeQueue.length := by
        rw [length_drop, hrs, length_cons]
        omega
      split_ifs with he
      · refine ⟨(s.writeQueue.take (n + 1)).map fun x => (x, none), ?_, .inr ⟨?_, ?_, ?_⟩⟩
        · have hfed := htook.trans (.ioFeed _)
          rwa [append_nil] at hfed
        · simp [Udp.ioFeed, hn]
        · rw [ioFeed_writeQueue]
          exact hlen
        · intro fs' left hleft
          rw [ioFeed_writeQueue] at hleft
          have := Batched.sends_append hmem hleft
          rwa [hsplit] at this
      · obtain ⟨fs, hgives, hrest⟩ := ih (s := { s with
          writeQueue := s.writeQueue.drop (n + 1)
          writeCompletedQueue := s.writeCompletedQueue ++
            (s.writeQueue.take (n + 1)).map fun x => (x, .sent (x.bufs.headD 0))
          sent := s.sent ++ (s.writeQueue.take (n + 1)).map (·.seq) }) ho hn he (Nat.le_of_lt_succ (hlen.trans_le hf))
        refine ⟨_, htook.trans hgives, ?_⟩
        rcases hrest with ⟨hout, hb⟩ | ⟨hlinked, hlt, hb⟩
        · refine .inl ⟨hout, ?_⟩
          have := Batched.sends_append hmem hb
          rwa [hsplit] at this
        · refine .inr ⟨hlinked, hlt.trans hlen, fun fs' left hleft => ?_⟩
          have := Batched.sends_append hmem (hb fs' left hleft)
          rwa [hsplit, ← append_assoc] at this

theorem redispatch_batched (ho : s.closing = false) (hn : s.node = .out) (hf : s.writeQueue.length ≤ fuel) :
    ∃ fs, Gives s (redispatch (independent d) fuel s) fs ∧
      Batched d s.writeQueue fs (redispatch (independent d) fuel s).writeQueue := by
  induction fuel generalizing s with
  | zero =>
    have hw := length_eq_zero_iff.1 (Nat.le_zero.1 hf)
    refine ⟨[], .nil s, ?_⟩
    rw [redispatch, hw]
    exact .nil
  | succ fuel ih =>
    rw [redispatch, sendmmsg]
    by_cases hw : s.writeQueue = []
    · rw [if_pos hw, if_neg (fun h => h.2 hw)]
      refine ⟨[], .nil s, ?_⟩
      rw [hw]
      exact .nil
    · rw [if_neg hw]
      obtain ⟨fs, hgives, hrest⟩ := drain_batched (d := d) ho hn hw le_rfl
      rcases hrest with ⟨hout, hb⟩ | ⟨hlinked, hlt, hb⟩
      · rw [if_neg (fun h => by rw [hout] at h; cases h.1)]
        exact ⟨fs, hgives, hb⟩
      · split_ifs with hagain
        · obtain ⟨fs', hgives', hb'⟩ := ih (s := { writeQueueDrain (independent d) s.writeQueue.length s with node := .out })
            (hgives.closing.trans ho) rfl (Nat.le_of_lt_succ (hlt.trans_le hf))
          have hout : Gives s { writeQueueDrain (independent d) s.writeQueue.length s with node := .out } fs :=
            ⟨hgives.closing, hgives.fates, hgives.sent⟩
          exact ⟨fs ++ fs', hout.trans hgives', hb fs' _ hb'⟩
        · have hnil : (writeQueueDrain (independent d) s.writeQueue.length s).writeQueue = [] := by
            by_contra hne
            exact hagain ⟨hlinked, hne⟩
          refine ⟨fs, hgives, ?_⟩
          have hempty : Batched d (writeQueueDrain (independent d) s.writeQueue.length s).writeQueue [] [] := by
            rw [hnil]
            exact .nil
          have hall := hb [] [] hempty
          rw [append_nil] at hall
          rwa [hnil]

/-- **The two ways agree exactly on uniform failures.** For every queue and every kernel that decides each datagram by itself:
`uv__udp_sendmmsg` with its re-dispatch gives all requests the fates that `uv__udp_sendmsg` gives them, leaves the same
ones and sends the same datagrams, if and only if from each failing datagram that is reached on, as many as a batch takes
fail with its error. -/
theorem batch_agrees (d : Req → Decision) (rs : List Req) :
    (fates (redispatch (independent d) rs.length (ofQueue rs)) = fates (sendmsg (ofQueue rs) false (independent d)) ∧
      (redispatch (independent d) rs.length (ofQueue rs)).writeQueue = (sendmsg (ofQueue rs) false (independent d)).writeQueue ∧
      (redispatch (independent d) rs.length (ofQueue rs)).sent = (sendmsg (ofQueue rs) false (independent d)).sent) ↔
    FailsAlike d rs := by
  obtain ⟨fs, hgives, hb⟩ := redispatch_batched (d := d) (s := ofQueue rs) rfl rfl (le_refl rs.length)
  obtain ⟨hone, hleft⟩ := sendLoop_oneByOne (d := d) (s := ofQueue rs) rfl (le_refl rs.length)
  have hq : sendmsg (ofQueue rs) false (independent d) = sendLoop (independent d) rs.length (ofQueue rs) := rfl
  have hiff := hb.agrees_iff
  rw [← hq] at hone hleft
  rw [← hleft] at hiff
  change _ ↔ FailsAlike d rs at hiff
  rw [← hiff, hgives.fates, hone.fates, hgives.sent, hone.sent]
  constructor
  · rintro ⟨hf, hw, -⟩
    exact ⟨append_cancel_left hf, hw⟩
  · rintro ⟨rfl, hw⟩
    exact ⟨rfl, hw, rfl⟩

/-- **A batch behind a failing datagram is not sent.** Of two datagrams the first is too long for the network; alone the second
one is sent. -/
theorem batch_loses : ∃ d : Req → Decision, d ⟨0, [100000], true⟩ = .fails 90 ∧ d ⟨1, [5], true⟩ = .sends ∧
    fates (redispatch (independent d) 2 (ofQueue [⟨0, [100000], true⟩, ⟨1, [5], true⟩])) =
      [(⟨0, [100000], true⟩, some 90), (⟨1, [5], true⟩, some 90)] ∧
    fates (sendmsg (ofQueue [⟨0, [100000], true⟩, ⟨1, [5], true⟩]) false (independent d)) =
      [(⟨0, [100000], true⟩, some 90), (⟨1, [5], true⟩, none)] := by
  refine ⟨fun r => if 65535 < countBufs r.bufs then .fails 90 else .sends, ?_, ?_, ?_, ?_⟩ <;> decide +kernel

end Code

end Libuv.L3.Udp
