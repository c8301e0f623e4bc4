import Libuv.L3Stream.Udp

/-!
# UDP handles: the send queue

* `send_queue`: in every run the counters are those of the two queues, the requests are completed, and their callbacks run, in the
  order of their submission, the kernel takes each datagram at most once and in that order, and no request waits
  for nothing.
-/
namespace Libuv.L3.Udp

open List

section Fields
variable (s : State)

@[simp] theorem call_closing : (call s).closing = s.closing := by unfold call; split_ifs <;> rfl
@[simp] theorem call_writeQueue : (call s).writeQueue = s.writeQueue := by unfold call; split_ifs <;> rfl
@[simp] theorem call_writeCompletedQueue : (call s).writeCompletedQueue = s.writeCompletedQueue := by
  unfold call; split_ifs <;> rfl
@[simp] theorem call_sent : (call s).sent = s.sent := by unfold call; split_ifs <;> rfl
@[simp] theorem call_node : (call s).node = s.node := by unfold call; split_ifs <;> rfl

theorem call_open (ho : s.closing = false) : call s = s := by
  unfold call
  rw [ho]
  rfl

@[simp] theorem ioFeed_closing : (ioFeed s).closing = s.closing := by unfold ioFeed; split_ifs <;> rfl
@[simp] theorem ioFeed_writeQueue : (ioFeed s).writeQueue = s.writeQueue := by unfold ioFeed; split_ifs <;> rfl
@[simp] theorem ioFeed_writeCompletedQueue : (ioFeed s).writeCompletedQueue = s.writeCompletedQueue := by
  unfold ioFeed; split_ifs <;> rfl
@[simp] theorem ioFeed_sent : (ioFeed s).sent = s.sent := by unfold ioFeed; split_ifs <;> rfl
@[simp] theorem ioFeed_badCalls : (ioFeed s).badCalls = s.badCalls := by unfold ioFeed; split_ifs <;> rfl

theorem ioFeed_node : (ioFeed s).node ≠ .out := by
  unfold ioFeed
  split_ifs with h
  · nofun
  · exact h

theorem ioFeed_node' : (ioFeed s).node = s.node ∨ s.node = .out ∧ (ioFeed s).node = .linked := by
  unfold ioFeed
  split_ifs with h
  · exact .inr ⟨h, rfl⟩
  · exact .inl rfl

end Fields

def Frame (s t : State) : Prop :=
  t = { s with
    writeQueue := t.writeQueue, writeCompletedQueue := t.writeCompletedQueue, sent := t.sent, node := t.node, badCalls := t.badCalls }

/-- `t` is `s` after some requests from the head of `write_queue` were sent or refused. -/
structure Transmits (s t : State) : Prop where
  frame : Frame s t
  queues : ∃ cs st, s.writeQueue = cs.map Prod.fst ++ t.writeQueue ∧ t.writeCompletedQueue = s.writeCompletedQueue ++ cs ∧
    t.sent = s.sent ++ st ∧ st.Sublist (cs.map fun c => c.1.seq)
  node : t.node = s.node ∨ s.node = .out ∧ t.node = .linked
  calls : s.closing = false → t.badCalls = s.badCalls

section Send
variable {s t u : State} {k : Kernel} {fuel : ℕ}

theorem Frame.get {α : Type} (h : Frame s t) (g : State → α) : g t = g { s with
    writeQueue := t.writeQueue, writeCompletedQueue := t.writeCompletedQueue, sent := t.sent, node := t.node,
    badCalls := t.badCalls } := congrArg g h

theorem Frame.refl (s : State) : Frame s s := rfl

theorem Frame.trans (h : Frame s t) (h' : Frame t u) : Frame s u := by
  unfold Frame at *
  rw [h'] at *
  rw [h]

theorem Frame.call (s : State) : Frame s (call s) := by
  unfold Frame Udp.call
  split_ifs <;> rfl

theorem Frame.ioFeed (s : State) : Frame s (ioFeed s) := by
  unfold Frame Udp.ioFeed
  split_ifs <;> rfl

theorem Transmits.refl (s : State) : Transmits s s where
  frame := .refl s
  queues := ⟨[], [], rfl, (append_nil _).symm, (append_nil _).symm, .slnil⟩
  node := .inl rfl
  calls _ := rfl

theorem Transmits.closing (h : Transmits s t) : t.closing = s.closing := by
  rw [h.frame]

theorem Transmits.trans (h : Transmits s t) (h' : Transmits t u) : Transmits s u where
  frame := h.frame.trans h'.frame
  queues := by
    obtain ⟨cs, st, hw, hc, hs, hsub⟩ := h.queues
    obtain ⟨cs', st', hw', hc', hs', hsub'⟩ := h'.queues
    refine ⟨cs ++ cs', st ++ st', ?_, ?_, ?_, ?_⟩
    · rw [hw, hw', map_append, append_assoc]
    · rw [hc', hc, append_assoc]
    · rw [hs', hs, append_assoc]
    · rw [map_append]
      exact hsub.append hsub'
  node := by
    rcases h.node with e | ⟨e, e'⟩
    · rw [← e]
      exact h'.node
    · rcases h'.node with f | ⟨f, _⟩
      · exact .inr ⟨e, f.trans e'⟩
      · rw [e'] at f
        cases f
  calls ho := (h'.calls (h.closing.trans ho)).trans (h.calls ho)

theorem Transmits.call (s : State) : Transmits s (call s) where
  frame := .call s
  queues := ⟨[], [], by simp, by simp, by simp, .slnil⟩
  node := .inl (by simp)
  calls ho := by rw [call_open s ho]

theorem Transmits.ioFeed (s : State) : Transmits s (ioFeed s) where
  frame := .ioFeed s
  queues := ⟨[], [], by simp, by simp, by simp, .slnil⟩
  node := ioFeed_node' s
  calls _ := by simp

theorem Transmits.moved (cs : List (Req × Status)) (st : List ℕ) (w : List Req) (hw : s.writeQueue = cs.map Prod.fst ++ w)
    (hst : st.Sublist (cs.map fun c => c.1.seq)) :
    Transmits s { s with writeQueue := w, writeCompletedQueue := s.writeCompletedQueue ++ cs, sent := s.sent ++ st } where
  frame := rfl
  queues := ⟨cs, st, hw, rfl, rfl, hst⟩
  node := .inl rfl
  calls _ := rfl

theorem moved_map {a w : List Req} (f : Req → Status) (h : s.writeQueue = a ++ w) :
    s.writeQueue = (a.map fun req => (req, f req)).map Prod.fst ++ w := by
  simpa [Function.comp_def] using h

theorem moved_seq (a : List Req) (f : Req → Status) :
    (a.map fun req => (req, f req)).map (fun c => c.1.seq) = a.map (·.seq) := by
  rw [map_map]
  rfl

theorem writeQueueDrain_transmits (hw : s.writeQueue ≠ []) (hf : s.writeQueue.length ≤ fuel) :
    Transmits s (writeQueueDrain k fuel s) ∧
      ((writeQueueDrain k fuel s).writeQueue ≠ [] ∨ (writeQueueDrain k fuel s).node ≠ .out) := by
  induction fuel generalizing s with
  | zero => exact absurd (length_eq_zero_iff.1 (Nat.le_zero.1 hf)) hw
  | succ fuel ih =>
    have hbatch : s.writeQueue = s.writeQueue.take maxWidth ++ s.writeQueue.drop (s.writeQueue.take maxWidth).length := by
      rw [length_take]
      rcases Nat.le_total maxWidth s.writeQueue.length with h | h
      · rw [Nat.min_eq_left h, take_append_drop]
      · rw [Nat.min_eq_right h, take_of_length_le h, drop_length, append_nil]
    rw [writeQueueDrain]
    split
    · exact ⟨.call s, .inl (by simpa using hw)⟩
    next errno _ =>
      refine ⟨(Transmits.call s).trans (.trans ?_ (.ioFeed _)), .inr (ioFeed_node _)⟩
      have := (Transmits.moved (s := Udp.call s) ((s.writeQueue.take maxWidth).map fun req => (req, .err errno)) []
        (s.writeQueue.drop (s.writeQueue.take maxWidth).length) (moved_map _ (by simpa using hbatch)) (nil_sublist _))
      simpa using this
    next n _ =>
      have hmoved := Transmits.moved (s := Udp.call s)
        ((s.writeQueue.take (n + 1)).map fun req => (req, .sent (req.bufs.headD 0))) ((s.writeQueue.take (n + 1)).map (·.seq))
        (s.writeQueue.drop (n + 1)) (moved_map _ (by simp)) (by rw [moved_seq])
      have hstep := (Transmits.call s).trans hmoved
      simp only [call_writeQueue, call_writeCompletedQueue, call_sent] at hstep ⊢
      split_ifs with he
      · exact ⟨hstep.trans (.ioFeed _), .inr (ioFeed_node _)⟩
      · obtain ⟨h1, h2⟩ := ih (s := { Udp.call s with
          writeQueue := s.writeQueue.drop (n + 1)
          writeCompletedQueue := s.writeCompletedQueue ++
            (s.writeQueue.take (n + 1)).map fun req => (req, .sent (req.bufs.headD 0))
          sent := s.sent ++ (s.writeQueue.take (n + 1)).map (·.seq) }) he (by simp only [length_drop]; omega)
        exact ⟨hstep.trans h1, h2⟩

theorem Transmits.fed (h : Transmits s t) (hn : s.node ≠ .out) : t.node ≠ .out := by
  rcases h.node with e | ⟨e, _⟩
  · rwa [e]
  · exact absurd e hn

theorem sendLoop_transmits (hf : s.writeQueue.length ≤ fuel) :
    Transmits s (sendLoop k fuel s) ∧
      (s.writeQueue ≠ [] → (sendLoop k fuel s).writeQueue ≠ [] ∨ (sendLoop k fuel s).node ≠ .out) := by
  induction fuel generalizing s with
  | zero => exact ⟨.refl s, fun hw => absurd (length_eq_zero_iff.1 (Nat.le_zero.1 hf)) hw⟩
  | succ fuel ih =>
    rw [sendLoop]
    split
    next hw => exact ⟨.refl s, fun h => absurd hw h⟩
    next req rest hw =>
      rw [hw, length_cons] at hf
      -- one request is completed, and the rest of the queue is sent
      have hone (status : Status) (st : List ℕ) (hst : st.Sublist [req.seq]) :
          Transmits s (sendLoop k fuel (ioFeed { Udp.call s with
            writeQueue := rest
            writeCompletedQueue := (Udp.call s).writeCompletedQueue ++ [(req, status)]
            sent := (Udp.call s).sent ++ st })) ∧ ((sendLoop k fuel (ioFeed { Udp.call s with
            writeQueue := rest
            writeCompletedQueue := (Udp.call s).writeCompletedQueue ++ [(req, status)]
            sent := (Udp.call s).sent ++ st })).node ≠ .out) := by
        have hmoved := Transmits.moved (s := Udp.call s) [(req, status)] st rest (by simpa using hw) hst
        have hrest := ih (s := ioFeed { Udp.call s with
          writeQueue := rest
          writeCompletedQueue := (Udp.call s).writeCompletedQueue ++ [(req, status)]
          sent := (Udp.call s).sent ++ st }) (by simp; omega)
        exact ⟨(Transmits.call s).trans (hmoved.trans ((Transmits.ioFeed _).trans hrest.1)), hrest.1.fed (ioFeed_node _)⟩
      split
      · refine ⟨.call s, fun h => .inl ?_⟩
        simpa using h
      next errno _ =>
        have h := hone (.err errno) [] (nil_sublist _)
        simp only [append_nil] at h
        exact ⟨h.1, fun _ => .inr h.2⟩
      next n _ =>
        have h := hone (.sent (countBufs req.bufs)) [req.seq] (.refl _)
        exact ⟨h.1, fun _ => .inr h.2⟩

theorem sendmsg_transmits (s : State) (mmsg : Bool) (k : Kernel) :
    Transmits s (sendmsg s mmsg k) ∧
      (s.writeQueue ≠ [] → (sendmsg s mmsg k).writeQueue ≠ [] ∨ (sendmsg s mmsg k).node ≠ .out) := by
  unfold sendmsg
  split_ifs
  · unfold sendmmsg
    split_ifs with hw
    · exact ⟨.refl s, fun h => absurd hw h⟩
    · have h := writeQueueDrain_transmits (k := onFd s k) hw le_rfl
      exact ⟨h.1, fun _ => h.2⟩
  · exact sendLoop_transmits le_rfl

theorem sendmsg_empty (hw : s.writeQueue = []) (mmsg : Bool) : sendmsg s mmsg k = s := by
  cases mmsg with
  | false => rw [sendmsg, hw]; rfl
  | true => simp [sendmsg, sendmmsg, hw]

end Send

/-! ## The cases of a step -/

/-- What a step does, and what it found. -/
inductive Stepped (mmsg : Bool) (s : State) : Label → State → Prop
  | send {bufs cb err k} (own : Own s) (room : s.writeQueue.length + s.writeCompletedQueue.length + 1 < sizeMax) :
    Stepped mmsg s (.send bufs cb err k) (send s mmsg bufs cb err k)
  | trySend {bufs err k} (own : Own s) : Stepped mmsg s (.trySend bufs err k) (trySend s bufs err k)
  | watch {l} (own : Own s) (recvCb pollin active : Bool) :
    Stepped mmsg s l { s with recvCb := recvCb, pollin := pollin, active := active }
  | close (own : Own s) : Stepped mmsg s .close (close s)
  | alloc {pollout k} (idle : s.pc = .idle) (ho : s.closing = false) :
    Stepped mmsg s (.event true pollout k) { s with pc := .alloc pollout }
  | writable {k t} (ho : s.closing = false) (h : writable s mmsg k = some t) : Stepped mmsg s (.event false true k) t
  | stays {l} : Stepped mmsg s l s
  | pending {k t} (linked : s.node = .linked) (h : writable { s with node := .out } mmsg k = some t) :
    Stepped mmsg s (.runPending k) t
  | recvmsg {pollout chunks} (last : Bool) (hpc : s.pc = .alloc pollout) :
    Stepped mmsg s (.recvmsg true chunks) { call s with pc := .recv pollout last }
  | noBuf {pollout chunks} (hpc : s.pc = .alloc pollout) :
    Stepped mmsg s (.recvmsg false chunks) { s with pc := .recv pollout true }
  | again {pollout} (hpc : s.pc = .recv pollout false) : Stepped mmsg s .again { s with pc := .alloc pollout }
  | received {k last t} (hpc : s.pc = .recv true last) (h : Udp.writable s mmsg k = some t) : Stepped mmsg s (.received k) t
  | done {k last} (hpc : s.pc = .recv false last) : Stepped mmsg s (.received k) { s with pc := .idle }
  | next {f} (hpc : s.pc = .completing f) : Stepped mmsg s .next (completeNext s f)
  | ret {f} (hpc : s.pc = .calling f) : Stepped mmsg s .ret { s with pc := .completing f }
  | finishClose {t} (idle : s.pc = .idle) (hc : s.closing = true) (h : finishClose s = some t) : Stepped mmsg s .finishClose t

theorem step_cases {mmsg : Bool} {s t : State} {l : Label} (h : step mmsg s l = some t) : Stepped mmsg s l t := by
  cases l with
  | send bufs cb err k =>
    obtain ⟨hc, ⟨⟩⟩ := Option.ite_none_right_eq_some.1 h
    exact .send hc.1 hc.2.2
  | trySend bufs err k =>
    obtain ⟨hc, ⟨⟩⟩ := Option.ite_none_right_eq_some.1 h
    exact .trySend hc.1
  | recvStart =>
    obtain ⟨hc, ⟨⟩⟩ := Option.ite_none_right_eq_some.1 h
    unfold recvStart
    split
    · exact .stays
    · exact .watch hc _ _ _
  | recvStop =>
    obtain ⟨hc, ⟨⟩⟩ := Option.ite_none_right_eq_some.1 h
    unfold recvStop
    dsimp only
    split <;> exact .watch hc _ _ _
  | close =>
    obtain ⟨hc, ⟨⟩⟩ := Option.ite_none_right_eq_some.1 h
    exact .close hc
  | event pollin pollout k =>
    obtain ⟨hc, h⟩ := Option.ite_none_right_eq_some.1 h
    cases pollin with
    | true =>
      cases h
      exact .alloc hc.1 hc.2.1
    | false =>
      cases pollout with
      | true => exact .writable hc.2.1 h
      | false =>
        cases h
        exact .stays
  | runPending k =>
    obtain ⟨hc, h⟩ := Option.ite_none_right_eq_some.1 h
    exact .pending hc.2 h
  | finishClose =>
    obtain ⟨hc, h⟩ := Option.ite_none_right_eq_some.1 h
    exact .finishClose hc.1 hc.2 h
  | recvmsg gotBuf chunks =>
    simp only [step] at h
    split at h
    next hpc =>
      cases gotBuf with
      | true =>
        rw [if_pos rfl] at h
        split_ifs at h <;> cases h <;> exact .recvmsg _ hpc
      | false =>
        rw [if_neg Bool.false_ne_true] at h
        split_ifs at h
        cases h
        exact .noBuf hpc
    next => cases h
  | chunk =>
    simp only [step] at h
    split at h
    next =>
      split_ifs at h
      cases h
      exact .stays
    next => cases h
  | again =>
    simp only [step] at h
    split at h
    next hpc =>
      split_ifs at h
      cases h
      exact .again hpc
    next => cases h
  | received k =>
    simp only [step] at h
    split at h
    next out last hpc =>
      cases out with
      | true => exact .received hpc h
      | false =>
        cases h
        exact .done hpc
    next => cases h
  | next =>
    simp only [step] at h
    split at h
    next hpc =>
      cases h
      exact .next hpc
    next => cases h
  | ret =>
    simp only [step] at h
    split at h
    next hpc =>
      cases h
      exact .ret hpc
    next => cases h

/-! ## The invariant -/

def total (rs : List Req) : ℕ := (rs.map fun r => countBufs r.bufs).sum

def bytes (rs : List Req) : ℕ := (rs.map fun r => r.bufs.sum).sum

theorem total_mod (rs : List Req) : total rs % sizeMax = bytes rs % sizeMax := by
  induction rs with
  | nil => rfl
  | cons r rs ih =>
    have e : total (r :: rs) = countBufs r.bufs + total rs := rfl
    have e' : bytes (r :: rs) = r.bufs.sum + bytes rs := rfl
    rw [e, e', Nat.add_mod, ih, countBufs, Nat.mod_mod, ← Nat.add_mod]

def queued (s : State) : List Req := s.writeCompletedQueue.map Prod.fst ++ s.writeQueue

/-- The two queues, the counters and the history of a handle. -/
structure Counts (s : State) : Prop where
  short : (queued s).length < sizeMax
  count : s.sendQueueCount = (queued s).length
  size : s.sendQueueSize = total (queued s) % sizeMax
  order : s.done.map Prod.fst ++ queued s = s.accepted
  called : s.called = (s.done.filter fun c => c.1.sendCb).map fun c => c.1.seq
  sorted : (s.accepted.map (·.seq)).Pairwise (· < ·)
  fresh : ∀ r ∈ s.accepted, r.seq < s.next
  sent : s.sent.Pairwise (· < ·)
  known : ∀ x ∈ s.sent, x < s.next
  before : ∀ x ∈ s.sent, ∀ r ∈ s.writeQueue, x < r.seq
  processing : s.processing = true ↔ ∃ f, s.pc = .completing f ∨ s.pc = .calling f

structure Armed (s : State) : Prop where
  write : s.writeQueue ≠ [] → s.pollout = true
  completed : s.writeCompletedQueue ≠ [] → s.processing = true ∨ s.writeQueue ≠ [] ∨ s.node = .linked
  node : s.node ≠ .stale

section Invariant
variable {s t : State} {k : Kernel} {bufs : List ℕ} {cb err mmsg : Bool} {f : Bool}

theorem queued_cons {c : Req × Status} {rest : List (Req × Status)} (hc : s.writeCompletedQueue = c :: rest) :
    queued s = c.1 :: (rest.map Prod.fst ++ s.writeQueue) := by
  rw [queued, hc]
  rfl

theorem Transmits.queued (h : Transmits s t) : Udp.queued t = Udp.queued s := by
  obtain ⟨cs, st, hw, hc, -, -⟩ := h.queues
  simp [Udp.queued, hw, hc]

theorem Counts.write_sorted (hs : Counts s) : (s.writeQueue.map (·.seq)).Pairwise (· < ·) := by
  have h := hs.sorted
  rw [← hs.order, Udp.queued, map_append, map_append, pairwise_append, pairwise_append] at h
  exact h.2.1.2.1

theorem Counts.write_accepted (hs : Counts s) {r : Req} (hr : r ∈ s.writeQueue) : r ∈ s.accepted := by
  rw [← hs.order]
  exact mem_append_right _ (mem_append_right _ hr)

theorem Counts.transmits (hs : Counts s) (h : Transmits s t) : Counts t := by
  have hq := h.queued
  obtain ⟨cs, st, hw, -, hsent, hsub⟩ := h.queues
  have haccepted : t.accepted = s.accepted := h.frame.get State.accepted
  have hdone : t.done = s.done := h.frame.get State.done
  have hnext : t.next = s.next := h.frame.get State.next
  have hsorted := hs.write_sorted
  rw [hw, map_append, map_map, pairwise_append] at hsorted
  -- what the kernel took was in the queue
  have hmem : ∀ x ∈ st, ∃ r ∈ s.writeQueue, r.seq = x ∧ ∀ r' ∈ t.writeQueue, x < r'.seq := by
    intro x hx
    obtain ⟨c, hc, rfl⟩ := mem_map.1 (hsub.subset hx)
    refine ⟨c.1, ?_, rfl, fun r' hr' => ?_⟩
    · rw [hw]
      exact mem_append_left _ (mem_map_of_mem hc)
    · exact hsorted.2.2 _ (mem_map.2 ⟨c, hc, rfl⟩) _ (mem_map_of_mem hr')
  have hin : ∀ r ∈ t.writeQueue, r ∈ s.writeQueue := by
    intro r hr
    rw [hw]
    exact mem_append_right _ hr
  constructor
  · rw [hq]
    exact hs.short
  · rw [hq]
    exact (h.frame.get State.sendQueueCount).trans hs.count
  · rw [hq]
    exact (h.frame.get State.sendQueueSize).trans hs.size
  · rw [hq, haccepted, hdone]
    exact hs.order
  · rw [hdone]
    exact (h.frame.get State.called).trans hs.called
  · rw [haccepted]
    exact hs.sorted
  · rw [haccepted, hnext]
    exact hs.fresh
  · rw [hsent, pairwise_append]
    refine ⟨hs.sent, ?_, ?_⟩
    · exact hsorted.1.sublist hsub
    · intro x hx y hy
      obtain ⟨r, hr, rfl, -⟩ := hmem y hy
      exact hs.before x hx r hr
  · intro x hx
    rw [hnext]
    rw [hsent] at hx
    rcases mem_append.1 hx with hx | hx
    · exact hs.known x hx
    · obtain ⟨r, hr, rfl, -⟩ := hmem x hx
      exact hs.fresh r (hs.write_accepted hr)
  · intro x hx r hr
    rw [hsent] at hx
    rcases mem_append.1 hx with hx | hx
    · exact hs.before x hx r (hin r hr)
    · obtain ⟨-, -, -, hlt⟩ := hmem x hx
      exact hlt r hr
  · have hp : t.processing = s.processing := h.frame.get State.processing
    have hpc : t.pc = s.pc := h.frame.get State.pc
    rw [hp, hpc]
    exact hs.processing

theorem Counts.congr (hs : Counts s) (hw : t.writeQueue = s.writeQueue) (hc : t.writeCompletedQueue = s.writeCompletedQueue)
    (hcount : t.sendQueueCount = s.sendQueueCount ∧ t.sendQueueSize = s.sendQueueSize)
    (hd : t.done = s.done ∧ t.called = s.called ∧ t.accepted = s.accepted ∧ t.next = s.next ∧ t.sent = s.sent)
    (hp : t.processing = true ↔ ∃ f, t.pc = .completing f ∨ t.pc = .calling f) : Counts t := by
  have hq : queued t = queued s := by rw [queued, queued, hw, hc]
  constructor
  · rw [hq]; exact hs.short
  · rw [hq, hcount.1]; exact hs.count
  · rw [hq, hcount.2]; exact hs.size
  · rw [hq, hd.1, hd.2.2.1]; exact hs.order
  · rw [hd.1, hd.2.1]; exact hs.called
  · rw [hd.2.2.1]; exact hs.sorted
  · rw [hd.2.2.1, hd.2.2.2.1]; exact hs.fresh
  · rw [hd.2.2.2.2]; exact hs.sent
  · rw [hd.2.2.2.2, hd.2.2.2.1]; exact hs.known
  · rw [hd.2.2.2.2, hw]; exact hs.before
  · exact hp

def enqueue (s : State) (bufs : List ℕ) (cb : Bool) : State :=
  { s with
    sendQueueSize := (s.sendQueueSize + countBufs bufs) % sizeMax
    sendQueueCount := (s.sendQueueCount + 1) % sizeMax
    writeQueue := s.writeQueue ++ [⟨s.next, bufs, cb⟩]
    active := true
    next := s.next + 1
    accepted := s.accepted ++ [⟨s.next, bufs, cb⟩] }

theorem Counts.enqueue (hs : Counts s) (hlt : s.writeQueue.length + s.writeCompletedQueue.length + 1 < sizeMax) :
    Counts (enqueue s bufs cb) := by
  have hq : queued (Udp.enqueue s bufs cb) = queued s ++ [⟨s.next, bufs, cb⟩] := by
    simp [queued, Udp.enqueue]
  have hlen : (queued s).length + 1 < sizeMax := by
    rw [queued, length_append, length_map]
    omega
  constructor
  · rw [hq, length_append]
    exact hlen
  · rw [hq, length_append, length_singleton]
    change (s.sendQueueCount + 1) % sizeMax = _
    rw [hs.count, Nat.mod_eq_of_lt hlen]
  · rw [hq]
    change (s.sendQueueSize + countBufs bufs) % sizeMax = _
    rw [hs.size]
    simp [total]
  · rw [hq, ← append_assoc]
    exact congrArg (· ++ [_]) hs.order
  · exact hs.called
  · change ((s.accepted ++ [_]).map _).Pairwise _
    rw [map_append, pairwise_append]
    refine ⟨hs.sorted, pairwise_singleton _ _, fun x hx y hy => ?_⟩
    obtain ⟨r, hr, rfl⟩ := mem_map.1 hx
    cases mem_singleton.1 hy
    exact hs.fresh r hr
  · intro r hr
    rcases mem_append.1 hr with hr | hr
    · exact Nat.lt_succ_of_lt (hs.fresh r hr)
    · cases mem_singleton.1 hr
      exact Nat.lt_succ_self _
  · exact hs.sent
  · exact fun x hx => Nat.lt_succ_of_lt (hs.known x hx)
  · intro x hx r hr
    rcases mem_append.1 hr with hr | hr
    · exact hs.before x hx r hr
    · cases mem_singleton.1 hr
      exact hs.known x hx
  · exact hs.processing

theorem send_eq (s : State) (mmsg : Bool) (bufs : List ℕ) (cb : Bool) (k : Kernel) : send s mmsg bufs cb false k =
    if s.sendQueueCount = 0 ∧ s.processing = false then
      let t := sendmsg (enqueue s bufs cb) mmsg k
      if t.writeQueue ≠ [] then { t with pollout := true } else t
    else { enqueue s bufs cb with pollout := true } := by
  simp only [send, Bool.false_eq_true, if_false, enqueue, Bool.and_eq_true, decide_eq_true_eq, Bool.not_eq_true']
  rfl

theorem Counts.send (hs : Counts s) (hlt : s.writeQueue.length + s.writeCompletedQueue.length + 1 < sizeMax) :
    Counts (send s mmsg bufs cb err k) := by
  cases err with
  | true => exact hs
  | false =>
    have henq : Counts (Udp.enqueue s bufs cb) := hs.enqueue hlt
    have hsent := henq.transmits (sendmsg_transmits (Udp.enqueue s bufs cb) mmsg k).1
    rw [send_eq]
    dsimp only
    split_ifs
    · exact hsent.congr rfl rfl ⟨rfl, rfl⟩ ⟨rfl, rfl, rfl, rfl, rfl⟩ hsent.processing
    · exact hsent
    · exact henq.congr rfl rfl ⟨rfl, rfl⟩ ⟨rfl, rfl, rfl, rfl, rfl⟩ henq.processing

theorem Counts.empty (hs : Counts s) (h0 : s.sendQueueCount = 0) : s.writeQueue = [] ∧ s.writeCompletedQueue = [] := by
  rw [hs.count, length_eq_zero_iff, queued, append_eq_nil_iff, map_eq_nil_iff] at h0
  exact ⟨h0.2, h0.1⟩

theorem Counts.trySend (hs : Counts s) : Counts (trySend s bufs err k) := by
  -- a datagram of its own number, after all that were sent
  have hnew : Counts { s with next := s.next + 1 } := by
    constructor
    · exact hs.short
    · exact hs.count
    · exact hs.size
    · exact hs.order
    · exact hs.called
    · exact hs.sorted
    · exact fun r hr => Nat.lt_succ_of_lt (hs.fresh r hr)
    · exact hs.sent
    · exact fun x hx => Nat.lt_succ_of_lt (hs.known x hx)
    · exact hs.before
    · exact hs.processing
  have hcall : Counts (call { s with next := s.next + 1 }) := hnew.transmits (.call _)
  have hnext : (call { s with next := s.next + 1 }).next = s.next + 1 := (Frame.call _).get State.next
  unfold Udp.trySend
  split_ifs with h0 he
  · exact hs
  · exact hs
  · dsimp only
    split
    · have hempty := (hs.empty (not_not.1 h0)).1
      refine { hcall with
        sent := ?_
        known := ?_
        before := ?_ }
      · rw [call_sent, pairwise_append]
        refine ⟨hs.sent, pairwise_singleton _ _, fun x hx y hy => ?_⟩
        cases mem_singleton.1 hy
        exact hs.known x hx
      · intro x hx
        rw [hnext]
        rw [call_sent] at hx
        rcases mem_append.1 hx with hx | hx
        · exact Nat.lt_succ_of_lt (hs.known x hx)
        · cases mem_singleton.1 hx
          exact Nat.lt_succ_self _
      · intro x _ r hr
        simp only [call_writeQueue, hempty] at hr
        cases hr
    · exact hcall

theorem size_drop {m b x : ℕ} (hb : b ≤ m) : ((b + x) % m + (m - b)) % m = x % m := by
  rw [Nat.mod_add_mod]
  have e : b + x + (m - b) = x + m := by omega
  rw [e, Nat.add_mod_right]

theorem countBufs_lt (bufs : List ℕ) : countBufs bufs < sizeMax := Nat.mod_lt _ (Nat.two_pow_pos 64)

theorem Counts.completeNext (hs : Counts s) (hpc : s.pc = .completing f) : Counts (completeNext s f) := by
  unfold Udp.completeNext
  split
  next c rest hc =>
    have hq := queued_cons hc
    have hproc : s.processing = true := hs.processing.2 ⟨f, .inl hpc⟩
    have hlen : s.sendQueueCount = (rest.map Prod.fst ++ s.writeQueue).length + 1 := by rw [hs.count, hq]; rfl
    have hshort := hs.short
    rw [hq] at hshort
    constructor
    · exact Nat.lt_of_succ_lt hshort
    · change (s.sendQueueCount + (sizeMax - 1)) % sizeMax = (rest.map Prod.fst ++ s.writeQueue).length
      have e : s.sendQueueCount + (sizeMax - 1) = (rest.map Prod.fst ++ s.writeQueue).length + sizeMax := by omega
      rw [e, Nat.add_mod_right, Nat.mod_eq_of_lt (Nat.lt_of_succ_lt hshort)]
    · have ht : total (queued s) = countBufs c.1.bufs + total (rest.map Prod.fst ++ s.writeQueue) := by rw [hq]; rfl
      rw [hs.size, ht]
      exact size_drop (countBufs_lt _).le
    · rw [map_append, append_assoc, ← hs.order, hq]
      rfl
    · have hcalled := hs.called
      cases hcb : c.1.sendCb <;> simp [hcb, hcalled, filter_append]
    · exact hs.sorted
    · exact hs.fresh
    · exact hs.sent
    · exact hs.known
    · exact hs.before
    · cases c.1.sendCb <;> simp [hproc]
  next hc =>
    refine hs.congr ?_ ?_ ?_ ?_ ?_ <;> dsimp only
    · split_ifs <;> rfl
    · split_ifs <;> rfl
    · split_ifs <;> exact ⟨rfl, rfl⟩
    · split_ifs <;> exact ⟨rfl, rfl, rfl, rfl, rfl⟩
    · cases f <;> simp

theorem runCompleted_eq (h : runCompleted s f = some t) :
    s.processing = false ∧ t = { s with processing := true, pc := .completing f } := by
  unfold runCompleted at h
  split_ifs at h with hp
  cases h
  exact ⟨Bool.not_eq_true _ ▸ hp, rfl⟩

theorem Counts.runCompleted (hs : Counts s) (h : runCompleted s f = some t) : Counts t := by
  obtain ⟨-, rfl⟩ := runCompleted_eq h
  exact hs.congr rfl rfl ⟨rfl, rfl⟩ ⟨rfl, rfl, rfl, rfl, rfl⟩ ⟨fun _ => ⟨f, .inl rfl⟩, fun _ => rfl⟩

theorem Counts.writable (hs : Counts s) (h : writable s mmsg k = some t) : Counts t :=
  (hs.transmits (sendmsg_transmits s mmsg k).1).runCompleted h

theorem Counts.finishClose (hs : Counts s) (h : finishClose s = some t) : Counts t := by
  unfold Udp.finishClose at h
  split_ifs at h
  refine Counts.runCompleted ?_ h
  have hmoved := Transmits.moved (s := s) (s.writeQueue.map fun req => (req, .err ECANCELED)) [] [] (moved_map _ (by simp))
    (nil_sublist _)
  exact (hs.transmits hmoved).congr rfl rfl ⟨rfl, rfl⟩ ⟨rfl, rfl, rfl, rfl, by simp⟩ hs.processing

theorem Counts.setPc (hs : Counts s) {pc : Pc} (h0 : s.processing = false) (hn : ∀ f, pc ≠ .completing f ∧ pc ≠ .calling f) :
    Counts { s with pc := pc } := by
  refine hs.congr rfl rfl ⟨rfl, rfl⟩ ⟨rfl, rfl, rfl, rfl, rfl⟩ ?_
  simp [h0, hn]

theorem Counts.not_processing (hs : Counts s) (hn : ∀ f, s.pc ≠ .completing f ∧ s.pc ≠ .calling f) : s.processing = false := by
  cases hp : s.processing with
  | false => rfl
  | true =>
    obtain ⟨f, h | h⟩ := hs.processing.1 hp
    · exact absurd h (hn f).1
    · exact absurd h (hn f).2

theorem counts_step {l : Label} (hs : Counts s) (h : Stepped mmsg s l t) : Counts t := by
  cases h with
  | send _ room => exact hs.send room
  | trySend _ => exact hs.trySend
  | watch | close => exact hs.congr rfl rfl ⟨rfl, rfl⟩ ⟨rfl, rfl, rfl, rfl, rfl⟩ hs.processing
  | alloc idle ho => exact hs.setPc (hs.not_processing (by simp [idle])) (by simp)
  | writable _ h => exact hs.writable h
  | stays => exact hs
  | pending _ h =>
    exact (hs.congr (t := { s with node := .out }) rfl rfl ⟨rfl, rfl⟩ ⟨rfl, rfl, rfl, rfl, rfl⟩ hs.processing).writable h
  | recvmsg last hpc =>
    have h0 := (Frame.call s).get State.processing
    exact (hs.transmits (.call s)).setPc (h0.trans (hs.not_processing (by simp [hpc]))) (by simp)
  | noBuf hpc | again hpc | done hpc => exact hs.setPc (hs.not_processing (by simp [hpc])) (by simp)
  | received _ h => exact hs.writable h
  | next hpc => exact hs.completeNext hpc
  | @ret f hpc =>
    refine hs.congr rfl rfl ⟨rfl, rfl⟩ ⟨rfl, rfl, rfl, rfl, rfl⟩ ?_
    have hp : s.processing = true := hs.processing.2 ⟨f, .inr hpc⟩
    simp [hp]
  | finishClose _ _ h => exact hs.finishClose h

/-! ## What the requests wait for -/

theorem Transmits.not_stale (h : Transmits s t) (hn : s.node ≠ .stale) : t.node ≠ .stale := by
  rcases h.node with e | ⟨_, e⟩
  · rwa [e]
  · rw [e]
    nofun

theorem Transmits.write_ne (h : Transmits s t) (hw : t.writeQueue ≠ []) : s.writeQueue ≠ [] := by
  obtain ⟨cs, st, e, -⟩ := h.queues
  rw [e]
  exact fun hnil => hw (append_eq_nil_iff.1 hnil).2

theorem Transmits.pollout (h : Transmits s t) : t.pollout = s.pollout := h.frame.get State.pollout

theorem Armed.runCompleted (ha : Armed s) (h : Transmits s t) : Armed { t with processing := true, pc := .completing f } where
  write hw := h.pollout.trans (ha.write (h.write_ne hw))
  completed _ := .inl rfl
  node := h.not_stale ha.node

theorem Armed.writable (ha : Armed s) (h : writable s mmsg k = some t) : Armed t := by
  obtain ⟨-, rfl⟩ := runCompleted_eq h
  exact ha.runCompleted (sendmsg_transmits s mmsg k).1

theorem Armed.congr (ha : Armed s) (hw : t.writeQueue = s.writeQueue) (hc : t.writeCompletedQueue = s.writeCompletedQueue)
    (hp : s.processing = true → t.processing = true) (ho : t.pollout = s.pollout) (hn : t.node = s.node) : Armed t where
  write h := by
    rw [hw] at h
    rw [ho]
    exact ha.write h
  completed h := by
    rw [hc] at h
    rw [hw, hn]
    exact (ha.completed h).imp_left hp
  node := by
    rw [hn]
    exact ha.node

theorem Armed.send (ha : Armed s) : Armed (send s mmsg bufs cb err k) := by
  cases err with
  | true => exact ha
  | false =>
    obtain ⟨ht, hleft⟩ := sendmsg_transmits (enqueue s bufs cb) mmsg k
    have hne : (enqueue s bufs cb).writeQueue ≠ [] := by simp [enqueue]
    rw [send_eq]
    dsimp only
    split_ifs with h0 hw
    · exact ⟨fun _ => rfl, fun _ => .inr (.inl hw), ht.not_stale ha.node⟩
    · refine ⟨fun h => absurd h hw, fun _ => .inr (.inr ?_), ht.not_stale ha.node⟩
      have hout := (hleft hne).resolve_left hw
      have hstale := ht.not_stale ha.node
      cases hnode : (sendmsg (enqueue s bufs cb) mmsg k).node with
      | out => exact absurd hnode hout
      | linked => rfl
      | stale => exact absurd hnode hstale
    · exact ⟨fun _ => rfl, fun _ => .inr (.inl hne), ha.node⟩

theorem Armed.completeNext (ha : Armed s) (hp : s.processing = true) (ho : s.closing = false) : Armed (completeNext s f) := by
  unfold Udp.completeNext
  split
  · exact ⟨ha.write, fun _ => .inl hp, ha.node⟩
  next hc =>
    dsimp only
    by_cases hw : s.writeQueue = []
    · constructor <;> split_ifs <;> simp_all [ha.node]
    · rw [if_neg hw]
      exact ⟨ha.write, fun h => absurd hc h, ha.node⟩

theorem armed_step {l : Label} (hs : Counts s) (ha : s.closing = false → Armed s) (h : Stepped mmsg s l t)
    (ho : t.closing = false) : Armed t := by
  cases h with
  | send own => exact (ha own.1).send
  | trySend own =>
    have ha := ha own.1
    unfold trySend
    split_ifs
    · exact ha
    · exact ha
    · have e : call { s with next := s.next + 1 } = { s with next := s.next + 1 } := call_open _ own.1
      simp only [e]
      split <;> exact ha.congr rfl rfl id rfl rfl
  | watch own => exact (ha own.1).congr rfl rfl id rfl rfl
  | close => cases ho
  | writable ho h => exact (ha ho).writable h
  | stays => exact ha ho
  | @pending k _ _ h =>
    obtain ⟨-, rfl⟩ := runCompleted_eq h
    obtain ⟨ht, -⟩ := sendmsg_transmits { s with node := .out } mmsg k
    have hclosing : s.closing = false := ht.closing ▸ ho
    exact ⟨fun hw => ht.pollout.trans ((ha hclosing).write (ht.write_ne hw)), fun _ => .inl rfl, ht.not_stale (by simp)⟩
  | recvmsg last hpc =>
    have hclosing : s.closing = false := (call_closing s).symm.trans ho
    rw [call_open s hclosing]
    exact (ha hclosing).congr rfl rfl id rfl rfl
  | alloc | noBuf | again | done | ret => exact (ha ho).congr rfl rfl id rfl rfl
  | @received k _ _ _ h =>
    have hclosing : s.closing = false := by
      obtain ⟨-, rfl⟩ := runCompleted_eq h
      exact (sendmsg_transmits s mmsg k).1.closing ▸ ho
    exact (ha hclosing).writable h
  | @next f hpc =>
    have hclosing : s.closing = false := by
      unfold completeNext at ho
      split at ho
      · exact ho
      · dsimp only at ho
        split_ifs at ho <;> assumption
    exact (ha hclosing).completeNext (hs.processing.2 ⟨f, .inl hpc⟩) hclosing
  | finishClose _ hc h =>
    unfold finishClose at h
    split_ifs at h
    obtain ⟨-, rfl⟩ := runCompleted_eq h
    rw [hc] at ho
    cases ho

theorem send_queue_inv : (system mmsg).Inductive fun s => Counts s ∧ (s.closing = false → Armed s) where
  init s hs := by
    cases hs
    refine ⟨?_, fun _ => ?_⟩
    · constructor <;> simp [State.fresh, queued, total, sizeMax]
    · constructor <;> simp [State.fresh]
  step _ _ _ hs h := ⟨counts_step hs.1 (step_cases h.2), armed_step hs.1 hs.2 (step_cases h.2)⟩

/-- While the completed requests are taken off, none joins them. -/
theorem Counts.completed_suffix {l : Label} (hs : Counts s) (hpc : s.pc = .completing f ∨ s.pc = .calling f)
    (h : Stepped mmsg s l t) : t.writeCompletedQueue <:+ s.writeCompletedQueue := by
  have hproc : s.processing = true := hs.processing.2 ⟨f, hpc⟩
  have hout {pc : Pc} (h : s.pc = pc) : pc = .completing f ∨ pc = .calling f := h ▸ hpc
  have hnot {u : State} {k : Kernel} (hu : u.processing = true) (h : Udp.writable u mmsg k = some t) : False := by
    have h0 := (runCompleted_eq h).1
    rw [(sendmsg_transmits u mmsg k).1.frame.get State.processing, hu] at h0
    cases h0
  cases h with
  | @send bufs cb err k =>
    cases err with
    | true => exact suffix_rfl
    | false =>
      rw [send_eq, if_neg fun h => by rw [hproc] at h; cases h.2]
      exact suffix_rfl
  | trySend =>
    unfold Udp.trySend
    split_ifs
    · exact suffix_rfl
    · exact suffix_rfl
    · dsimp only
      split <;> simp
  | watch | close | alloc | stays | noBuf | again | done | ret => exact suffix_rfl
  | recvmsg => simp
  | writable _ h | received _ h => exact (hnot hproc h).elim
  | pending _ h => exact (hnot (u := { s with node := .out }) hproc h).elim
  | next =>
    unfold Udp.completeNext
    split
    · next hc => exact hc ▸ suffix_cons _ _
    · dsimp only
      split_ifs <;> exact suffix_rfl
  | finishClose idle => rcases hout idle with h | h <;> cases h

/-- **The send queue.** In every run, while the handle is not closed: `send_queue_count` is the number of the requests in the two
queues and `send_queue_size` the number of their bytes as a `size_t`; the requests that were completed and the two queues are
together the accepted requests in the order of their submission, and the callbacks that were run are those of the completed
ones, one for each; the datagrams that the kernel took have increasing numbers of submission; and outside of
`uv__udp_run_completed` a request in either queue has `POLLOUT` armed or the watcher in the pending queue. An iteration of
`uv__udp_run_completed` takes off the first completed request and calls it, or ends the loop, in which none joins them. -/
theorem send_queue (h : (system mmsg).Reachable s) (ho : s.closing = false) :
    s.sendQueueCount = s.writeQueue.length + s.writeCompletedQueue.length ∧
    s.sendQueueSize = (bytes s.writeQueue + bytes (s.writeCompletedQueue.map Prod.fst)) % 2 ^ 64 ∧
    s.done.map Prod.fst ++ s.writeCompletedQueue.map Prod.fst ++ s.writeQueue = s.accepted ∧
    s.called = (s.done.filter fun c => c.1.sendCb).map (fun c => c.1.seq) ∧
    (s.accepted.map (·.seq)).Pairwise (· < ·) ∧ s.sent.Pairwise (· < ·) ∧
    ((∀ f, s.pc ≠ .completing f ∧ s.pc ≠ .calling f) → s.writeQueue ≠ [] ∨ s.writeCompletedQueue ≠ [] →
      s.pollout = true ∨ s.node = .linked) ∧
    (∀ f, s.pc = .completing f → ∃ t, step mmsg s .next = some t ∧
      (s.writeCompletedQueue = [] ∧ t.processing = false ∧ (t.pc = if f then .closed else .idle) ∨
        ∃ c rest, s.writeCompletedQueue = c :: rest ∧ t.writeCompletedQueue = rest ∧ t.writeQueue = s.writeQueue ∧
          t.done = s.done ++ [c] ∧ t.sendQueueCount + 1 = s.sendQueueCount ∧
          (t.called = if c.1.sendCb then s.called ++ [c.1.seq] else s.called) ∧
          t.pc = if c.1.sendCb then .calling f else .completing f)) ∧
    (∀ f, s.pc = .calling f → step mmsg s .ret = some { s with pc := .completing f }) ∧
    ∀ f l t, s.pc = .completing f ∨ s.pc = .calling f → step mmsg s l = some t →
      t.writeCompletedQueue <:+ s.writeCompletedQueue := by
  obtain ⟨hs, harmed⟩ := send_queue_inv.reachable h
  have ha := harmed ho
  refine ⟨?_, ?_, ?_, hs.called, hs.sorted, hs.sent, fun hpc hne => ?_, fun f hpc => ⟨completeNext s f, by simp [step, hpc], ?_⟩,
    fun f hpc => by simp [step, hpc], fun f l t hpc ht => hs.completed_suffix hpc (step_cases ht)⟩
  · rw [hs.count, queued, length_append, length_map, Nat.add_comm]
  · rw [hs.size, total_mod, queued, bytes, map_append, sum_append, Nat.add_comm]
    rfl
  · rw [append_assoc]
    exact hs.order
  · rcases hne with hw | hc
    · exact .inl (ha.write hw)
    · rcases ha.completed hc with hp | hw | hn
      · rw [hs.not_processing hpc] at hp
        cases hp
      · exact .inl (ha.write hw)
      · exact .inr hn
  · have hcount := (hs.completeNext hpc).count
    cases hc : s.writeCompletedQueue with
    | nil =>
      refine .inl ⟨rfl, ?_⟩
      unfold completeNext
      rw [hc]
      exact ⟨rfl, rfl⟩
    | cons c rest =>
      have hq : completeNext s f = { s with
          writeCompletedQueue := rest
          sendQueueSize := (completeNext s f).sendQueueSize
          sendQueueCount := (completeNext s f).sendQueueCount
          done := s.done ++ [c]
          called := if c.1.sendCb then s.called ++ [c.1.seq] else s.called
          pc := if c.1.sendCb then .calling f else .completing f } := by
        unfold completeNext
        rw [hc]
      refine .inr ⟨c, rest, rfl, ?_⟩
      rw [hs.count, queued_cons hc, hcount]
      rw [hq]
      exact ⟨rfl, rfl, rfl, rfl, rfl, rfl⟩

theorem reachable_step {l : Label} (h : (system mmsg).Reachable s) (hl : l.Sane) (hs : step mmsg s l = some t) :
    (system mmsg).Reachable t := h.step ⟨hl, hs⟩

theorem sane_error (e : ℕ) : Kernel.Sane fun _ => .error e := fun _ _ h => nomatch h

theorem sane_again : Kernel.Sane fun _ => .again := fun _ _ h => nomatch h

/-- A request is refused by the kernel and waits for its callback; a second one waits behind it. Then the callback runs. -/
theorem send_queue_refused : ∃ s : State, (system true).Reachable s ∧ s.writeQueue = [⟨1, [7], true⟩] ∧
    s.writeCompletedQueue = [(⟨0, [5, 6], true⟩, .err 1)] ∧ (s.pollout = true ∨ s.node = .linked) ∧
    s.sendQueueSize = (bytes s.writeQueue + bytes (s.writeCompletedQueue.map Prod.fst)) % 2 ^ 64 ∧
    ∃ t u, (system true).Reachable t ∧ t.pc = .completing false ∧ step true t .next = some u ∧ u.pc = .calling false ∧
      u.called = [0] ∧ u.sendQueueCount = 1 := by
  have h0 : (system true).Reachable State.fresh := .init rfl
  have h1 := reachable_step (l := .send [5, 6] true false fun _ => .error 1) h0 (sane_error 1) rfl
  have h2 := reachable_step (l := .send [7] true false fun _ => .again) h1 sane_again rfl
  have h3 := reachable_step (l := .runPending fun _ => .again) h2 sane_again rfl
  obtain ⟨-, hsize, -, -, -, -, harmed, -⟩ := send_queue h2 (by decide +kernel)
  obtain ⟨-, -, -, -, -, -, -, hnext, -⟩ := send_queue h3 (by decide +kernel)
  refine ⟨_, h2, ?_, ?_, harmed ?_ ?_, hsize, ?_⟩
  rotate_right
  · obtain ⟨u, hu, -⟩ := hnext false (by decide +kernel)
    refine ⟨_, u, h3, by decide +kernel, hu, ?_⟩
    cases hu
    decide +kernel
  all_goals decide +kernel

/-- **`send_queue_size` is a `size_t`.** The requests of a queue may have 2^64 bytes together. -/
theorem send_queue_wraps : ∃ s : State, (system true).Reachable s ∧ s.closing = false ∧ s.sendQueueSize = 0 ∧
    bytes s.writeQueue + bytes (s.writeCompletedQueue.map Prod.fst) = 2 ^ 64 := by
  have h0 : (system true).Reachable State.fresh := .init rfl
  have h1 := reachable_step (l := .send [2 ^ 63] true false fun _ => .error 22) h0 (sane_error 22) rfl
  have h2 := reachable_step (l := .send [2 ^ 63] true false fun _ => .again) h1 sane_again rfl
  refine ⟨_, h2, ?_, ?_, ?_⟩ <;> decide +kernel

end Invariant

end Libuv.L3.Udp
