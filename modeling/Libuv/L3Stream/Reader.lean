import Libuv.L3Stream.WriteOrder

/-!
# The reading side of a stream (`stream.c`)

What every function leaves of the flags, the callback and the interest that belong to reading. `Core`
holds everywhere: the stream waits for `POLLIN` exactly while `UV_HANDLE_READING` is set (`strict`), and
`UV_HANDLE_READ_EOF` was set for a reason, `drained`. `Reader` adds what the callbacks in the
middle of `uv__read` find.

* `Left.ended`, `afterAlloc_eof`: a report of the end finds the stream reading and leaves it not reading.
-/
namespace Libuv.L3.Stream

structure SameRead (s t : State) : Prop where
  reading : t.flags.reading = s.flags.reading
  readPartial : t.flags.readPartial = s.flags.readPartial
  readEof : t.flags.readEof = s.flags.readEof
  readCb : t.readCb = s.readCb
  pollin : t.pollin = s.pollin
  fd : t.fd = s.fd ∨ 0 ≤ t.fd

/-- `strict` is whether nobody else starts to wait for `POLLIN`. -/
structure Core (strict drained : Prop) (s : State) : Prop where
  interest : strict → s.pollin = s.flags.reading
  opened : s.flags.reading = true → 0 ≤ s.fd
  fresh : s.flags.reading = true → s.flags.readEof = false
  eof : s.flags.readEof = true → drained

/-- In a callback of `uv__read`. -/
def Pc.Inside (ev : Events) (pc : Pc) : Prop := (∃ n, pc = .allocCb n ev) ∨ ∃ next, pc = .readCb next ev

def Pc.isAway : Pc → Bool
  | allocCb .. | readCb .. | eofCb _ => false
  | _ => true

/-- `drained` is what lets the end be reported, `hung` what `POLLHUP` says. -/
structure Reader (strict drained hung : Prop) (s : State) : Prop extends Core strict drained s where
  alloc : ∀ n ev, s.pc = .allocCb n ev → s.readCb = true → s.flags.reading = true
  unmarked : ∀ ev, s.pc.Inside ev → ev.hup = true → s.flags.readPartial = false ∧ hung
  short : ∀ ev, s.pc = .readCb .short ev → ev.hup = true → drained

structure Left (strict drained hung : Prop) (s t : State) : Prop extends Reader strict drained hung t where
  keeps : t.flags.reading = true → s.flags.reading = true
  ended : ∀ ev, t.pc = .eofCb ev → s.flags.reading = true ∧ t.flags.reading = false ∧ drained

/-- The library's code leaves the reading side as it is, and not in a callback of it. -/
def Away (s t : State) : Prop := SameRead s t ∧ t.pc.isAway = true

variable {strict drained hung : Prop} {s t u : State} {iovmax : ℕ} {ev : Events} {env : Env}

theorem SameRead.refl (s : State) : SameRead s s := ⟨rfl, rfl, rfl, rfl, rfl, .inl rfl⟩

theorem SameRead.trans (h1 : SameRead s t) (h2 : SameRead t u) : SameRead s u := by
  refine ⟨h2.reading.trans h1.reading, h2.readPartial.trans h1.readPartial, h2.readEof.trans h1.readEof,
    h2.readCb.trans h1.readCb, h2.pollin.trans h1.pollin, ?_⟩
  rcases h2.fd with h | h
  · rw [h]
    exact h1.fd
  · exact .inr h

theorem SameRead.goto (h : SameRead s t) (pc : Pc) : SameRead s { t with pc := pc } :=
  ⟨h.reading, h.readPartial, h.readEof, h.readCb, h.pollin, h.fd⟩

theorem Away.after (hu : Away t u) (h : SameRead s t) : Away s u := ⟨h.trans hu.1, hu.2⟩

theorem Core.same (hs : Core strict drained s) (h : SameRead s t) : Core strict drained t := by
  refine ⟨fun hst => by rw [h.pollin, h.reading]; exact hs.interest hst, fun hr => ?_, fun hr => ?_, fun he => ?_⟩
  · rw [h.reading] at hr
    rcases h.fd with hfd | hfd
    · rw [hfd]
      exact hs.opened hr
    · exact hfd
  · rw [h.reading] at hr
    rw [h.readEof]
    exact hs.fresh hr
  · rw [h.readEof] at he
    exact hs.eof he

theorem Reader.mono {drained' hung' : Prop} (hs : Reader strict drained hung s) (hd : drained → drained') (hh : hung → hung') :
    Reader strict drained' hung' s where
  interest := hs.interest
  opened := hs.opened
  fresh := hs.fresh
  eof h := hd (hs.eof h)
  alloc := hs.alloc
  unmarked ev hi hu := ⟨(hs.unmarked ev hi hu).1, hh (hs.unmarked ev hi hu).2⟩
  short ev hp hu := hd (hs.short ev hp hu)

theorem Reader.same (hs : Reader strict drained hung s) (h : SameRead s t) (hpc : t.pc = s.pc) : Reader strict drained hung t where
  toCore := hs.toCore.same h
  alloc n ev hp hr := by
    rw [h.reading]
    exact hs.alloc n ev (hpc ▸ hp) (h.readCb ▸ hr)
  unmarked ev hi hu := by
    rw [h.readPartial]
    exact hs.unmarked ev (hpc ▸ hi) hu
  short ev hp hu := hs.short ev (hpc ▸ hp) hu

theorem Away.left (h : Away s t) (hs : Core strict drained s) : Left strict drained hung s t := by
  obtain ⟨h, hpc⟩ := h
  refine ⟨⟨hs.same h, fun n ev hp => ?_, fun ev hi => ?_, fun ev hp => ?_⟩, fun hr => h.reading ▸ hr, fun ev hp => ?_⟩
  · rw [hp] at hpc
    cases hpc
  · rcases hi with ⟨n, hp⟩ | ⟨next, hp⟩
    · rw [hp] at hpc
      cases hpc
    · rw [hp] at hpc
      cases hpc
  · rw [hp] at hpc
    cases hpc
  · rw [hp] at hpc
    cases hpc

/-! ## Writing and connecting -/

theorem Wrote.sameRead (h : Wrote s t) : SameRead s t := by
  rw [h.frame]
  exact ⟨rfl, rfl, rfl, rfl, rfl, .inl rfl⟩

theorem Popped.sameRead (h : Popped s t) : SameRead s t := by
  rw [h]
  exact ⟨rfl, rfl, rfl, rfl, rfl, .inl rfl⟩

theorem Opened.sameRead (h : Opened s t) : SameRead s t := by
  have hfd := h.fd
  rw [h.frame]
  exact ⟨rfl, rfl, rfl, rfl, rfl, hfd⟩

theorem Connecting.sameRead {cb : Bool} (h : Connecting s cb t) : SameRead s t := by
  have hfd := h.fd
  rw [h.frame]
  exact ⟨rfl, rfl, rfl, rfl, rfl, hfd⟩

namespace State

abbrev Ends (Q : State → Prop) (x : Except Fault State) : Prop := Sat Q (fun _ => True) x

theorem drain_away : Ends (Away s) (s.drain env) := by
  refine (drain_sat (T := anyTerms 0) id).mono (fun t ht => ?_) fun _ _ => trivial
  obtain ⟨hd, -⟩ := ht
  have hpc : t.pc.isAway = true := by
    rcases hd.pc with h | h
    · rw [h]
      rfl
    · rw [h]
      rfl
  refine ⟨?_, hpc⟩
  rw [hd.frame]
  exact ⟨rfl, rfl, rfl, rfl, rfl, .inl rfl⟩

theorem destroyEnd_away : Ends (Away s) s.destroyEnd :=
  Sat.ite (fun _ => trivial) fun _ => ⟨⟨rfl, rfl, rfl, rfl, rfl, .inl rfl⟩, rfl⟩

theorem destroyShutdown_away : Ends (Away s) s.destroyShutdown := by
  unfold destroyShutdown
  split
  · exact destroyEnd_away
  · refine Sat.bind (reqUnregister_sat.mono (fun _ h => h) fun _ _ => trivial) fun t ht => ?_
    rw [ht.2]
    exact Sat.ite (fun _ => ⟨⟨rfl, rfl, rfl, rfl, rfl, .inl rfl⟩, rfl⟩) fun _ => trivial

variable {caller : Caller} {count : ℕ} {cb : Bool}

theorem afterCallbacks_away : Ends (Away s) (s.afterCallbacks caller env) := by
  cases caller with
  | io => exact Sat.ite (fun _ => drain_away) fun _ => ⟨⟨rfl, rfl, rfl, rfl, rfl, .inl rfl⟩, rfl⟩
  | connect => exact ⟨⟨rfl, rfl, rfl, rfl, rfl, .inl rfl⟩, rfl⟩
  | destroy => exact destroyShutdown_away

theorem runCallbacks_away {l : List WriteReq} (hl : s.pq = l) :
    Ends (Away s) (runCallbacks caller env l s) := by
  refine runCallbacks_sat (T := anyTerms 0) (c := none) (d := none) hl (fun t ht _ => ⟨ht.sameRead.goto _, rfl⟩)
    (fun t ht _ _ => ?_)
    fun _ _ => trivial
  exact afterCallbacks_away.mono (fun u hu => hu.after ht.sameRead) fun _ _ => trivial

theorem writeCallbacks_away (h : SameRead s t) : Ends (Away s) (t.writeCallbacks caller env) := by
  have hpop : SameRead s { t with pq := t.writeCompletedQueue, writeCompletedQueue := [] } :=
    ⟨h.reading, h.readPartial, h.readEof, h.readCb, h.pollin, h.fd⟩
  exact (runCallbacks_away rfl).mono (fun _ hu => hu.after hpop) fun _ _ => trivial

theorem afterConnect_away {error : ℤ} : Ends (Away s) (s.afterConnect error env) := by
  refine Sat.ite (fun _ => ⟨⟨rfl, rfl, rfl, rfl, rfl, .inl rfl⟩, rfl⟩) fun _ =>
    Sat.ite (fun _ => ?_) fun _ => ⟨⟨rfl, rfl, rfl, rfl, rfl, .inl rfl⟩, rfl⟩
  exact writeCallbacks_away ⟨rfl, rfl, rfl, rfl, rfl, .inl rfl⟩

theorem streamConnect_away {req : Req} (hreq : s.connectReq = some req) : Ends (Away s) (s.streamConnect req env) := by
  have hsame : ∀ t, Connected s (s.connectError env) t → SameRead s t := by
    intro t ht
    rw [ht]
    exact ⟨rfl, rfl, rfl, rfl, rfl, .inl rfl⟩
  refine streamConnect_sat (T := anyTerms 0) hreq id ⟨⟨rfl, rfl, rfl, rfl, rfl, .inl rfl⟩, rfl⟩ (fun t _ ht _ => ⟨(hsame t ht).goto _, rfl⟩)
    (fun t _ ht _ => ?_) fun _ _ => trivial
  exact afterConnect_away.mono (fun u hu => hu.after (hsame t ht)) fun _ _ => trivial

theorem destroyWrites_away (h : SameRead s t) : Ends (Away s) (t.destroyWrites env) :=
  writeCallbacks_away ⟨h.reading, h.readPartial, h.readEof, h.readCb, h.pollin, h.fd⟩

theorem streamDestroy_away : Ends (Away s) (s.streamDestroy env) := by
  refine Sat.ite (fun _ => trivial) fun _ => ?_
  dsimp only
  split
  · refine Sat.bind (reqUnregister_sat.mono (fun _ h => h) fun _ _ => trivial) fun t ht => ?_
    rw [ht.2]
    exact Sat.ite (fun _ => ⟨⟨rfl, rfl, rfl, rfl, rfl, .inl rfl⟩, rfl⟩) fun _ => trivial
  · exact destroyWrites_away ⟨rfl, rfl, rfl, rfl, rfl, .inl rfl⟩

theorem afterEof_away : Ends (Away s) (s.afterEof iovmax ev env) := by
  refine Sat.ite (fun _ => ⟨⟨rfl, rfl, rfl, rfl, rfl, .inl rfl⟩, rfl⟩) fun _ =>
    Sat.ite (fun _ => ?_) fun _ => ⟨⟨rfl, rfl, rfl, rfl, rfl, .inl rfl⟩, rfl⟩
  refine Sat.bind ((uvWrite_sat (T := anyTerms iovmax) (c := none) (d := none) id nofun).mono (fun _ h => h) fun _ _ => trivial) fun t ht => ?_
  exact writeCallbacks_away ht.2.1.sameRead

/-! ## Reading -/

theorem callRead_ends {Q : State → Prop} {next : Pc} (h : s.readCb = true → Q { s with pc := next }) :
    Ends Q (s.callRead next) :=
  Sat.ite (fun hcb => h hcb) fun _ => trivial

theorem streamEof_core (hs : Core strict drained s) (hr : s.flags.reading = true) (hd : drained) :
    Core strict drained s.streamEof ∧ s.streamEof.flags.reading = false := by
  have hfd : s.fd ≠ -1 := by
    have := hs.opened hr
    omega
  have he : s.streamEof = { s with flags := { s.flags with readEof := true, reading := false }, pollin := false } := by
    exact if_neg hfd
  rw [he]
  exact ⟨⟨fun _ => rfl, nofun, nofun, fun _ => hd⟩, rfl⟩

theorem afterRead_left (hs : Core strict drained s)
    (hd : ev.hup = true → s.flags.reading = true → s.flags.readPartial = true → drained) :
    Ends (Left strict drained hung s) (s.afterRead iovmax ev env) := by
  refine Sat.ite (fun _ => Away.left ⟨⟨rfl, rfl, rfl, rfl, rfl, .inl rfl⟩, rfl⟩ hs) fun _ => Sat.ite (fun h => ?_) fun _ => ?_
  · obtain ⟨hhup, hr, hp, -⟩ := h
    obtain ⟨hc, hnr⟩ := streamEof_core hs hr (hd hhup hr hp)
    refine callRead_ends fun _ => ⟨⟨⟨hc.interest, hc.opened, hc.fresh, hc.eof⟩, nofun, fun ev hi => ?_, nofun⟩, fun _ => hr,
      fun _ _ => ⟨hr, hnr, hd hhup hr hp⟩⟩
    rcases hi with ⟨_, h⟩ | ⟨_, h⟩ <;> cases h
  · exact afterEof_away.mono (fun t ht => ht.left hs) fun _ _ => trivial

theorem readLoop_left (hs : Core strict drained s) (hu : ev.hup = true → s.flags.readPartial = false ∧ hung) :
    Ends (Left strict drained hung s) (s.readLoop iovmax count ev env) := by
  refine Sat.ite (fun h => ?_) fun _ => afterRead_left hs fun hhup _ hp => ?_
  · refine ⟨⟨⟨hs.interest, hs.opened, hs.fresh, hs.eof⟩, fun _ _ _ _ => h.2.1, fun ev' hi hhup => ?_, nofun⟩, fun h => h, nofun⟩
    rcases hi with ⟨n, hp⟩ | ⟨next, hp⟩
    · cases hp
      exact hu hhup
    · cases hp
  · rw [(hu hhup).1] at hp
    cases hp

theorem afterAlloc_left (hs : Reader strict drained hung s) (hpc : s.pc = .allocCb count ev)
    (heof : env.buf = true → env.read = .eof → drained)
    (hshort : env.buf = true → ∀ err, env.read = .data true err → ¬ (s.type = .pipe ∧ s.ipc ∧ err) → ev.hup = true → drained) :
    Ends (Left strict drained hung s) (s.afterAlloc count ev env) := by
  have hu := hs.unmarked ev (.inl ⟨count, hpc⟩)
  -- the callback gets an error, or data
  have call : ∀ {t : State} {next : ReadNext}, Core strict drained t → t.flags.readPartial = s.flags.readPartial →
      (t.flags.reading = true → s.flags.reading = true) → (next = .short → ev.hup = true → drained) →
      Ends (Left strict drained hung s) (t.callRead (.readCb next ev)) := by
    intro t next hc hp hk hsh
    refine callRead_ends fun _ => ⟨⟨⟨hc.interest, hc.opened, hc.fresh, hc.eof⟩, nofun, fun ev' hi hhup => ?_, fun ev' h hhup => ?_⟩,
      hk, nofun⟩
    · rcases hi with ⟨n, h⟩ | ⟨nx, h⟩
      · cases h
      · cases h
        show t.flags.readPartial = false ∧ _
        rw [hp]
        exact hu hhup
    · cases h
      exact hsh rfl hhup
  refine Sat.ite (fun _ => call hs.toCore rfl id nofun) fun hbuf => Sat.ite (fun _ => trivial) fun hfd => ?_
  have hbuf : env.buf = true := by simpa using hbuf
  split
  · next hread =>
    refine Sat.ite (fun hr => ?_) fun _ => call hs.toCore rfl id nofun
    refine Sat.bind (ioStartIn_sat.mono (fun _ h => h) fun _ _ => trivial) fun t ht => ?_
    rw [ht.2]
    exact call ⟨fun _ => hr.symm, hs.opened, hs.fresh, hs.eof⟩ rfl id nofun
  · exact call ⟨hs.interest, hs.opened, hs.fresh, hs.eof⟩ rfl id nofun
  · next hread =>
    cases hcb : s.readCb with
    | false =>
      have : s.streamEof.readCb = false := by
        rw [streamEof_reads.1.frame]
        exact hcb
      unfold callRead
      rw [this]
      trivial
    | true =>
      obtain ⟨hc, hnr⟩ := streamEof_core hs.toCore (hs.alloc count ev hpc hcb) (heof hbuf hread)
      refine call hc ?_ (fun h => ?_) nofun
      · unfold streamEof ioStopIn
        split <;> rfl
      · rw [hnr] at h
        cases h
  · next short err hread =>
    refine Sat.ite (fun _ => call hs.toCore rfl id nofun) fun herr => call hs.toCore rfl id fun h hhup => ?_
    have hsh : short = true := by
      cases short with
      | true => rfl
      | false => cases h
    exact hshort hbuf err (hsh ▸ hread) herr hhup

theorem afterAlloc_eof (hs : Reader strict drained hung s) (hpc : s.pc = .allocCb count ev) (hbuf : env.buf = true)
    (hread : env.read = .eof) :
    Ends (fun t => s.flags.reading = true ∧ t.flags.reading = false) (s.afterAlloc count ev env) := by
  unfold afterAlloc
  rw [hbuf, hread]
  refine Sat.ite (fun h => by cases h) fun _ => Sat.ite (fun _ => trivial) fun _ => ?_
  refine callRead_ends fun hcb => ?_
  rw [streamEof_reads.1.frame] at hcb
  exact ⟨hs.alloc count ev hpc hcb, by unfold streamEof ioStopIn; split <;> rfl⟩

theorem afterReadCb_left {next : ReadNext} (hs : Reader strict drained hung s) (hpc : s.pc = .readCb next ev) :
    Ends (Left strict drained hung s) (s.afterReadCb iovmax next ev env) := by
  have hu := hs.unmarked ev (.inr ⟨next, hpc⟩)
  have hno : ev.hup = true → s.flags.reading = true → s.flags.readPartial = true → drained := by
    intro hhup _ hp
    rw [(hu hhup).1] at hp
    cases hp
  unfold afterReadCb
  cases next with
  | stop => exact afterRead_left hs.toCore hno
  | error =>
    dsimp only
    split
    · next hr =>
      have hfd : s.fd ≠ -1 := by
        have := hs.opened hr
        omega
      have he : ({ s with flags := { s.flags with reading := false } } : State).ioStopIn =
          { s with flags := { s.flags with reading := false }, pollin := false } := by
        exact if_neg hfd
      rw [he]
      have hc : Core strict drained { s with flags := { s.flags with reading := false }, pollin := false } :=
        ⟨fun _ => rfl, nofun, nofun, hs.eof⟩
      refine Sat.mono (Q := Left strict drained hung _) (afterRead_left hc fun _ h => by cases h) (fun t ht => ?_) fun _ _ => trivial
      exact ⟨ht.toReader, fun _ => hr, fun ev h => by cases (ht.ended ev h).1⟩
    · exact afterRead_left hs.toCore hno
  | short =>
    have hc : Core strict drained { s with flags := { s.flags with readPartial := true } } :=
      ⟨hs.interest, hs.opened, hs.fresh, hs.eof⟩
    refine Sat.mono (Q := Left strict drained hung _) (afterRead_left hc fun hhup _ _ => hs.short ev hpc hhup) (fun t ht => ?_)
      fun _ _ => trivial
    exact ⟨ht.toReader, ht.keeps, ht.ended⟩
  | again count => exact readLoop_left hs.toCore hu

theorem streamIo_left (hs : Core strict drained s) (hhung : ev.hup = true → hung) :
    Ends (Left strict drained hung s) (s.streamIo iovmax ev env) := by
  refine Sat.ite (fun _ => trivial) fun _ => ?_
  split
  · next req hreq => exact (streamConnect_away hreq).mono (fun t ht => ht.left hs) fun _ _ => trivial
  · refine Sat.ite (fun _ => trivial) fun _ => Sat.ite (fun _ => ?_) fun hno => ?_
    · refine (readLoop_left (s := { s with flags := { s.flags with readPartial := false } })
        ⟨hs.interest, hs.opened, hs.fresh, hs.eof⟩ fun hhup => ⟨rfl, hhung hhup⟩).mono (fun t ht => ?_) fun _ _ => trivial
      exact ⟨ht.toReader, ht.keeps, ht.ended⟩
    · exact afterRead_left hs fun hhup => absurd (.inr (.inr hhup)) hno

/-! ## The API -/

theorem readStart_reader (hs : Reader strict drained hung s) : Ends (Reader strict drained hung) s.readStart := by
  refine Sat.ite (fun _ => hs) fun h => ?_
  refine ioStartIn_sat.mono (fun t ht => ?_) fun _ _ => trivial
  rw [ht.2]
  exact ⟨⟨fun _ => rfl, fun _ => ht.1, fun _ => rfl, nofun⟩, fun _ _ _ _ => rfl, hs.unmarked, hs.short⟩

theorem readStop_reader (hs : Reader strict drained hung s) :
    Reader strict drained hung s.readStop ∧ s.readStop.flags.reading = false := by
  unfold readStop
  split
  · next hr =>
    have hfd : s.fd ≠ -1 := by
      have := hs.opened hr
      omega
    have he : ({ s with flags := { s.flags with reading := false } } : State).ioStopIn =
        { s with flags := { s.flags with reading := false }, pollin := false } := by
      exact if_neg hfd
    rw [he]
    exact ⟨⟨⟨fun _ => rfl, nofun, nofun, hs.eof⟩, nofun, hs.unmarked, hs.short⟩, rfl⟩
  · next hr => exact ⟨hs, by simpa using hr⟩

theorem close_reader (hs : Reader strict drained hung s) :
    Ends (fun t => Reader strict drained hung t ∧ t.flags.reading = false ∧ t.pc = s.pc) s.close := by
  refine Sat.ite (fun _ => trivial) fun _ => ?_
  refine Sat.ite (fun _ => trivial) fun hp => ?_
  -- the watcher is closed before reading is stopped
  have hio : ∀ {t : State}, t = { s with flags := { s.flags with closing := true } }.ioClose.readStop →
      t.flags.reading = false ∧ t.flags.readPartial = s.flags.readPartial ∧ t.flags.readEof = s.flags.readEof ∧
        (t.readCb = true → s.readCb = true ∧ s.flags.reading = false) ∧ t.pc = s.pc := by
    intro t ht
    subst ht
    unfold readStop ioClose ioStopIn
    cases hr : s.flags.reading with
    | false => exact ⟨hr, rfl, rfl, fun h => ⟨h, rfl⟩, rfl⟩
    | true =>
      rw [if_pos rfl]
      split
      · exact ⟨rfl, rfl, rfl, nofun, rfl⟩
      · exact ⟨rfl, rfl, rfl, nofun, rfl⟩
  obtain ⟨h1, h2, h3, h4, h5⟩ := hio rfl
  rw [not_or] at hp
  have hpollin := hp.1
  refine ⟨⟨⟨?_, fun h => ?_, fun h => ?_, fun h => hs.eof (h3 ▸ h)⟩, fun n ev h hcb => ?_, fun ev hi => ?_, fun ev h => ?_⟩, h1, h5⟩
  · exact fun _ => (by simpa using hpollin : _ = false).trans h1.symm
  · rw [show _ = false from h1] at h
    cases h
  · rw [show _ = false from h1] at h
    cases h
  · obtain ⟨hcb, hr⟩ := h4 hcb
    rw [hs.alloc n ev (h5 ▸ h) hcb] at hr
    cases hr
  · intro hhup
    obtain ⟨hp, hh⟩ := hs.unmarked ev (h5 ▸ hi) hhup
    exact ⟨h2.trans hp, hh⟩
  · exact hs.short ev (h5 ▸ h)

theorem write2_same {bufs : List Buf} {send : Option Bool} {alloc : Bool} {outs : List Outcome} :
    Ends (fun t => SameRead s t ∧ t.pc = s.pc) (s.write2 iovmax bufs send cb alloc outs) := by
  have hsubmit : SameRead s (s.writeSubmit bufs send cb) ∧ (s.writeSubmit bufs send cb).pc = s.pc :=
    ⟨⟨rfl, rfl, rfl, rfl, rfl, .inl rfl⟩, rfl⟩
  refine Sat.ite (fun _ => trivial) fun _ => Sat.ite (fun _ => ⟨.refl s, rfl⟩) fun _ => ?_
  refine Sat.ite (fun _ => ⟨⟨rfl, rfl, rfl, rfl, rfl, .inl rfl⟩, rfl⟩) fun _ => Sat.ite (fun _ => hsubmit) fun _ => ?_
  refine Sat.ite (fun _ => ?_) fun _ => Sat.ite (fun _ => trivial) fun _ => ioStartOut_sat.mono (fun t ht => ?_) fun _ _ => trivial
  · refine Sat.mono (uvWrite_sat (T := anyTerms iovmax) (c := none) (d := none) id nofun) (fun t ht => ?_) fun _ _ => trivial
    exact ⟨hsubmit.1.trans ht.2.1.sameRead, (congrArg State.pc ht.2.1.frame).trans hsubmit.2⟩
  · rw [ht]
    exact ⟨⟨rfl, rfl, rfl, rfl, rfl, .inl rfl⟩, rfl⟩

theorem tryWrite2_same {bufs : List Buf} {o : Outcome} :
    Ends (fun t => SameRead s t ∧ t.pc = s.pc) (s.tryWrite2 iovmax bufs o) := by
  have hsame : SameRead s s ∧ s.pc = s.pc := ⟨.refl s, rfl⟩
  refine Sat.ite (fun _ => hsame) fun _ => Sat.ite (fun _ => trivial) fun _ => Sat.ite (fun _ => hsame) fun _ => ?_
  refine Sat.bind ((uvTryWrite_sat (T := anyTerms iovmax) False.elim).mono (fun _ h => h) fun _ _ => trivial) fun p hp => ?_
  obtain ⟨n, t⟩ := p
  have ht : SameRead s t ∧ t.pc = s.pc := by
    obtain ⟨more, -, ⟨n, -, hp⟩ | ⟨-, hp⟩⟩ := hp
    · cases hp
      exact ⟨⟨rfl, rfl, rfl, rfl, rfl, .inl rfl⟩, rfl⟩
    · cases hp
      exact ⟨⟨rfl, rfl, rfl, rfl, rfl, .inl rfl⟩, rfl⟩
  dsimp only
  split
  · exact ⟨⟨ht.1.reading, ht.1.readPartial, ht.1.readEof, ht.1.readCb, ht.1.pollin, ht.1.fd⟩, ht.2⟩
  · exact ht

theorem shutdown_same : Ends (fun t => SameRead s t ∧ t.pc = s.pc) (s.shutdown cb) := by
  refine Sat.ite (fun _ => ⟨.refl s, rfl⟩) fun _ => ioStartOut_sat.mono (fun t ht => ?_) fun _ _ => trivial
  rw [ht]
  exact ⟨⟨rfl, rfl, rfl, rfl, rfl, .inl rfl⟩, rfl⟩

theorem opened_same (h : Opened s t) : SameRead s t ∧ t.pc = s.pc := ⟨h.sameRead, by rw [h.frame]⟩

theorem connecting_same (h : Connecting s cb t) : SameRead s t ∧ t.pc = s.pc :=
  ⟨h.sameRead, by rw [h.frame]; rfl⟩

end State

/-! ## Every step -/

/-- The events and the read of a step are what `hung` and `drained` say. -/
def Label.Truthful (drained hung : Prop) (s : State) : Label → Prop
  | .io ev _ => ev.hup = true → hung
  | .ret env => ∀ n ev, s.pc = .allocCb n ev → env.buf = true → (env.read = .eof → drained) ∧
      ∀ err, env.read = .data true err → ¬ (s.type = .pipe ∧ s.ipc ∧ err) → ev.hup = true → drained
  | _ => True

theorem step_left (hs : Reader strict drained hung s) {l : Label} (hl : l.isCall = false) (ht : l.Truthful drained hung s) :
    State.Ends (Left strict drained hung s) (step iovmax s l) := by
  cases l with
  | io ev env => exact Sat.ite (fun _ => State.streamIo_left hs.toCore ht) fun _ => trivial
  | runPending env =>
    refine Sat.ite (fun _ => ?_) fun _ => trivial
    have hc : Core strict drained { s with pending := .unlinked } := ⟨hs.interest, hs.opened, hs.fresh, hs.eof⟩
    refine Sat.mono (Q := Left strict drained hung _) (State.streamIo_left hc nofun) (fun t ht => ?_) fun _ _ => trivial
    exact ⟨ht.toReader, ht.keeps, ht.ended⟩
  | destroy env =>
    refine Sat.ite (fun _ => ?_) fun _ => trivial
    exact State.streamDestroy_away.mono (fun t ht => ht.left hs.toCore) fun _ _ => trivial
  | ret env =>
    show State.Ends _ (s.ret iovmax env)
    unfold State.ret
    have away : ∀ {x : Except Fault State}, State.Ends (Away s) x → State.Ends (Left strict drained hung s) x :=
      fun hx => hx.mono (fun t ht => ht.left hs.toCore) fun _ _ => trivial
    cases hpc : s.pc with
    | idle => trivial
    | connectCb error => exact away State.afterConnect_away
    | allocCb count ev =>
      exact State.afterAlloc_left hs hpc (fun hb => (ht count ev hpc hb).1) fun hb => (ht count ev hpc hb).2
    | readCb next ev => exact State.afterReadCb_left hs hpc
    | eofCb ev => exact away State.afterEof_away
    | writeCb caller => exact away (State.runCallbacks_away rfl)
    | shutdownCb => exact away (show State.Ends _ (.ok _) from ⟨⟨rfl, rfl, rfl, rfl, rfl, .inl rfl⟩, rfl⟩)
    | destroyConnectCb => exact away (State.destroyWrites_away ⟨rfl, rfl, rfl, rfl, rfl, .inl rfl⟩)
    | destroyShutdownCb =>
      refine away (State.destroyEnd_away.mono (fun t ht => ht.after ?_) fun _ _ => trivial)
      exact ⟨rfl, rfl, rfl, rfl, rfl, .inl rfl⟩
  | «open» | bind | tcpConnect | pipeConnect | write | tryWrite | shutdown | readStart | readStop | close => cases hl

theorem step_call (hs : Reader strict drained hung s) {l : Label} (hl : l.isCall = true) :
    State.Ends (fun t => Reader strict drained hung t ∧ (t.flags.reading = true → s.flags.reading = true ∨ l = .readStart) ∧ t.pc = s.pc)
      (step iovmax s l) := by
  have same : ∀ {x : Except Fault State}, State.Ends (fun t => SameRead s t ∧ t.pc = s.pc) x →
      State.Ends (fun t => Reader strict drained hung t ∧ (t.flags.reading = true → s.flags.reading = true ∨ l = .readStart) ∧
        t.pc = s.pc) x :=
    fun hx => hx.mono (fun t ht => ⟨hs.same ht.1 ht.2, fun h => .inl (ht.1.reading ▸ h), ht.2⟩) fun _ _ => trivial
  cases l with
  | «open» =>
    exact same (Sat.ite (fun _ => trivial) fun _ => State.streamOpen_sat.mono (fun _ ht => State.opened_same ht) fun _ _ => trivial)
  | bind => exact same (Sat.ite (fun _ => trivial) fun _ => State.bind_sat.mono (fun _ ht => State.opened_same ht) fun _ _ => trivial)
  | tcpConnect =>
    refine same (Sat.ite (fun _ => trivial) fun _ => State.tcpConnect_sat.mono (fun _ ht => ?_) fun _ _ => trivial)
    exact ht.elim State.opened_same fun h => State.connecting_same h.2
  | pipeConnect =>
    exact same (Sat.ite (fun _ => trivial) fun _ => State.pipeConnect_sat.mono (fun _ ht => State.connecting_same ht) fun _ _ => trivial)
  | write => exact same (Sat.ite (fun _ => trivial) fun _ => State.write2_same)
  | tryWrite => exact same (Sat.ite (fun _ => trivial) fun _ => State.tryWrite2_same)
  | shutdown => exact same (Sat.ite (fun _ => trivial) fun _ => State.shutdown_same)
  | readStart =>
    refine Sat.ite (fun _ => trivial) fun _ => ?_
    have hpc : State.Ends (fun t => t.pc = s.pc) s.readStart := by
      refine Sat.ite (fun _ => rfl) fun _ => State.ioStartIn_sat.mono (fun t ht => ?_) fun _ _ => trivial
      rw [ht.2]
    have hr := State.readStart_reader hs
    cases hx : s.readStart with
    | ok t =>
      rw [hx] at hpc hr
      exact ⟨hr, fun _ => .inr rfl, hpc⟩
    | error e => trivial
  | readStop =>
    refine Sat.ite (fun _ => trivial) fun _ => ?_
    obtain ⟨h1, h2⟩ := State.readStop_reader hs
    refine ⟨h1, fun h => ?_, ?_⟩
    · rw [h2] at h
      cases h
    · unfold State.readStop State.ioStopIn
      split
      · split <;> rfl
      · rfl
  | close =>
    refine Sat.ite (fun _ => trivial) fun _ => (State.close_reader hs).mono (fun t ht => ?_) fun _ _ => trivial
    exact ⟨ht.1, fun h => absurd (ht.2.1.symm.trans h) nofun, ht.2.2⟩
  | io | runPending | ret | destroy => cases hl

end Libuv.L3.Stream
