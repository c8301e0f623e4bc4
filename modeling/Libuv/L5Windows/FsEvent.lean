import Mathlib.Tactic
import Libuv.Core.Fairness

/-!
# Directory watches on Windows (`win/fs-event.c`)

A handle has one request, one `OVERLAPPED` and one buffer. `uv_fs_event_start` opens the directory and submits the
request; the kernel completes it at any time, in any order, with records that it writes into the buffer, with an
overflow, or with an error (`complete`); the loop takes the completion and walks the records, calling
`cb` for those that pass the filter, and submits the request again. The user may call `uv_fs_event_start`,
`uv_fs_event_stop` and `uv_close` between the steps of the loop and in the callback, which may come between two
records.

`kernel` holds the requests that the kernel has, with the start that each was submitted for, `posted` counts
the completions not yet processed, and `calls` and `rearms` remember what the callback was told and how the
request was submitted again. An operation whose assertion fails, or that reads or writes a buffer that is freed, is `none`.
Paths are not modelled, but for what the filter compares.

* `inv_inductive`, `fs_event`: the results, in runs where steps are `Orderly`.
* `two_outstanding`, `restart_in_callback`, `rearm_recursive`: what happens in others.
-/
namespace Libuv.L5.FsEvent

open List Option

/-! ## State -/

abbrev WChar := UInt16

/-- `FILE_NOTIFY_INFORMATION` -/
structure Record where
  action : ℕ
  fileName : List WChar
deriving DecidableEq

def FILE_ACTION_ADDED : ℕ := 1
def FILE_ACTION_REMOVED : ℕ := 2
def FILE_ACTION_MODIFIED : ℕ := 3
def FILE_ACTION_RENAMED_OLD_NAME : ℕ := 4
def FILE_ACTION_RENAMED_NEW_NAME : ℕ := 5

def UV_HANDLE_CLOSING : BitVec 32 := 0x1#32
def UV_HANDLE_CLOSED : BitVec 32 := 0x2#32
def UV_HANDLE_ACTIVE : BitVec 32 := 0x4#32
def UV_HANDLE_ENDGAME_QUEUED : BitVec 32 := 0x20#32

def UV_FS_EVENT_RECURSIVE : BitVec 32 := 4#32

/-- What a completion says: records, none for want of room, or an error. -/
inductive Result
  | records (l : List Record)
  | overflow
  | error (err : ℕ)
deriving DecidableEq

/-- A request in the hands of the kernel, and the start it belongs to. -/
structure Request where
  start : ℕ
  recursive : Bool
deriving DecidableEq

structure Buffer where
  records : List Record
  start : ℕ
deriving DecidableEq

inductive Event
  | rename
  | change
  | error (err : ℕ)
deriving DecidableEq

/-- A call of the callback: what for, from a request of which start, and the start that was in force, if any. -/
structure Call where
  event : Event
  reported : ℕ
  current : Option ℕ
deriving DecidableEq

inductive Pc
  | idle
  /-- in the callback for a record of the buffer -/
  | walk (i : ℕ)
  /-- in the callback for an overflow or an error -/
  | told
  /-- behind the records -/
  | finish
deriving DecidableEq

structure Handle where
  closing : Bool
  closed : Bool
  active : Bool
  endgameQueued : Bool
  reqPending : Bool
  /-- `dir_handle` is not `INVALID_HANDLE_VALUE` -/
  dirHandle : Bool
  dirw : Option (List WChar)
  filew : Option (List WChar)
  shortFilew : Option (List WChar)
  buffer : Option Buffer
  /-- what the `OVERLAPPED` says, and of which start -/
  overlapped : Result × ℕ
  kernel : List Request
  posted : ℕ
  pc : Pc
  starts : ℕ
  /-- what the last start asked for -/
  recursive : Bool
  calls : List Call
  rearms : List (Bool × Bool)
  closeCbs : ℕ
deriving DecidableEq

/-- How `uv_fs_event_start` goes on: the path is no text, some other call fails, or a directory or a file is
watched. -/
inductive Outcome
  | badPath
  | error
  | directory (dirw : List WChar)
  | file (filew : List WChar) (shortFilew : Option (List WChar))
deriving DecidableEq

/-! ## Operations -/

/-- mirrors win/fs-event.c:140-153 -/
def fsEventInit : Handle :=
  ⟨false, false, false, false, false, false, none, none, none, none, (.overflow, 0), [], 0, .idle, 0, false, [], [], 0⟩

/-- Whether `file_info_cmp` is 0; `lower` is what `_wcsnicmp` does to a character.
mirrors win/fs-event.c:407-423 -/
def fileInfoCmp (lower : WChar → WChar) (str : Option (List WChar)) (fileName : List WChar) : Bool :=
  match str with
  | none => false
  | some str => str.length == fileName.length && str.map lower == fileName.map lower

/-- mirrors win/fs-event.c:549-560 -/
def eventOf (action : ℕ) : Option Event :=
  if action = FILE_ACTION_ADDED ∨ action = FILE_ACTION_REMOVED ∨ action = FILE_ACTION_RENAMED_OLD_NAME ∨
    action = FILE_ACTION_RENAMED_NEW_NAME then some .rename
  else if action = FILE_ACTION_MODIFIED then some .change
  else none

namespace Handle
variable (h : Handle)

/-- The bits of `flags` that are used here. -/
def flags : BitVec 32 :=
  (if h.closing then UV_HANDLE_CLOSING else 0) ||| (if h.closed then UV_HANDLE_CLOSED else 0) |||
    (if h.active then UV_HANDLE_ACTIVE else 0) ||| if h.endgameQueued then UV_HANDLE_ENDGAME_QUEUED else 0

/-- `uv__want_endgame` -/
def wantEndgame : Handle := { h with endgameQueued := true }

def current : Option ℕ := if h.active then some h.starts else none

/-- `uv__fs_event_queue_readdirchanges`; `err` is the error of `ReadDirectoryChangesW`, if it fails.
mirrors win/fs-event.c:36-64 -/
def queueReaddirchanges (err : Option ℕ) : Option Handle :=
  if h.dirHandle && !h.reqPending then
    let subtree := h.flags &&& UV_FS_EVENT_RECURSIVE != 0
    let h := { h with rearms := h.rearms ++ [(subtree, h.recursive)], reqPending := true }
    match err with
    | none => some { h with kernel := h.kernel ++ [⟨h.starts, subtree⟩] }
    | some err => some { h with overlapped := (.error err, h.starts), posted := h.posted + 1 }
  else none

/-- What `uv_fs_event_start` does when it fails.
mirrors win/fs-event.c:330-365 -/
def startError : Handle :=
  { h with filew := none, shortFilew := none, dirHandle := false, buffer := none, active := false }

/-- The request of a start is submitted.
mirrors win/fs-event.c:293-328 -/
def startRequest : Handle :=
  { h with
    dirHandle := true
    buffer := some (h.buffer.getD ⟨[], 0⟩)
    kernel := h.kernel ++ [⟨h.starts, h.recursive⟩]
    reqPending := true }

/-- An active handle is `UV_EINVAL`.
mirrors win/fs-event.c:156-366 -/
def start (flags : BitVec 32) (outcome : Outcome) : Handle :=
  if h.active then h
  else
    let h := { h with active := true, starts := h.starts + 1, recursive := flags &&& UV_FS_EVENT_RECURSIVE != 0 }
    match outcome with
    | .badPath => h
    | .error => h.startError
    | .directory dirw => { h.startRequest with dirw := some dirw }
    | .file filew shortFilew => { h.startRequest with filew := some filew, shortFilew := shortFilew, dirw := none }

/-- Closing the directory aborts what the kernel has, at some time.
mirrors win/fs-event.c:372-404 -/
def stop : Handle :=
  if h.active then { h with dirHandle := false, active := false, filew := none, shortFilew := none, dirw := none } else h

/-- mirrors win/fs-event.c:585-595 -/
def close : Handle :=
  let h := { h.stop with closing := true, active := false }
  if h.reqPending then h else h.wantEndgame

/-- mirrors win/fs-event.c:597-609 -/
def endgame : Option Handle :=
  let h := { h with endgameQueued := false }
  if h.closing && !h.reqPending then
    if h.closed then none else some { h with buffer := none, closed := true, closeCbs := h.closeCbs + 1 }
  else some h

def complete (k : ℕ) (result : Result) : Option Handle :=
  match h.kernel[k]? with
  | none => none
  | some r =>
    let h := { h with kernel := h.kernel.eraseIdx k, posted := h.posted + 1, overlapped := (result, r.start) }
    match result with
    | .records l => h.buffer.map fun _ => { h with buffer := some ⟨l, r.start⟩ }
    | _ => some h

/-- The filter for records, and the event.
mirrors win/fs-event.c:466-473 -/
def fires (lower : WChar → WChar) (r : Record) : Option Event :=
  if h.dirw.isSome || fileInfoCmp lower h.filew r.fileName || fileInfoCmp lower h.shortFilew r.fileName then eventOf r.action
  else none

def call (event : Event) (reported : ℕ) (pc : Pc) : Handle :=
  { h with calls := h.calls ++ [⟨event, reported, h.current⟩], pc := pc }

/-- The records from the `i`-th on, up to one that the callback is called for.
mirrors win/fs-event.c:456-568 -/
def walkFrom (lower : WChar → WChar) (start : ℕ) : List Record → ℕ → Handle
  | [], _ => { h with pc := .finish }
  | r :: l, i =>
    match h.fires lower r with
    | some event => h.call event start (.walk i)
    | none => walkFrom lower start l (i + 1)

/-- `uv__process_fs_event_req` up to the first callback.
mirrors win/fs-event.c:426-456 -/
def process (lower : WChar → WChar) : Option Handle :=
  if h.reqPending then
    let h := { h with reqPending := false, posted := h.posted - 1 }
    if h.active then
      match h.overlapped.1 with
      | .records _ => h.buffer.map fun b => h.walkFrom lower b.start b.records 0
      | .overflow => some (h.call .change h.overlapped.2 .told)
      | .error err => some (h.call (.error err) h.overlapped.2 .told)
    else if h.closing then some h.wantEndgame
    else some h
  else none

/-- The callback returns; the next record is looked up in the buffer.
mirrors win/fs-event.c:568-569 -/
def ret (lower : WChar → WChar) : Option Handle :=
  match h.pc with
  | .walk i => h.buffer.bind fun b =>
    if i < b.records.length then
      if h.closing then some { h with pc := .finish } else some (h.walkFrom lower b.start (b.records.drop (i + 1)) (i + 1))
    else none
  | _ => some { h with pc := .finish }

/-- mirrors win/fs-event.c:579-583 -/
def finish (err : Option ℕ) : Option Handle :=
  let h := { h with pc := .idle }
  if h.closing then some h.wantEndgame
  else if h.active then h.queueReaddirchanges err
  else some h

end Handle

/-! ## The system -/

inductive Label
  | start (flags : BitVec 32) (outcome : Outcome)
  | stop
  | close
  | complete (k : ℕ) (result : Result)
  | process
  | ret
  | finish (err : Option ℕ)
  | endgame
  /-- something that does not concern the handle -/
  | other
deriving DecidableEq

def InUserCode : Pc → Prop
  | .finish => False
  | _ => True

def enabled (h : Handle) : Label → Prop
  | .start _ _ | .close => InUserCode h.pc ∧ h.closing = false
  | .stop => InUserCode h.pc
  | .complete k _ => k < h.kernel.length
  | .process => h.pc = .idle ∧ 0 < h.posted
  | .ret => h.pc = .told ∨ ∃ i, h.pc = .walk i
  | .finish _ => h.pc = .finish
  | .endgame => h.pc = .idle ∧ h.endgameQueued = true
  | .other => True

def step (lower : WChar → WChar) (h : Handle) : Label → Option Handle
  | .start flags outcome => some (h.start flags outcome)
  | .stop => some h.stop
  | .close => some h.close
  | .complete k result => h.complete k result
  | .process => h.process lower
  | .ret => h.ret lower
  | .finish err => h.finish err
  | .endgame => h.endgame
  | .other => some h

def system (lower : WChar → WChar) : LTS Handle Label where
  init h := h = fsEventInit
  step h l t := enabled h l ∧ step lower h l = some t

/-- A handle that is stopped is started when no request is pending and outside of its callback, unless the start
fails and neither the kernel nor a walk has the buffer; and the request is submitted again for recursive starts. -/
def Orderly (h : Handle) : Label → Prop
  | .start _ outcome => h.active = true ∨ h.pc = .idle ∧ h.reqPending = false ∨
      outcome = .error ∧ h.kernel = [] ∧ ∀ i, h.pc ≠ .walk i
  | .finish _ => h.closing = false → h.active = true → h.recursive = true
  | _ => True

/-! ## The invariant -/

structure Inv (h : Handle) : Prop where
  count : h.kernel.length + h.posted = h.reqPending.toNat
  running : h.pc ≠ .idle → h.reqPending = false
  held : h.kernel ≠ [] → h.buffer ≠ none
  walking : ∀ i, h.pc = .walk i → ∃ b, h.buffer = some b ∧ i < b.records.length ∧ (h.active = true → b.start = h.starts)
  armed : h.active = true → h.reqPending = true ∨ h.pc ≠ .idle → h.dirHandle = true ∧ h.buffer ≠ none
  submitted : h.active = true → ∀ r ∈ h.kernel, r.start = h.starts
  reported : h.active = true → 0 < h.posted → h.overlapped.2 = h.starts ∧
    ∀ l, h.overlapped.1 = .records l → ∀ b ∈ h.buffer, b.start = h.starts
  filters : h.active = false → h.dirw = none ∧ h.filew = none ∧ h.shortFilew = none
  calls : ∀ c ∈ h.calls, c.current = some c.reported
  rearms : ∀ r ∈ h.rearms, r.1 = r.2
  stopped : h.closing = true → h.active = false
  queued : h.endgameQueued = true → h.closing = true ∧ h.closed = false ∧ h.reqPending = false
  closed : h.closed = true → h.closing = true ∧ h.reqPending = false ∧ h.pc = .idle
  path : h.closing = true → h.closed = false → h.endgameQueued = true ∨ h.reqPending = true ∨ h.pc ≠ .idle
  closeCbs : h.closeCbs = if h.closed then 1 else 0

variable {lower : WChar → WChar} {h t : Handle}

theorem Inv.idle (hi : Inv h) (hr : h.reqPending = false) : h.kernel = [] ∧ h.posted = 0 := by
  have hc := hi.count
  rw [hr] at hc
  simpa using hc

theorem Inv.notClosed (hi : Inv h) (hp : h.pc ≠ .idle ∨ h.reqPending = true ∨ h.closing = false) : h.closed = false := by
  by_contra hc
  obtain ⟨h1, h2, h3⟩ := hi.closed (by simpa using hc)
  rcases hp with hp | hp | hp
  · exact hp h3
  · exact absurd (h2.symm.trans hp) (by decide)
  · exact absurd (hp.symm.trans h1) (by decide)

theorem Inv.notQueued (hi : Inv h) (hp : h.reqPending = true ∨ h.closing = false) : h.endgameQueued = false := by
  by_contra hq
  obtain ⟨h1, -, h3⟩ := hi.queued (by simpa using hq)
  rcases hp with hp | hp
  · exact absurd (h3.symm.trans hp) (by decide)
  · exact absurd (hp.symm.trans h1) (by decide)

/-! ### The walk -/

theorem walkFrom_spec (lower : WChar → WChar) (h : Handle) (start : ℕ) (l : List Record) (i : ℕ) :
    h.walkFrom lower start l i = { h with pc := .finish } ∨
      ∃ event j, j < i + l.length ∧ h.walkFrom lower start l i = h.call event start (.walk j) := by
  induction l generalizing i with
  | nil => exact .inl rfl
  | cons r l ih =>
    rw [Handle.walkFrom]
    split
    · next event _ => exact .inr ⟨event, i, by simp, rfl⟩
    · rcases ih (i + 1) with e | ⟨event, j, hj, e⟩
      · exact .inl e
      · exact .inr ⟨event, j, by rw [length_cons]; omega, e⟩

theorem walkFrom_stopped (hi : Inv h) (ha : h.active = false) (start : ℕ) (l : List Record) (i : ℕ) :
    h.walkFrom lower start l i = { h with pc := .finish } := by
  obtain ⟨h1, h2, h3⟩ := hi.filters ha
  induction l generalizing i with
  | nil => rfl
  | cons r l ih =>
    have hf : h.fires lower r = none := by simp [Handle.fires, h1, h2, h3, fileInfoCmp]
    rw [Handle.walkFrom, hf]
    exact ih (i + 1)

theorem flags_recursive (h : Handle) : (h.flags &&& UV_FS_EVENT_RECURSIVE != 0) = h.active := by
  unfold Handle.flags
  cases h.closing <;> cases h.closed <;> cases h.active <;> cases h.endgameQueued <;> decide

/-! ### The operations -/

theorem Inv.start (hi : Inv h) {flags : BitVec 32} {outcome : Outcome} (hc : h.closing = false)
    (ho : Orderly h (.start flags outcome)) : Inv (h.start flags outcome) := by
  unfold Handle.start
  split
  · exact hi
  · next ha =>
    have ha' : h.active = false := by simpa using ha
    obtain ⟨hd, hf, hs⟩ := hi.filters ha'
    have hcl (h' : h.closing = true) : False := absurd (hc.symm.trans h') (by decide)
    have herror (hk : h.kernel = []) (hw : ∀ i, h.pc ≠ .walk i) :
        Inv { h with active := true, starts := h.starts + 1, recursive := flags &&& UV_FS_EVENT_RECURSIVE != 0 }.startError :=
      { hi with
        held := fun h' => absurd hk h'
        walking := fun i h' => absurd h' (hw i)
        armed := by simp [Handle.startError]
        submitted := by simp [Handle.startError]
        reported := by simp [Handle.startError]
        filters := fun _ => ⟨hd, rfl, rfl⟩
        stopped := fun _ => rfl }
    rcases ho with h' | ⟨hp, hr⟩ | ⟨rfl, hk, hw⟩
    · exact absurd h' ha
    · obtain ⟨hk, h0⟩ := hi.idle hr
      set g : Handle := { h with active := true, starts := h.starts + 1, recursive := flags &&& UV_FS_EVENT_RECURSIVE != 0 } with hg
      have hwatch {d f s : Option (List WChar)} : Inv { g.startRequest with dirw := d, filew := f, shortFilew := s } :=
        { hi with
          count := by simp [hg, Handle.startRequest, hk, h0]
          running := fun h' => absurd hp h'
          held := by simp [Handle.startRequest]
          walking := fun i h' => absurd (hp.symm.trans h') (by simp)
          armed := by simp [hg, Handle.startRequest]
          submitted := by simp [hg, Handle.startRequest, hk]
          reported := fun _ h' => absurd h' (by simp [hg, Handle.startRequest, h0])
          filters := by simp [hg, Handle.startRequest]
          stopped := fun h' => (hcl h').elim
          queued := fun h' => (hcl (hi.queued h').1).elim
          closed := fun h' => (hcl (hi.closed h').1).elim
          path := fun h' => (hcl h').elim }
      cases outcome with
      | badPath =>
        exact { hi with
          walking := fun i h' => absurd (hp.symm.trans h') (by simp)
          armed := fun _ h' => h'.elim (fun h' => absurd (hr.symm.trans h') (by decide)) (absurd hp)
          submitted := by simp [hg, hk]
          reported := fun _ h' => absurd h' (by simp [hg, h0])
          filters := by simp [hg]
          stopped := fun h' => (hcl h').elim }
      | error => exact herror hk (by simp [hp])
      | directory dirw | file filew shortFilew => exact hwatch
    · exact herror hk hw

theorem Inv.stop (hi : Inv h) : Inv h.stop := by
  unfold Handle.stop
  split
  · refine { hi with
      walking := fun i h' => ?_
      armed := by simp
      submitted := by simp
      reported := by simp
      filters := by simp
      stopped := fun _ => rfl }
    obtain ⟨b, hb, hlt, -⟩ := hi.walking i h'
    exact ⟨b, hb, hlt, by simp⟩
  · exact hi

theorem Inv.close (hi : Inv h) (hc : h.closing = false) : Inv h.close := by
  have hcd := hi.notClosed (.inr (.inr hc))
  have hq := hi.notQueued (.inr hc)
  have hs := hi.stop
  have hstop : h.stop.active = false := by
    unfold Handle.stop
    split
    · rfl
    · next ha => simpa using ha
  have hsame : h.stop.reqPending = h.reqPending ∧ h.stop.closed = h.closed ∧ h.stop.endgameQueued = h.endgameQueued := by
    unfold Handle.stop
    split <;> exact ⟨rfl, rfl, rfl⟩
  have hcd' := hsame.2.1.trans hcd
  unfold Handle.close
  dsimp only
  split
  · next hr =>
    exact { hs with
      walking := fun i h' => by simpa [hstop] using hs.walking i h'
      armed := by simp
      submitted := by simp
      reported := by simp
      filters := fun _ => hs.filters hstop
      stopped := fun _ => rfl
      queued := fun h' => absurd (hq.symm.trans (hsame.2.2.symm.trans h')) (by decide)
      closed := fun h' => absurd (hcd'.symm.trans h') (by decide)
      path := fun _ _ => .inr (.inl hr) }
  · next hr =>
    exact { hs with
      walking := fun i h' => by simpa [hstop, Handle.wantEndgame] using hs.walking i h'
      armed := by simp [Handle.wantEndgame]
      submitted := by simp [Handle.wantEndgame]
      reported := by simp [Handle.wantEndgame]
      filters := fun _ => hs.filters hstop
      stopped := fun _ => rfl
      queued := fun _ => ⟨rfl, hcd', by simpa [Handle.wantEndgame] using hr⟩
      closed := fun h' => absurd (hcd'.symm.trans h') (by decide)
      path := fun _ _ => .inl rfl }

theorem Inv.complete (hi : Inv h) {k : ℕ} (hk : k < h.kernel.length) (result : Result) :
    ∃ t, h.complete k result = some t ∧ Inv t := by
  have hcount := hi.count
  have hle := Bool.toNat_le h.reqPending
  obtain ⟨r, hr⟩ := length_eq_one_iff.1 (show h.kernel.length = 1 by omega)
  obtain rfl : k = 0 := by
    rw [hr] at hk
    simpa using hk
  have hreq : h.reqPending = true := by
    by_contra hreq
    obtain ⟨hk, -⟩ := hi.idle (by simpa using hreq)
    simp [hk] at hr
  have hposted : h.posted = 0 := by
    rw [hr, hreq] at hcount
    simpa using hcount
  have hpc : h.pc = .idle := by
    by_contra hpc
    exact absurd ((hi.running hpc).symm.trans hreq) (by decide)
  have hsub (ha : h.active = true) : r.start = h.starts := hi.submitted ha r (by simp [hr])
  obtain ⟨b, hb⟩ := ne_none_iff_exists'.1 (hi.held (by simp [hr]))
  have hbase (res : Result) (buf : Option Buffer) (hbuf : buf ≠ none)
      (hrep : h.active = true → ∀ l, res = .records l → ∀ b ∈ buf, b.start = h.starts) :
      Inv { h with kernel := [], posted := h.posted + 1, overlapped := (res, r.start), buffer := buf } := by
    exact { hi with
      count := by simp [hposted, hreq]
      held := by simp
      walking := fun i h' => absurd (hpc.symm.trans h') (by simp)
      armed := fun ha h' => ⟨(hi.armed ha h').1, hbuf⟩
      submitted := by simp
      reported := fun ha _ => ⟨hsub ha, hrep ha⟩ }
  simp only [Handle.complete, hr, getElem?_cons_zero, eraseIdx_cons_zero]
  cases result with
  | records l =>
    rw [hb]
    refine ⟨_, rfl, hbase _ (some ⟨l, r.start⟩) (by simp) fun ha _ _ b' hb' => ?_⟩
    cases hb'
    exact hsub ha
  | overflow => exact ⟨_, rfl, hbase .overflow h.buffer (by simp [hb]) (by simp)⟩
  | error err => exact ⟨_, rfl, hbase (.error err) h.buffer (by simp [hb]) (by simp)⟩

theorem Inv.call (hi : Inv h) {event : Event} {start : ℕ} {pc : Pc} (ha : h.active = true) (hr : h.reqPending = false)
    (hb : h.buffer ≠ none) (hd : h.dirHandle = true) (ht : start = h.starts) (hp : pc ≠ .idle)
    (hw : ∀ i, pc = .walk i → ∃ b, h.buffer = some b ∧ i < b.records.length ∧ b.start = h.starts) :
    Inv (h.call event start pc) := by
  have hcl : h.closing = true → False := fun hc => absurd ((hi.stopped hc).symm.trans ha) (by decide)
  refine { hi with
    running := fun _ => hr
    walking := fun i h' => ?_
    armed := fun _ _ => ⟨hd, hb⟩
    calls := fun c hc => ?_
    closed := fun h' => (hcl (hi.closed h').1).elim
    path := fun _ _ => .inr (.inr hp) }
  · obtain ⟨b, h1, h2, h3⟩ := hw i h'
    exact ⟨b, h1, h2, fun _ => h3⟩
  · simp only [Handle.call, mem_append, mem_singleton] at hc
    rcases hc with hc | rfl
    · exact hi.calls c hc
    · simp [Handle.current, ha, ht]

theorem Inv.toFinish (hi : Inv h) (hr : h.reqPending = false) (hb : h.active = true → h.dirHandle = true ∧ h.buffer ≠ none)
    (hcd : h.closed = false) : Inv { h with pc := .finish } :=
  { hi with
    running := fun _ => hr
    walking := by simp
    armed := fun ha _ => hb ha
    closed := fun h' => absurd (hcd.symm.trans h') (by decide)
    path := fun _ _ => .inr (.inr (by simp)) }

theorem Inv.walkFrom (hi : Inv h) (ha : h.active = true) (hr : h.reqPending = false) (hd : h.dirHandle = true) {b : Buffer}
    (hb : h.buffer = some b) (ht : b.start = h.starts) {i : ℕ} (hle : i ≤ b.records.length) :
    Inv (h.walkFrom lower b.start (b.records.drop i) i) := by
  have hcl : h.closing = false := by
    by_contra hc
    exact absurd ((hi.stopped (by simpa using hc)).symm.trans ha) (by decide)
  rcases walkFrom_spec lower h b.start (b.records.drop i) i with e | ⟨event, j, hj, e⟩
  · rw [e]
    exact hi.toFinish hr (fun _ => ⟨hd, by simp [hb]⟩) (hi.notClosed (.inr (.inr hcl)))
  · rw [e]
    refine hi.call ha hr (by simp [hb]) hd ht (by simp) fun k hk => ⟨b, hb, ?_, ht⟩
    cases hk
    rw [length_drop] at hj
    omega

theorem Inv.process (hi : Inv h) (hp : h.pc = .idle) (h0 : 0 < h.posted) : ∃ t, h.process lower = some t ∧ Inv t := by
  have hreq : h.reqPending = true := by
    by_contra hreq
    have := (hi.idle (by simpa using hreq)).2
    omega
  have hcount := hi.count
  rw [hreq, Bool.toNat_true] at hcount
  have hk : h.kernel = [] := length_eq_zero_iff.1 (by omega)
  have hcd := hi.notClosed (.inr (.inl hreq))
  have hbase (q : Bool) (h1 : q = true → h.closing = true) (h2 : h.closing = true → q = true) :
      Inv { h with reqPending := false, posted := h.posted - 1, endgameQueued := q } := by
    refine { hi with
      count := ?_
      running := fun _ => rfl
      walking := fun i h' => absurd (hp.symm.trans h') (by simp)
      armed := fun _ h' => ?_
      reported := fun _ h' => ?_
      queued := fun hq => ⟨h1 hq, hcd, rfl⟩
      closed := fun h' => absurd (hcd.symm.trans h') (by decide)
      path := fun hc _ => .inl (h2 hc) }
    · simp [hk]
      omega
    · rcases h' with h' | h'
      · cases h'
      · exact absurd hp h'
    · dsimp only at h'
      omega
  unfold Handle.process
  rw [if_pos hreq]
  dsimp only
  split
  · next ha =>
    obtain ⟨hd, hb⟩ := hi.armed ha (.inl hreq)
    obtain ⟨h1, h2⟩ := hi.reported ha h0
    have hc : h.closing = true → False := fun hc => absurd ((hi.stopped hc).symm.trans ha) (by decide)
    have hu := hbase h.endgameQueued (fun hq => (hi.queued hq).1) fun h' => (hc h').elim
    split
    · next l hl =>
      obtain ⟨b, hb'⟩ := ne_none_iff_exists'.1 hb
      exact ⟨_, map_eq_some_iff.2 ⟨b, hb', rfl⟩, hu.walkFrom ha rfl hd hb' (h2 l hl b hb') (Nat.zero_le _)⟩
    · exact ⟨_, rfl, hu.call ha rfl hb hd h1 (by simp) (by simp)⟩
    · exact ⟨_, rfl, hu.call ha rfl hb hd h1 (by simp) (by simp)⟩
  · split
    · next hc => exact ⟨_, rfl, hbase true (fun _ => hc) fun _ => rfl⟩
    · next hc => exact ⟨_, rfl, hbase h.endgameQueued (fun hq => (hi.queued hq).1) fun h' => absurd h' hc⟩

theorem Inv.ret (hi : Inv h) (he : h.pc = .told ∨ ∃ i, h.pc = .walk i) : ∃ t, h.ret lower = some t ∧ Inv t := by
  have hpc : h.pc ≠ .idle := by rcases he with e | ⟨i, e⟩ <;> simp [e]
  have hr := hi.running hpc
  have hcd := hi.notClosed (.inl hpc)
  have hend : Inv { h with pc := .finish } := hi.toFinish hr (fun ha => hi.armed ha (.inr hpc)) hcd
  unfold Handle.ret
  rcases he with e | ⟨i, e⟩
  · rw [e]
    exact ⟨_, rfl, hend⟩
  · obtain ⟨b, hb, hlt, ht⟩ := hi.walking i e
    simp only [e]
    by_cases hc : h.closing = true
    · exact ⟨_, bind_eq_some_iff.2 ⟨b, hb, by rw [if_pos hlt, if_pos hc]⟩, hend⟩
    · refine ⟨_, bind_eq_some_iff.2 ⟨b, hb, by rw [if_pos hlt, if_neg hc]⟩, ?_⟩
      cases ha : h.active with
      | true => exact hi.walkFrom ha hr (hi.armed ha (.inr hpc)).1 hb (ht ha) hlt
      | false =>
        rw [walkFrom_stopped hi ha]
        exact hend

theorem Inv.finish (hi : Inv h) (hp : h.pc = .finish) (ho : h.closing = false → h.active = true → h.recursive = true)
    (err : Option ℕ) : ∃ t, h.finish err = some t ∧ Inv t := by
  have hpc : h.pc ≠ .idle := by simp [hp]
  have hr := hi.running hpc
  obtain ⟨hk, h0⟩ := hi.idle hr
  have hcd := hi.notClosed (.inl hpc)
  have hidle (q : Bool) (h1 : q = true → h.closing = true) (h2 : h.closing = true → q = true) :
      Inv { h with pc := .idle, endgameQueued := q } :=
    { hi with
      running := fun h' => absurd rfl h'
      walking := by simp
      armed := fun _ h' => by simp [hr] at h'
      queued := fun hq => ⟨h1 hq, hcd, hr⟩
      closed := fun h' => absurd (hcd.symm.trans h') (by decide)
      path := fun hc _ => .inl (h2 hc) }
  unfold Handle.finish
  dsimp only
  split
  · next hc => exact ⟨_, rfl, hidle true (fun _ => hc) fun _ => rfl⟩
  · next hc =>
    split
    · next ha =>
      obtain ⟨hd, hb⟩ := hi.armed ha (.inr hpc)
      have hrec := ho (by simpa using hc) ha
      have hq : h.endgameQueued = true → False := fun hq => hc (hi.queued hq).1
      have hsub : (({ h with pc := .idle } : Handle).flags &&& UV_FS_EVENT_RECURSIVE != 0) = true := (flags_recursive _).trans ha
      have hre : ∀ r ∈ h.rearms ++ [(true, h.recursive)], r.1 = r.2 := by
        rw [hrec]
        simpa [or_imp, forall_and] using hi.rearms
      rw [Handle.queueReaddirchanges, if_pos (by simp [hd, hr]), hsub]
      cases err with
      | none =>
        exact ⟨_, rfl, { hi with
          count := by simp [hk, h0]
          running := fun h' => absurd rfl h'
          held := fun _ => hb
          walking := by simp
          armed := fun _ _ => ⟨hd, hb⟩
          submitted := by simp [hk]
          reported := fun _ h' => absurd h' (by simp [h0])
          rearms := hre
          queued := fun h' => (hq h').elim
          closed := fun h' => absurd (hcd.symm.trans h') (by decide)
          path := fun h' => absurd h' hc }⟩
      | some err =>
        exact ⟨_, rfl, { hi with
          count := by simp [hk, h0]
          running := fun h' => absurd rfl h'
          walking := by simp
          armed := fun _ _ => ⟨hd, hb⟩
          reported := fun _ _ => ⟨rfl, by simp⟩
          rearms := hre
          queued := fun h' => (hq h').elim
          closed := fun h' => absurd (hcd.symm.trans h') (by decide)
          path := fun h' => absurd h' hc }⟩
    · exact ⟨_, rfl, hidle h.endgameQueued (fun hq => (hi.queued hq).1) fun h' => absurd h' hc⟩

theorem Inv.endgame (hi : Inv h) (hp : h.pc = .idle) (hq : h.endgameQueued = true) :
    ∃ t, h.endgame = some t ∧ Inv t ∧ t.closed = true := by
  obtain ⟨h1, h2, h3⟩ := hi.queued hq
  obtain ⟨hk, -⟩ := hi.idle h3
  have ha := hi.stopped h1
  have he : h.endgame = some { h with endgameQueued := false, buffer := none, closed := true, closeCbs := h.closeCbs + 1 } := by
    simp [Handle.endgame, h1, h2, h3]
  exact ⟨_, he, { hi with
    held := fun h' => absurd hk h'
    walking := fun i h' => absurd (hp.symm.trans h') (by simp)
    armed := by simp [ha]
    submitted := by simp [ha]
    reported := by simp [ha]
    queued := by simp
    closed := fun _ => ⟨h1, h3, hp⟩
    path := by simp
    closeCbs := by simp [hi.closeCbs, h2] }, rfl⟩

theorem step_spec (lower : WChar → WChar) (hi : Inv h) {l : Label} (he : enabled h l) (ho : Orderly h l) :
    ∃ t, step lower h l = some t ∧ Inv t := by
  cases l with
  | start flags outcome => exact ⟨_, rfl, hi.start he.2 ho⟩
  | stop => exact ⟨_, rfl, hi.stop⟩
  | close => exact ⟨_, rfl, hi.close he.2⟩
  | complete k result => exact hi.complete he result
  | process => exact hi.process he.1 he.2
  | ret => exact hi.ret he
  | finish err => exact hi.finish he ho err
  | endgame =>
    obtain ⟨t, ht, hit, -⟩ := hi.endgame he.1 he.2
    exact ⟨t, ht, hit⟩
  | other => exact ⟨h, rfl, hi⟩

theorem inv_inductive (lower : WChar → WChar) : ((system lower).restrict Orderly).Inductive Inv where
  init := by
    rintro _ rfl
    constructor <;> simp [fsEventInit]
  step h l t hi hst := by
    obtain ⟨u, hu, hiu⟩ := step_spec lower hi hst.2.1 hst.1
    cases hu.symm.trans hst.2.2
    exact hiu

/-! ## Fair runs -/

inductive Thread
  | loop
  | kernel
  | elsewhere

def Label.thread : Label → Thread
  | .complete _ _ => .kernel
  | .process | .ret | .finish _ | .endgame => .loop
  | _ => .elsewhere

/-- The kernel completes what it has; completions are processed, callbacks return, endgames that are queued are run. -/
def Active : Thread → Handle → Prop
  | .kernel, h => h.kernel ≠ []
  | .loop, h => 0 < h.posted ∨ h.pc ≠ .idle ∨ h.endgameQueued = true
  | .elsewhere, _ => False

def Helps : Thread → Handle → Prop
  | .kernel, h => h.kernel ≠ []
  | .loop, h => h.kernel = []
  | .elsewhere, _ => False

def Pc.left : Pc → ℕ
  | .idle => 0
  | .finish => 1
  | .told | .walk _ => 2

/-- What is left before a handle that is closing is closed. -/
def Handle.left (h : Handle) : ℕ := 4 * h.kernel.length + 3 * h.posted + h.pc.left

theorem complete_effect {k : ℕ} {result : Result} (hk : k < h.kernel.length) (hs : h.complete k result = some t) :
    t.left < h.left ∧ t.closing = h.closing ∧ t.closed = h.closed := by
  have hlt : 4 * (h.kernel.eraseIdx k).length + 3 * (h.posted + 1) + h.pc.left < h.left := by
    rw [length_eraseIdx_of_lt hk, Handle.left]
    omega
  simp only [Handle.complete, getElem?_eq_getElem hk] at hs
  cases result with
  | records l =>
    obtain ⟨b, -, rfl⟩ := map_eq_some_iff.1 hs
    exact ⟨hlt, rfl, rfl⟩
  | overflow | error =>
    cases hs
    exact ⟨hlt, rfl, rfl⟩

theorem closing_step (hi : Inv h) (hc : h.closing = true) (hcd : h.closed = false) {l : Label} (he : enabled h l)
    (hs : step lower h l = some t) : t.closed = true ∨ (t.closing = true ∧ t.closed = false) ∧
      (t.left < h.left ∨ t.left = h.left ∧ ∀ p, Helps p h → l.thread ≠ p ∧ Helps p t) := by
  have ha := hi.stopped hc
  have hsame (hl : l.thread = .elsewhere) (e : t = h) : t.closed = true ∨ (t.closing = true ∧ t.closed = false) ∧
      (t.left < h.left ∨ t.left = h.left ∧ ∀ p, Helps p h → l.thread ≠ p ∧ Helps p t) := by
    rw [e, hl]
    refine .inr ⟨⟨hc, hcd⟩, .inr ⟨rfl, fun p hp => ⟨fun e => ?_, hp⟩⟩⟩
    subst e
    exact hp
  cases l with
  | start | close => exact absurd (he.2.symm.trans hc) (by decide)
  | stop =>
    cases hs
    exact hsame rfl (by rw [Handle.stop, if_neg (by simp [ha])])
  | complete k result =>
    obtain ⟨h1, h2, h3⟩ := complete_effect he hs
    exact .inr ⟨⟨h2.trans hc, h3.trans hcd⟩, .inl h1⟩
  | process =>
    obtain ⟨hp, h0⟩ := he
    simp only [step, Handle.process, ha, hc, Bool.false_eq_true, if_false, if_true] at hs
    split at hs
    · cases hs
      refine .inr ⟨⟨rfl, hcd⟩, .inl ?_⟩
      simp only [Handle.left, Handle.wantEndgame]
      omega
    · cases hs
  | ret =>
    have hfin (e : t = { h with pc := .finish }) (h2 : h.pc.left = 2) : t.closed = true ∨ (t.closing = true ∧ t.closed = false) ∧
        (t.left < h.left ∨ t.left = h.left ∧ ∀ p, Helps p h → Label.ret.thread ≠ p ∧ Helps p t) := by
      subst e
      refine .inr ⟨⟨hc, hcd⟩, .inl ?_⟩
      rw [Handle.left, Handle.left, h2]
      exact Nat.lt_succ_self _
    unfold step Handle.ret at hs
    rcases he with e | ⟨i, e⟩
    · rw [e] at hs
      cases hs
      exact hfin rfl (by rw [e]; rfl)
    · simp only [e] at hs
      obtain ⟨b, -, hs⟩ := bind_eq_some_iff.1 hs
      simp only [hc, if_true] at hs
      split at hs
      · cases hs
        exact hfin (by rw [← hc]) (by rw [e]; rfl)
      · cases hs
  | finish err =>
    simp only [step, Handle.finish, hc, if_true] at hs
    cases hs
    refine .inr ⟨⟨rfl, hcd⟩, .inl ?_⟩
    simp only [Handle.left, Handle.wantEndgame, show h.pc = .finish from he, Pc.left]
    omega
  | endgame =>
    obtain ⟨u, hu, -, hcl⟩ := hi.endgame he.1 he.2
    cases hu.symm.trans hs
    exact .inl hcl
  | other =>
    cases hs
    exact hsame rfl rfl

theorem closes (ρ : ((system lower).restrict Orderly).InfRun) (hf : ρ.Fair Label.thread Active) {n : ℕ}
    (hc : (ρ.state n).closing = true) : ∃ m, n ≤ m ∧ (ρ.state m).closed = true := by
  by_cases hcd : (ρ.state n).closed = true
  · exact ⟨n, le_rfl, hcd⟩
  obtain ⟨m, hm, hq⟩ := ρ.leads_to (fun h => h.closing = true ∧ h.closed = false) Helps Handle.left (fun _ _ t => t.closed = true) hf
    (fun p h hr hP hp => by
      have hi := (inv_inductive lower).reachable hr
      cases p with
      | elsewhere | kernel => exact hp
      | loop =>
        rcases hi.path hP.1 hP.2 with hq | hreq | hpc
        · exact .inr (.inr hq)
        · have hcount := hi.count
          rw [show h.kernel = [] from hp, hreq, length_nil, Bool.toNat_true] at hcount
          exact .inl (by omega)
        · exact .inr (.inl hpc))
    (fun h hr hP => by
      by_cases hk : h.kernel = []
      · exact ⟨.loop, hk⟩
      · exact ⟨.kernel, hk⟩)
    (fun h l t hr hP hst => closing_step ((inv_inductive lower).reachable hr) hP.1 hP.2 hst.2.1 hst.2.2) n ⟨hc, by simpa using hcd⟩
  exact ⟨m + 1, by omega, hq⟩

/-- **Directory watches**, over any order of `Orderly` steps. The kernel has one request at most, `req_pending` is set
exactly while it has one or its completion is not processed; the buffer is there while the kernel has it and while
it is walked, and not both at once; callbacks are about the start in force, requests are submitted again as the
start asked; no step fails; and the close callback is called once, behind the last completion, and in a fair run it
is called. -/
theorem fs_event (lower : WChar → WChar) :
    (∀ h, ((system lower).restrict Orderly).Reachable h →
      (h.kernel.length + h.posted ≤ 1 ∧ (h.reqPending = true ↔ h.kernel ≠ [] ∨ 0 < h.posted)) ∧
      ((h.kernel ≠ [] → h.buffer ≠ none) ∧ ∀ i, h.pc = .walk i → h.kernel = [] ∧ h.buffer ≠ none) ∧
      (∀ c ∈ h.calls, c.current = some c.reported) ∧ (∀ r ∈ h.rearms, r.1 = r.2) ∧
      (h.closeCbs ≤ 1 ∧ (0 < h.closeCbs → h.kernel = [] ∧ h.posted = 0)) ∧
      ∀ l, enabled h l → Orderly h l → ∃ t, step lower h l = some t) ∧
    ∀ ρ : ((system lower).restrict Orderly).InfRun, ρ.Fair Label.thread Active →
      ∀ n, (ρ.state n).closing = true → ∃ m, n ≤ m ∧ (ρ.state m).closeCbs = 1 := by
  refine ⟨fun h hr => ?_, fun ρ hf n hc => ?_⟩
  · have hi := (inv_inductive lower).reachable hr
    have hcount := hi.count
    refine ⟨⟨?_, ?_⟩, ⟨hi.held, fun i hp => ?_⟩, hi.calls, hi.rearms, ⟨?_, fun h0 => ?_⟩, fun l he ho => ?_⟩
    · exact hcount ▸ Bool.toNat_le h.reqPending
    · cases hreq : h.reqPending with
      | true =>
        rw [hreq, Bool.toNat_true] at hcount
        refine ⟨fun _ => ?_, fun _ => rfl⟩
        by_cases hk : h.kernel = []
        · rw [hk, length_nil] at hcount
          exact .inr (by omega)
        · exact .inl hk
      | false =>
        obtain ⟨hk, h0⟩ := hi.idle hreq
        simp [hk, h0]
    · obtain ⟨b, hb, -⟩ := hi.walking i hp
      exact ⟨(hi.idle (hi.running (by simp [hp]))).1, by simp [hb]⟩
    · rw [hi.closeCbs]
      split <;> decide
    · have hcd : h.closed = true := by
        by_contra hc
        rw [hi.closeCbs, if_neg hc] at h0
        cases h0
      exact hi.idle (hi.closed hcd).2.1
    · obtain ⟨t, ht, -⟩ := step_spec lower hi he ho
      exact ⟨t, ht⟩
  · obtain ⟨m, hm, hcd⟩ := closes ρ hf hc
    exact ⟨m, hm, by rw [((inv_inductive lower).reachable (ρ.reachable m)).closeCbs, if_pos hcd]⟩

/-! ## Runs -/

theorem run_step {l : Label} (he : enabled h l) (hs : step lower h l = some t) : (system lower).step h l t := ⟨he, hs⟩

theorem init_reachable : (system id).Reachable fsEventInit := .init rfl

/-- **A start does not wait for the request of the last one**: the kernel has both, with one buffer. -/
theorem two_outstanding : ¬ ∀ h, (system id).Reachable h → h.kernel.length ≤ 1 := by
  intro hall
  have h1 := init_reachable.step (run_step (l := .start 0 (.directory [])) ⟨trivial, rfl⟩ rfl)
  have h2 := h1.step (run_step (l := .stop) trivial rfl)
  have h3 := h2.step (run_step (l := .start 0 (.directory [])) ⟨trivial, rfl⟩ rfl)
  exact absurd (hall _ h3) (by decide)

/-- A handle that is stopped and started in its callback finds a request pending when it submits the next. -/
theorem restart_in_callback : ∃ h, (system id).Reachable h ∧ enabled h (.finish none) ∧ step id h (.finish none) = none := by
  have h1 := init_reachable.step (run_step (l := .start 0 (.directory [])) ⟨trivial, rfl⟩ rfl)
  have h2 := h1.step (run_step (l := .complete 0 (.records [⟨FILE_ACTION_ADDED, [97]⟩])) Nat.one_pos rfl)
  have h3 := h2.step (run_step (l := .process) ⟨rfl, Nat.one_pos⟩ rfl)
  have h4 := h3.step (run_step (l := .stop) trivial rfl)
  have h5 := h4.step (run_step (l := .start 0 (.directory [])) ⟨trivial, rfl⟩ rfl)
  have h6 := h5.step (run_step (l := .ret) (.inr ⟨0, rfl⟩) rfl)
  exact ⟨_, h6, rfl, rfl⟩

theorem rearm_recursive : ∃ h, (system id).Reachable h ∧ h.rearms = [(true, false)] := by
  have h1 := init_reachable.step (run_step (l := .start 0 (.directory [])) ⟨trivial, rfl⟩ rfl)
  have h2 := h1.step (run_step (l := .complete 0 .overflow) Nat.one_pos rfl)
  have h3 := h2.step (run_step (l := .process) ⟨rfl, Nat.one_pos⟩ rfl)
  have h4 := h3.step (run_step (l := .ret) (.inl rfl) rfl)
  have h5 := h4.step (run_step (l := .finish none) rfl rfl)
  exact ⟨_, h5, rfl⟩

/-- A change is reported, the request is submitted again, and the handle closed. -/
def watchLabels : ℕ → Label
  | 0 => .start UV_FS_EVENT_RECURSIVE (.directory [])
  | 1 => .complete 0 (.records [⟨FILE_ACTION_ADDED, [97]⟩])
  | 2 => .process
  | 3 => .ret
  | 4 => .finish none
  | 5 => .close
  | 6 => .complete 0 (.error 995)
  | 7 => .process
  | 8 => .endgame
  | _ + 9 => .other

def watchRun : ((system id).restrict Orderly).InfRun where
  state := LTS.follow (step id) fsEventInit watchLabels
  label := watchLabels
  init := rfl
  step n := by
    rcases Nat.lt_or_ge n 9 with hn | hn
    · interval_cases n
      · exact ⟨.inr (.inl ⟨rfl, rfl⟩), ⟨trivial, rfl⟩, rfl⟩
      · exact ⟨trivial, Nat.one_pos, rfl⟩
      · exact ⟨trivial, ⟨rfl, Nat.one_pos⟩, rfl⟩
      · exact ⟨trivial, .inr ⟨0, rfl⟩, rfl⟩
      · exact ⟨fun _ _ => rfl, rfl, rfl⟩
      · exact ⟨trivial, ⟨trivial, rfl⟩, rfl⟩
      · exact ⟨trivial, Nat.one_pos, rfl⟩
      · exact ⟨trivial, ⟨rfl, Nat.one_pos⟩, rfl⟩
      · exact ⟨trivial, ⟨rfl, rfl⟩, rfl⟩
    · obtain ⟨k, rfl⟩ := Nat.exists_eq_add_of_le' hn
      exact ⟨trivial, trivial, rfl⟩

theorem watchRun_late {n : ℕ} (hn : 9 ≤ n) : (watchRun.state n).kernel = [] ∧ (watchRun.state n).posted = 0 ∧
    (watchRun.state n).pc = .idle ∧ (watchRun.state n).endgameQueued = false := by
  induction n, hn using Nat.le_induction with
  | base => exact ⟨rfl, rfl, rfl, rfl⟩
  | succ n hn ih =>
    obtain ⟨k, rfl⟩ := Nat.exists_eq_add_of_le' hn
    exact ih

theorem watchRun_fair : watchRun.Fair Label.thread Active := by
  intro p n ha
  rcases Nat.lt_or_ge n 9 with hn | hn
  · cases p with
    | loop => exact ⟨8, by omega, rfl⟩
    | kernel =>
      rcases Nat.lt_or_ge n 7 with hn | hn
      · exact ⟨6, by omega, rfl⟩
      · interval_cases n <;> exact absurd rfl ha
    | elsewhere => exact ha.elim
  · obtain ⟨h1, h2, h3, h4⟩ := watchRun_late hn
    cases p with
    | loop => simp [Active, h2, h3, h4] at ha
    | kernel => exact absurd h1 ha
    | elsewhere => exact ha.elim

theorem fs_event_watch : (watchRun.state 3).calls = [⟨.rename, 1, some 1⟩] ∧
    (watchRun.state 6).kernel.length + (watchRun.state 6).posted ≤ 1 ∧
    ∃ m, 6 ≤ m ∧ (watchRun.state m).closeCbs = 1 := by
  obtain ⟨hsafe, hlive⟩ := fs_event id
  exact ⟨rfl, (hsafe _ (watchRun.reachable 6)).1.1, hlive watchRun watchRun_fair 6 rfl⟩

end Libuv.L5.FsEvent
