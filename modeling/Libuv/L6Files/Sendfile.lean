import Mathlib.Tactic
import Libuv.Core.FlatFile
import Libuv.Core.Loop

/-!
# Sending a file by hand (`unix/fs.c`)

`uv__fs_sendfile_emul` copies through a buffer of 8192 bytes: it reads with `pread`, or with `read` from a source that has no
positions, and writes what it has read before it reads on. The state is that between two system calls; `log` are the calls of
a run with their results.

The source is a file with the contents `file`, of which `pread` reads, and `stream`, what `read` reads: both may give less than
they were asked for. `write` may take less than it is offered, and every call may fail.

* `sendfileEmul_run`: what the function returns says what was sent, on every path. `sendfileEmul_iff`: these are the first bytes
  of the source, unless the first `pread` of a file fails and `read`, which reads elsewhere, takes its place.
* `fsSendfile_spec`, `fsSendfile_within`: `uv__fs_sendfile`, which asks the kernel first, advances the offset by what it returns,
  and that is no more than it was asked for.
-/
namespace Libuv.L6.Sendfile

open List

variable {α : Type*}

inductive Errno
  | eintr
  | eagain
  | ewouldblock
  | eio
  | espipe
  | einval
  | enotsock
  | exdev
  | enosys
  | eacces
  | eperm
  | enotsup
  | enoent
  | eexist
  | other (no : ℕ)
deriving DecidableEq

def POLLOUT : UInt16 := 4

/-- The `i`-th call of a run is answered by the function of its name; `pos` is where the descriptor is. -/
structure Kernel (file stream : List α) where
  pread : ℕ → ℕ → ℤ → Except Errno (List α)
  read : ℕ → ℕ → ℕ → Except Errno (List α)
  write : ℕ → List α → Except Errno ℕ
  poll : ℕ → Except Errno UInt16
  pread_file : ∀ i n off d, pread i n off = .ok d → 0 ≤ off ∧ d <+: FlatFile.read file off.toNat n
  read_stream : ∀ i n pos d, read i n pos = .ok d → d <+: FlatFile.read stream pos n
  write_le : ∀ i d n, write i d = .ok n → n ≤ d.length

inductive Event (α : Type*)
  | pread (r : Except Errno (List α))
  | read (r : Except Errno (List α))
  | write (d : List α) (r : Except Errno ℕ)
  | poll (r : Except Errno UInt16)

def Event.sent : Event α → List α
  | .write d (.ok n) => d.take n
  | _ => []

def Event.isPread : Event α → Bool
  | .pread _ => true
  | _ => false

def Event.isRead : Event α → Bool
  | .read _ => true
  | _ => false

def Event.FailedRead (e : Event α) (err : Errno) : Prop := e = .pread (.error err) ∨ e = .read (.error err)

def sent (log : List (Event α)) : List α := log.flatMap Event.sent

inductive Phase (α : Type*)
  | read
  | write (buf : List α) (nwritten : ℕ)
  | poll (buf : List α) (nwritten : ℕ)

structure State (α : Type*) where
  nsent : ℕ
  offset : ℤ
  usePread : Bool
  pos : ℕ
  phase : Phase α
  log : List (Event α)

abbrev Result := Except Errno ℕ

/-- What follows a read.
mirrors unix/fs.c:850-863 -/
def afterRead (s : State α) : Except Errno (List α) → State α × Option Result
  | .ok [] => (s, some (.ok s.nsent))
  | .ok (a :: d) =>
    ({ s with phase := .write (a :: d) 0, pos := if s.usePread then s.pos else s.pos + (a :: d).length }, none)
  | .error e =>
    if e = .eintr then (s, none)
    else if s.usePread = true ∧ s.nsent = 0 ∧ (e = .eio ∨ e = .espipe) then ({ s with usePread := false }, none)
    else (s, some (if s.nsent = 0 then .error e else .ok s.nsent))

/-- What follows a write.
mirrors unix/fs.c:866-883 -/
def afterWrite (s : State α) (buf : List α) (nwritten : ℕ) : Except Errno ℕ → State α × Option Result
  | .ok n => ({ s with phase := .write buf (nwritten + n) }, none)
  | .error e =>
    if e = .eintr then (s, none)
    else if e ≠ .eagain ∧ e ≠ .ewouldblock then (s, some (.error e))
    else ({ s with phase := .poll buf nwritten }, none)

/-- What follows `poll`.
mirrors unix/fs.c:885-893 -/
def afterPoll (s : State α) (buf : List α) (nwritten : ℕ) : Except Errno UInt16 → State α × Option Result
  | .ok revents =>
    if revents &&& ~~~POLLOUT ≠ 0 then (s, some (.error .eio)) else ({ s with phase := .write buf nwritten }, none)
  | .error e => if e = .eintr then (s, none) else (s, some (.error .eio))

/-- The next call, or the end.
mirrors unix/fs.c:837-898 -/
def step {file stream : List α} (k : Kernel file stream) (len : ℕ) (s : State α) : State α × Option Result :=
  match s.phase with
  | .read =>
    if s.nsent < len then
      let buflen := min (len - s.nsent) 8192
      if s.usePread then
        let r := k.pread s.log.length buflen s.offset
        afterRead { s with log := s.log ++ [.pread r] } r
      else
        let r := k.read s.log.length buflen s.pos
        afterRead { s with log := s.log ++ [.read r] } r
    else (s, some (.ok s.nsent))
  | .write buf nwritten =>
    if nwritten < buf.length then
      let r := k.write s.log.length (buf.drop nwritten)
      afterWrite { s with log := s.log ++ [.write (buf.drop nwritten) r] } buf nwritten r
    else ({ s with phase := .read, offset := s.offset + buf.length, nsent := s.nsent + buf.length }, none)
  | .poll buf nwritten =>
    let r := k.poll s.log.length
    afterPoll { s with log := s.log ++ [.poll r] } buf nwritten r

/-- mirrors unix/fs.c:795-906 -/
def sendfileEmul {file stream : List α} (k : Kernel file stream) (len : ℕ) : ℕ → State α → State α × Option Result
  | 0, s => (s, none)
  | fuel + 1, s =>
    match (step k len s).2 with
    | some r => ((step k len s).1, some r)
    | none => sendfileEmul k len fuel (step k len s).1

def start (off : ℤ) (pos : ℕ) : State α := ⟨0, off, true, pos, .read, []⟩

/-- `req->off` behind the function, which returns `r`. -/
def reqOff (off : ℤ) (s : State α) : Result → ℤ
  | .ok _ => s.offset
  | .error _ => off

/-! ## Between two calls -/

/-- What is in the buffer, and how much of it is written. -/
def Phase.buf : Phase α → List α
  | .read => []
  | .write buf _ => buf
  | .poll buf _ => buf

def Phase.nwritten : Phase α → ℕ
  | .read => 0
  | .write _ n => n
  | .poll _ n => n

/-- `pread` first and then `read`; where it changes, every call so far was a read that failed. -/
def Falls (log : List (Event α)) : Prop :=
  ∃ l₁ l₂, log = l₁ ++ l₂ ∧ (∀ e ∈ l₁, e.isRead = false) ∧ (∀ e ∈ l₂, e.isPread = false) ∧
    (l₂ ≠ [] → ∀ e ∈ l₁, ∃ err, e.FailedRead err)

/-- The calls so far, of which the reads gave `n` bytes. -/
structure History (log : List (Event α)) (usePread : Bool) (n : ℕ) : Prop where
  preads : usePread = true → ∀ e ∈ log, e.isRead = false
  falls : usePread = false → ∃ l₁ l₂, log = l₁ ++ l₂ ∧ (∀ e ∈ l₁, e.isRead = false) ∧ (∀ e ∈ l₂, e.isPread = false) ∧
    ∀ e ∈ l₁, ∃ err, e.FailedRead err
  reads : usePread = false → 0 < n → ∃ e ∈ log, e.isRead = true
  failed : n = 0 → ∀ e ∈ log, ∃ err, e.FailedRead err

theorem History.snoc {log : List (Event α)} {usePread : Bool} {n : ℕ} (h : History log usePread n) {e : Event α} {n' : ℕ}
    (hpread : e.isPread = true → usePread = true) (hread : e.isRead = true → usePread = false) (hn : n ≤ n')
    (hfailed : n' = 0 → ∃ err, e.FailedRead err) (hmore : usePread = false → n < n' → e.isRead = true) :
    History (log ++ [e]) usePread n' where
  preads hu e' he' := by
    rcases mem_append.1 he' with he' | he'
    · exact h.preads hu e' he'
    · rw [mem_singleton.1 he', ← Bool.not_eq_true]
      intro hr
      rw [hread hr] at hu
      cases hu
  falls hu := by
    obtain ⟨l₁, l₂, hlog, h₁, h₂, hfail⟩ := h.falls hu
    refine ⟨l₁, l₂ ++ [e], by rw [hlog, append_assoc], h₁, fun e' he' => ?_, hfail⟩
    rcases mem_append.1 he' with he' | he'
    · exact h₂ e' he'
    · rw [mem_singleton.1 he', ← Bool.not_eq_true]
      intro hp
      rw [hpread hp] at hu
      cases hu
  reads hu hpos := by
    by_cases hlt : n < n'
    · exact ⟨e, mem_append_right _ mem_cons_self, hmore hu hlt⟩
    · obtain ⟨e', he', hr⟩ := h.reads hu (by omega)
      exact ⟨e', mem_append_left _ he', hr⟩
  failed h0 e' he' := by
    rcases mem_append.1 he' with he' | he'
    · exact h.failed (by omega) e' he'
    · rw [mem_singleton.1 he']
      exact hfailed h0

theorem History.nil : History ([] : List (Event α)) true 0 where
  preads _ e he := absurd he not_mem_nil
  falls hu := by cases hu
  reads hu := by cases hu
  failed _ e he := absurd he not_mem_nil

theorem History.switch {log : List (Event α)} (h : History log true 0) : History log false 0 where
  preads hu := by cases hu
  falls _ := ⟨log, [], (append_nil log).symm, h.preads rfl, fun e he => absurd he not_mem_nil, h.failed rfl⟩
  reads _ h := absurd h (lt_irrefl 0)
  failed := h.failed

theorem History.to_falls {log : List (Event α)} {usePread : Bool} {n : ℕ} (h : History log usePread n) : Falls log := by
  cases usePread with
  | true =>
    exact ⟨log, [], (append_nil log).symm, h.preads rfl, fun e he => absurd he not_mem_nil, fun h => absurd rfl h⟩
  | false =>
    obtain ⟨l₁, l₂, hlog, h₁, h₂, hfail⟩ := h.falls rfl
    exact ⟨l₁, l₂, hlog, h₁, h₂, fun _ => hfail⟩

section Invariant

variable (file stream : List α) (off : ℤ) (pos len : ℕ)

/-- What is sent: the file from the offset on, or what is left of the stream. -/
def source (usePread : Bool) : List α := if usePread then file.drop off.toNat else stream.drop pos

/-- What is written is the source up to `nsent`, and the part of the buffer before `nwritten`. -/
structure Inv (s : State α) : Prop where
  offset : s.offset = off + s.nsent
  le : s.nsent + s.phase.buf.length ≤ len
  inside : s.nsent ≤ (source file stream off pos s.usePread).length
  buf : s.phase.buf <+: (source file stream off pos s.usePread).drop s.nsent
  nwritten : s.phase.nwritten ≤ s.phase.buf.length
  written : sent s.log = (source file stream off pos s.usePread).take (s.nsent + s.phase.nwritten)
  nonneg : s.usePread = true → 0 < s.nsent + s.phase.buf.length → 0 ≤ off
  position : s.pos = if s.usePread then pos else pos + (s.nsent + s.phase.buf.length)
  history : History s.log s.usePread (s.nsent + s.phase.buf.length)
  busy : s.phase.buf = [] → s.phase = .read

theorem inv_start : Inv file stream off pos len (start off pos : State α) where
  offset := (Int.add_zero off).symm
  le := Nat.zero_le len
  inside := Nat.zero_le _
  buf := nil_prefix
  nwritten := le_rfl
  written := rfl
  nonneg _ h := absurd h (lt_irrefl 0)
  position := rfl
  history := History.nil
  busy _ := rfl

end Invariant

/-- How the function may return; `off'` is `req->off` then. -/
structure Sent (file stream : List α) (off : ℤ) (pos len : ℕ) (log : List (Event α)) (n : ℕ) (off' : ℤ) : Prop where
  le : n ≤ len
  advanced : off' = off + n
  length : (sent log).length = n
  bytes : sent log = if log.any Event.isRead then FlatFile.read stream pos n else FlatFile.read file off.toNat n
  nonneg : log.any Event.isRead = false → 0 < n → 0 ≤ off

/-- The results of `poll` that the function takes for an error. -/
def PollFailed : Except Errno UInt16 → Prop
  | .ok revents => revents &&& ~~~POLLOUT ≠ 0
  | .error e => e ≠ .eintr

/-- The errors: of a read, with nothing sent and no read before it that succeeded; of a write; of `poll`. -/
inductive Failed (log : List (Event α)) (err : Errno) : Prop
  | read (hsent : sent log = []) (hall : ∀ e ∈ log, ∃ err, e.FailedRead err) (e : Event α) (hlast : log.getLast? = some e)
      (he : e.FailedRead err)
  | write (d : List α) (hlast : log.getLast? = some (.write d (.error err)))
      (herr : err ≠ .eintr ∧ err ≠ .eagain ∧ err ≠ .ewouldblock)
  | poll (r : Except Errno UInt16) (hlast : log.getLast? = some (.poll r)) (hr : PollFailed r) (herr : err = .eio)

def Returns (file stream : List α) (off : ℤ) (pos len : ℕ) (s : State α) : Result → Prop
  | .ok n => Sent file stream off pos len s.log n s.offset
  | .error e => Failed s.log e

section Step

variable {file stream : List α} {k : Kernel file stream} {off : ℤ} {pos len : ℕ} {s : State α}

theorem sent_append (log : List (Event α)) (e : Event α) : sent (log ++ [e]) = sent log ++ e.sent := by
  rw [sent, flatMap_append, flatMap_singleton]
  rfl

theorem Inv.returns (h : Inv file stream off pos len s) (hphase : s.phase = .read) {log : List (Event α)}
    (hsent : sent log = sent s.log) (hreads : ∀ e ∈ s.log, e ∈ log)
    (hpreads : s.usePread = true → ∀ e ∈ log, e.isRead = false) :
    Sent file stream off pos len log s.nsent s.offset := by
  have hle := h.le
  have hwritten := h.written
  have hnonneg := h.nonneg
  have hhist := h.history
  rw [hphase] at hle hwritten hnonneg hhist
  rw [Phase.nwritten, Nat.add_zero] at hwritten
  refine ⟨hle, h.offset, ?_, ?_, fun hnone hpos => ?_⟩
  · rw [hsent, hwritten, length_take_of_le h.inside]
  · rw [hsent, hwritten]
    cases hu : s.usePread with
    | true =>
      have hnone : log.any Event.isRead = false := by
        rw [any_eq_false]
        intro e he
        rw [hpreads hu e he]
        exact Bool.false_ne_true
      rw [hnone]
      rfl
    | false =>
      by_cases h0 : s.nsent = 0
      · rw [h0, FlatFile.read_zero, FlatFile.read_zero, take_zero, ite_self]
      · obtain ⟨e, he, hr⟩ := hhist.reads hu (by omega)
        rw [if_pos (any_eq_true.2 ⟨e, hreads e he, hr⟩)]
        rfl
  · cases hu : s.usePread with
    | true => exact hnonneg hu hpos
    | false =>
      obtain ⟨e, he, hr⟩ := hhist.reads hu hpos
      rw [any_eq_true.2 ⟨e, hreads e he, hr⟩] at hnone
      cases hnone

def Goes (file stream : List α) (off : ℤ) (pos len : ℕ) : State α × Option Result → Prop
  | (s, none) => Inv file stream off pos len s
  | (s, some r) => Returns file stream off pos len s r ∧ Falls s.log

/-- The event of a read in the mode of `s`. -/
def IsReadOf (s : State α) (r : Except Errno (List α)) (e : Event α) : Prop :=
  s.usePread = true ∧ e = .pread r ∨ s.usePread = false ∧ e = .read r

variable {r : Except Errno (List α)} {e : Event α}

theorem IsReadOf.isPread (h : IsReadOf s r e) : e.isPread = s.usePread := by
  rcases h with ⟨hu, rfl⟩ | ⟨hu, rfl⟩
  · rw [hu]
    rfl
  · rw [hu]
    rfl

theorem IsReadOf.isRead (h : IsReadOf s r e) : e.isRead = !s.usePread := by
  rcases h with ⟨hu, rfl⟩ | ⟨hu, rfl⟩
  · rw [hu]
    rfl
  · rw [hu]
    rfl

theorem IsReadOf.sent (h : IsReadOf s r e) : e.sent = [] := by
  rcases h with ⟨-, rfl⟩ | ⟨-, rfl⟩
  · rfl
  · rfl

theorem IsReadOf.failed {err : Errno} (h : IsReadOf s (.error err) e) : e.FailedRead err :=
  h.imp (fun h => h.2) fun h => h.2

theorem IsReadOf.history (h : Inv file stream off pos len s) (he : IsReadOf s r e)
    {n : ℕ} (hn : s.nsent + s.phase.buf.length ≤ n) (hfailed : n = 0 → ∃ err, e.FailedRead err) :
    History (s.log ++ [e]) s.usePread n := by
  refine h.history.snoc (fun hp => ?_) (fun hr => ?_) hn hfailed fun hu _ => ?_
  · rwa [he.isPread] at hp
  · rwa [he.isRead, Bool.not_eq_true'] at hr
  · rw [he.isRead, hu]
    rfl

theorem afterRead_ends (h : Inv file stream off pos len s) (hphase : s.phase = .read)
    (he : IsReadOf s r e) :
    Goes file stream off pos len ({ s with log := s.log ++ [e] }, some (.ok s.nsent)) := by
  have hhist := IsReadOf.history h he (Nat.le_succ _) fun h => absurd h (Nat.succ_ne_zero _)
  refine ⟨h.returns hphase ?_ (fun e' he' => mem_append_left _ he') hhist.preads, hhist.to_falls⟩
  rw [sent_append, he.sent, append_nil]

theorem afterRead_spec (h : Inv file stream off pos len s) (hphase : s.phase = .read)
    (he : IsReadOf s r e)
    (hr : ∀ d, r = .ok d → d <+: (source file stream off pos s.usePread).drop s.nsent ∧ s.nsent + d.length ≤ len ∧
      (s.usePread = true → 0 ≤ off)) :
    Goes file stream off pos len (afterRead { s with log := s.log ++ [e] } r) := by
  have hwritten := h.written
  have hposition := h.position
  have hhist := h.history
  rw [hphase] at hwritten hposition hhist
  rw [Phase.nwritten] at hwritten
  rw [Phase.buf, length_nil] at hposition hhist
  cases r with
  | ok d =>
    cases d with
    | nil => exact afterRead_ends h hphase he
    | cons a d =>
      obtain ⟨hd, hle, hoff⟩ := hr _ rfl
      have hbusy : a :: d ≠ [] := cons_ne_nil a d
      refine ⟨h.offset, hle, h.inside, hd, Nat.zero_le _, ?_, fun hu _ => hoff hu, ?_, ?_, fun hnil => absurd hnil hbusy⟩
      · rw [sent_append, he.sent, append_nil]
        exact hwritten
      · cases hu : s.usePread with
        | true =>
          simpa [hu] using hposition
        | false =>
          rw [hu] at hposition
          simp only [Bool.false_eq_true, if_false, hposition, Phase.buf]
          omega
      · exact IsReadOf.history h he (by rw [hphase]; exact Nat.add_le_add_left (Nat.zero_le _) _) fun h0 => by
          simp [Phase.buf] at h0
  | error err =>
    have hlog : Inv file stream off pos len { s with log := s.log ++ [e] } :=
      { h with
        written := by rw [sent_append, he.sent, append_nil, h.written]
        history := IsReadOf.history h he le_rfl fun _ => ⟨err, he.failed⟩ }
    rw [afterRead]
    by_cases hintr : err = .eintr
    · rw [if_pos hintr]
      exact hlog
    rw [if_neg hintr]
    split
    · next hswitch =>
      -- nothing was read: the invariant says nothing about either source
      obtain ⟨hu, h0, -⟩ := hswitch
      have hhist' := hlog.history
      have hle := hlog.le
      rw [hu, hphase, h0] at hhist'
      rw [hu] at hposition
      refine ⟨h.offset, hle, ?_, ?_, hlog.nwritten, ?_, fun hu' => absurd hu' Bool.false_ne_true, ?_, ?_, fun _ => hphase⟩
      · rw [h0]
        exact Nat.zero_le _
      · rw [hphase]
        exact nil_prefix
      · rw [sent_append, he.sent, hwritten, h0, hphase]
        rfl
      · rw [h0, hphase, hposition]
        rfl
      · rw [h0, hphase]
        exact hhist'.switch
    · by_cases h0 : s.nsent = 0
      · have hall := hlog.history.failed (by rw [hphase]; exact h0)
        refine ⟨?_, hlog.history.to_falls⟩
        rw [if_pos h0]
        refine .read ?_ hall e getLast?_concat he.failed
        rw [sent_append, he.sent, append_nil, hwritten, h0, take_zero]
      · rw [if_neg h0]
        exact afterRead_ends h hphase he

theorem take_drop_prefix {l m : List α} (h : m <+: l) {i n : ℕ} (hle : i + n ≤ m.length) :
    (m.drop i).take n = (l.drop i).take n := by
  obtain ⟨t, rfl⟩ := h
  rw [drop_append_of_le_length (by omega), take_append_of_le_length (by rw [length_drop]; omega)]

theorem Inv.move (h : Inv file stream off pos len s) {phase : Phase α} {log : List (Event α)} (hbuf : phase.buf = s.phase.buf)
    (hn : phase.nwritten ≤ s.phase.buf.length) (hbusy : phase.buf ≠ [])
    (hwritten : sent log = (source file stream off pos s.usePread).take (s.nsent + phase.nwritten))
    (hhist : History log s.usePread (s.nsent + s.phase.buf.length)) :
    Inv file stream off pos len { s with phase := phase, log := log } := by
  rw [← hbuf] at hn hhist
  refine ⟨h.offset, ?_, h.inside, ?_, hn, hwritten, ?_, ?_, hhist, fun hnil => absurd hnil hbusy⟩
  · rw [hbuf]
    exact h.le
  · rw [hbuf]
    exact h.buf
  · rw [hbuf]
    exact h.nonneg
  · rw [hbuf]
    exact h.position

theorem Inv.busy_ne (h : Inv file stream off pos len s) (hphase : s.phase ≠ .read) : s.phase.buf ≠ [] :=
  fun hnil => hphase (h.busy hnil)

theorem Inv.history_snoc (h : Inv file stream off pos len s) (hphase : s.phase ≠ .read)
    (hpread : e.isPread = false) (hread : e.isRead = false) : History (s.log ++ [e]) s.usePread (s.nsent + s.phase.buf.length) := by
  have hpos := length_pos_of_ne_nil (h.busy_ne hphase)
  refine h.history.snoc (fun hp => ?_) (fun hr => ?_) le_rfl (fun h0 => ?_) fun _ hlt => absurd hlt (lt_irrefl _)
  · rw [hpread] at hp
    cases hp
  · rw [hread] at hr
    cases hr
  · omega

theorem afterWrite_spec (h : Inv file stream off pos len s) {buf : List α} {nwritten : ℕ}
    (hphase : s.phase = .write buf nwritten) {r : Except Errno ℕ} (hr : ∀ n, r = .ok n → n ≤ (buf.drop nwritten).length) :
    Goes file stream off pos len (afterWrite { s with log := s.log ++ [.write (buf.drop nwritten) r] } buf nwritten r) := by
  have hne : s.phase ≠ .read := by
    rw [hphase]
    exact fun h => by cases h
  have hbuf : s.phase.buf = buf := by rw [hphase]; rfl
  have hn : s.phase.nwritten = nwritten := by rw [hphase]; rfl
  have hle := h.nwritten
  have hprefix := h.buf
  have hwritten := h.written
  have hbusy := h.busy_ne hne
  have hhist := h.history_snoc hne (e := .write (buf.drop nwritten) r) rfl rfl
  rw [hbuf] at hle hprefix hbusy
  rw [hn] at hle hwritten
  cases r with
  | ok n =>
    have hlen := hr n rfl
    rw [length_drop] at hlen
    refine h.move hbuf.symm ?_ hbusy ?_ hhist
    · rw [hbuf]
      exact (by omega : nwritten + n ≤ buf.length)
    · rw [sent_append, hwritten, Event.sent, take_drop_prefix hprefix (by omega), drop_drop, ← take_add, Nat.add_assoc]
      rfl
  | error err =>
    have hsent : sent (s.log ++ [.write (buf.drop nwritten) (.error err)]) =
        (source file stream off pos s.usePread).take (s.nsent + nwritten) := by
      rw [sent_append, ← hwritten]
      exact append_nil _
    rw [afterWrite]
    by_cases hintr : err = .eintr
    · rw [if_pos hintr]
      have hlog := h.move rfl h.nwritten (h.busy_ne hne) (hn.symm ▸ hsent) hhist
      exact hlog
    rw [if_neg hintr]
    by_cases hagain : err ≠ .eagain ∧ err ≠ .ewouldblock
    · rw [if_pos hagain]
      exact ⟨.write (buf.drop nwritten) getLast?_concat ⟨hintr, hagain⟩, hhist.to_falls⟩
    · rw [if_neg hagain]
      refine h.move hbuf.symm ?_ hbusy hsent hhist
      rw [hbuf]
      exact hle

theorem afterPoll_spec (h : Inv file stream off pos len s) {buf : List α} {nwritten : ℕ} (hphase : s.phase = .poll buf nwritten)
    (r : Except Errno UInt16) :
    Goes file stream off pos len (afterPoll { s with log := s.log ++ [.poll r] } buf nwritten r) := by
  have hne : s.phase ≠ .read := by
    rw [hphase]
    exact fun h => by cases h
  have hbuf : s.phase.buf = buf := by rw [hphase]; rfl
  have hn : s.phase.nwritten = nwritten := by rw [hphase]; rfl
  have hhist := h.history_snoc hne (e := .poll r) rfl rfl
  have hsent : sent (s.log ++ [.poll r]) = (source file stream off pos s.usePread).take (s.nsent + s.phase.nwritten) := by
    rw [sent_append, ← h.written]
    exact append_nil _
  cases r with
  | ok revents =>
    rw [afterPoll]
    split
    · next hbits => exact ⟨.poll _ getLast?_concat hbits rfl, hhist.to_falls⟩
    · rw [hn] at hsent
      refine h.move hbuf.symm ?_ (hbuf ▸ h.busy_ne hne) hsent hhist
      rw [← hn]
      exact h.nwritten
  | error err =>
    rw [afterPoll]
    by_cases hintr : err = .eintr
    · rw [if_pos hintr]
      have hlog := h.move rfl h.nwritten (h.busy_ne hne) hsent hhist
      exact hlog
    · rw [if_neg hintr]
      exact ⟨.poll _ getLast?_concat hintr rfl, hhist.to_falls⟩

/-- **Between two calls the invariant holds, and every way out says what was sent.** -/
theorem step_spec (h : Inv file stream off pos len s) : Goes file stream off pos len (step k len s) := by
  unfold step
  split
  · next hphase =>
    have hbuf : s.phase.buf = [] := by rw [hphase]; rfl
    split
    · next hlt =>
      split
      · next hu =>
        refine afterRead_spec h hphase (.inl ⟨hu, rfl⟩) fun d hd => ?_
        obtain ⟨hoff, hprefix⟩ := k.pread_file _ _ _ _ hd
        have hlen := hprefix.length_le.trans (FlatFile.length_read_le _ _ _)
        have hoff0 : 0 ≤ off := by
          by_cases h0 : s.nsent = 0
          · rw [h.offset] at hoff
            omega
          · exact h.nonneg hu (by omega)
        refine ⟨?_, by omega, fun _ => hoff0⟩
        have htoNat : s.offset.toNat = off.toNat + s.nsent := by
          rw [h.offset]
          omega
        rw [source, if_pos hu, drop_drop, ← htoNat]
        exact hprefix.trans (List.take_prefix _ _)
      · next hu =>
        refine afterRead_spec h hphase (.inr ⟨Bool.not_eq_true _ ▸ hu, rfl⟩) fun d hd => ?_
        have hprefix := k.read_stream _ _ _ _ hd
        have hlen := hprefix.length_le.trans (FlatFile.length_read_le _ _ _)
        refine ⟨?_, by omega, fun hu' => absurd hu' hu⟩
        have hpos := h.position
        rw [if_neg hu, hbuf, length_nil, Nat.add_zero] at hpos
        rw [source, if_neg hu, drop_drop, ← hpos]
        exact hprefix.trans (List.take_prefix _ _)
    · exact ⟨h.returns hphase rfl (fun _ he => he) h.history.preads, h.history.to_falls⟩
  · next buf nwritten hphase =>
    split
    · next hlt => exact afterWrite_spec h hphase fun n hn => k.write_le _ _ _ hn
    · -- the buffer is written
      have hbuf : s.phase.buf = buf := by rw [hphase]; rfl
      have hn : s.phase.nwritten = nwritten := by rw [hphase]; rfl
      have hle := h.nwritten
      have hwritten := h.written
      have hlen := h.buf.length_le
      have hinside := h.inside
      rw [hbuf] at hle
      rw [hn] at hwritten
      rw [hbuf, length_drop] at hlen
      have hall : nwritten = buf.length := by omega
      have hinside' : s.nsent + buf.length ≤ (source file stream off pos s.usePread).length := by omega
      refine ⟨?_, ?_, hinside', nil_prefix, le_rfl, hall ▸ hwritten, ?_, ?_, ?_, fun _ => rfl⟩
      · rw [h.offset]
        exact Int.add_assoc _ _ _
      · exact hbuf ▸ h.le
      · exact hbuf ▸ h.nonneg
      · exact hbuf ▸ h.position
      · exact hbuf ▸ h.history
  · next buf nwritten hphase => exact afterPoll_spec h hphase _

end Step

/-! ## The whole function -/

variable {file stream : List α} {off : ℤ} {len : ℕ}

theorem sendfileEmul_eq (k : Kernel file stream) (len : ℕ) :
    sendfileEmul k len = Loop.run (step k len) := by
  funext fuel s
  induction fuel generalizing s with
  | zero => rfl
  | succ fuel ih =>
    unfold sendfileEmul Loop.run
    cases (step k len s).2 with
    | some r => rfl
    | none => exact ih _

theorem sendfileEmul_run {k : Kernel file stream} {pos fuel : ℕ} {s s' : State α}
    {r : Result} (h : Inv file stream off pos len s) (hrun : sendfileEmul k len fuel s = (s', some r)) :
    Returns file stream off pos len s' r ∧ Falls s'.log := by
  have hround (s : State α) (hs : Inv file stream off pos len s) : Loop.Round (step k len) (Inv file stream off pos len)
      (fun _ s' r => Returns file stream off pos len s' r ∧ Falls s'.log) s := by
    have hgoes := step_spec (k := k) hs
    obtain ⟨s₁, r₁, hstep⟩ : ∃ s₁ r₁, step k len s = (s₁, r₁) := ⟨_, _, rfl⟩
    rw [hstep] at hgoes
    cases r₁ with
    | some r₁ => exact .inl ⟨s₁, r₁, hstep, hgoes⟩
    | none => exact .inr ⟨s₁, hstep, hgoes, fun s' r h => h⟩
  rw [sendfileEmul_eq] at hrun
  exact Loop.run_partial hround h hrun

def willing (file stream : List α) : Kernel file stream where
  pread _ n off := if off < 0 then .error .einval else .ok (FlatFile.read file off.toNat n)
  read _ n pos := .ok (FlatFile.read stream pos n)
  write _ d := .ok d.length
  poll _ := .ok POLLOUT
  pread_file i n off d h := by
    by_cases hoff : off < 0
    · rw [if_pos hoff] at h
      cases h
    · rw [if_neg hoff] at h
      cases h
      exact ⟨by omega, prefix_rfl⟩
  read_stream i n pos d h := by
    cases h
    exact prefix_rfl
  write_le i d n h := by
    cases h
    exact le_rfl

/-! ## Files that are read elsewhere -/

/-- The first `pread` that is not interrupted fails with `EIO`. -/
def FirstEio (k : Kernel file stream) (off : ℤ) (len : ℕ) : Prop :=
  ∃ m, (∀ i < m, k.pread i (min len 8192) off = .error .eintr) ∧ k.pread m (min len 8192) off = .error .eio

/-- A file, of which `read` reads too, or a source without positions, of which `pread` gives nothing. -/
def Kernel.Source (k : Kernel file stream) : Bool → Prop
  | true => stream = file ∧ ∀ i n off, k.pread i n off ≠ .error .espipe
  | false => file = []

/-- Up to the first `pread` that gives something every call is an interrupted one. -/
structure Calm (k : Kernel file stream) (off : ℤ) (len : ℕ) (s : State α) : Prop where
  usePread : s.usePread = true
  noRead : s.log.any Event.isRead = false
  intr : s.nsent = 0 → s.phase = .read → ∀ i < s.log.length, k.pread i (min len 8192) off = .error .eintr

section Calm
variable {k : Kernel file stream} {pos fuel : ℕ} {s s' : State α} {r : Result}

theorem Calm.step (hk : ∀ i n off, k.pread i n off ≠ .error .espipe) (hno : ¬FirstEio k off len)
    (hi : Inv file stream off pos len s) (h : Calm k off len s) :
    ((step k len s).2 = none → Calm k off len (step k len s).1) ∧ (step k len s).1.log.any Event.isRead = false := by
  have hlog (e : Event α) (he : e.isRead = false) : (s.log ++ [e]).any Event.isRead = false := by
    rw [any_append, h.noRead, any_cons, he]
    rfl
  unfold Sendfile.step
  split
  · next hphase =>
    rw [if_pos h.usePread]
    split
    · generalize hr : k.pread s.log.length (min (len - s.nsent) 8192) s.offset = r
      have hlog := hlog (.pread r) rfl
      unfold afterRead
      dsimp only
      split
      · exact ⟨nofun, hlog⟩
      · exact ⟨fun _ => ⟨h.usePread, hlog, fun _ => nofun⟩, hlog⟩
      · next e =>
        have hfirst (h0 : s.nsent = 0) : k.pread s.log.length (min len 8192) off = .error e := by
          rw [← hr, hi.offset, h0, Nat.sub_zero, Nat.cast_zero, Int.add_zero]
        split_ifs with hintr hswitch
        · refine ⟨fun _ => ⟨h.usePread, hlog, fun h0 _ i hlt => ?_⟩, hlog⟩
          rcases Nat.lt_succ_iff_lt_or_eq.1 (length_append ▸ hlt) with hlt | rfl
          · exact h.intr h0 hphase i hlt
          · exact hintr ▸ hfirst h0
        · have hread := hfirst hswitch.2.1
          rcases hswitch.2.2 with rfl | rfl
          · exact absurd ⟨_, h.intr hswitch.2.1 hphase, hread⟩ hno
          · exact absurd hread (hk _ _ _)
        · exact ⟨nofun, hlog⟩
        · exact ⟨nofun, hlog⟩
    · exact ⟨nofun, h.noRead⟩
  · next buf nwritten hphase =>
    split
    · unfold afterWrite
      dsimp only
      have hlog (r : Except Errno ℕ) := hlog (.write (buf.drop nwritten) r) rfl
      split
      · exact ⟨fun _ => ⟨h.usePread, hlog _, fun _ => nofun⟩, hlog _⟩
      · split_ifs
        · refine ⟨fun _ => ⟨h.usePread, hlog _, fun _ hr => ?_⟩, hlog _⟩
          cases hphase.symm.trans hr
        · exact ⟨nofun, hlog _⟩
        · exact ⟨fun _ => ⟨h.usePread, hlog _, fun _ => nofun⟩, hlog _⟩
    · refine ⟨fun _ => ⟨h.usePread, h.noRead, fun h0 _ => ?_⟩, h.noRead⟩
      have hbuf : s.phase.buf = buf := by rw [hphase]; rfl
      have hnil : buf = [] := length_eq_zero_iff.1 (Nat.add_eq_zero_iff.1 h0).2
      cases hphase.symm.trans (hi.busy (hbuf.trans hnil))
  · next buf nwritten hphase =>
    have hlog := hlog (.poll (k.poll s.log.length)) rfl
    unfold afterPoll
    dsimp only
    split
    · split_ifs
      · exact ⟨nofun, hlog⟩
      · exact ⟨fun _ => ⟨h.usePread, hlog, fun _ => nofun⟩, hlog⟩
    · split_ifs
      · refine ⟨fun _ => ⟨h.usePread, hlog, fun _ hr => ?_⟩, hlog⟩
        cases hphase.symm.trans hr
      · exact ⟨nofun, hlog⟩

theorem noRead_run (hk : ∀ i n off, k.pread i n off ≠ .error .espipe) (hno : ¬FirstEio k off len)
    (hrun : sendfileEmul k len fuel (start off pos) = (s', some r)) : s'.log.any Event.isRead = false := by
  have hround (s : State α) (hs : Inv file stream off pos len s ∧ Calm k off len s) : Loop.Round (step k len)
      (fun s => Inv file stream off pos len s ∧ Calm k off len s) (fun _ s' _ => s'.log.any Event.isRead = false) s := by
    have hgoes := step_spec (k := k) hs.1
    obtain ⟨hcalm, hread⟩ := hs.2.step hk hno hs.1
    obtain ⟨s₁, r₁, hstep⟩ : ∃ s₁ r₁, step k len s = (s₁, r₁) := ⟨_, _, rfl⟩
    rw [hstep] at hgoes hcalm hread
    cases r₁ with
    | some r₁ => exact .inl ⟨s₁, r₁, hstep, hread⟩
    | none => exact .inr ⟨s₁, hstep, ⟨hgoes, hcalm rfl⟩, fun s' r h => h⟩
  rw [sendfileEmul_eq] at hrun
  exact Loop.run_partial hround ⟨inv_start file stream off pos len, rfl, rfl, fun _ _ i hi => absurd hi (Nat.not_lt_zero i)⟩ hrun

end Calm

/-- The same answers of `pread`, and all that the other calls can give. -/
def Kernel.eager (k : Kernel file stream) : Kernel file stream :=
  { willing file stream with pread := k.pread, pread_file := k.pread_file }

theorem eager_run (k : Kernel file stream) (len : ℕ) {s : State α} (hphase : s.phase = .read) (hu : s.usePread = false) :
    ∃ fuel s' n, Loop.run (step k.eager len) fuel s = (s', some (.ok n)) ∧
      sent s'.log = sent s.log ++ FlatFile.read stream s.pos (len - s.nsent) := by
  induction hm : len - s.nsent using Nat.strongRecOn generalizing s with
  | _ m ih =>
    by_cases hlt : s.nsent < len
    · obtain ⟨d, hd⟩ : ∃ d, FlatFile.read stream s.pos (min (len - s.nsent) 8192) = d := ⟨_, rfl⟩
      have hread : step k.eager len s = afterRead { s with log := s.log ++ [.read (.ok d)] } (.ok d) := by
        unfold step
        rw [hphase]
        rw [if_pos hlt, hu, ← hd]
        rfl
      have hlen := congrArg length hd
      rw [FlatFile.length_read] at hlen
      have hrest : FlatFile.read stream s.pos m = d ++ FlatFile.read stream (s.pos + d.length) (len - (s.nsent + d.length)) := by
        rw [← hm, ← Nat.add_sub_cancel' (Nat.min_le_left (len - s.nsent) 8192), FlatFile.read_add, hd]
        by_cases hfull : d.length = min (len - s.nsent) 8192
        · rw [hfull, Nat.sub_sub]
        · rw [FlatFile.read_eq_nil (by omega), FlatFile.read_eq_nil (by omega)]
      cases d with
      | nil =>
        rw [length_nil] at hlen
        refine ⟨1, _, s.nsent, Loop.run_of_done hread 0, ?_⟩
        rw [sent_append, FlatFile.read_eq_nil (by omega)]
        rfl
      | cons a d =>
        let t : State α := { s with pos := s.pos + (a :: d).length, log := s.log ++ [.read (.ok (a :: d))] }
        let log := t.log ++ [.write (a :: d) (.ok (a :: d).length)]
        let u : State α := ⟨t.nsent + (a :: d).length, t.offset + (a :: d).length, t.usePread, t.pos, .read, log⟩
        have h1 : step k.eager len s = ({ t with phase := .write (a :: d) 0 }, none) := by
          rw [hread]
          simp [afterRead, hu, t]
        have h2 : step k.eager len { t with phase := .write (a :: d) 0 } =
            ({ t with phase := .write (a :: d) (a :: d).length, log := log }, none) := by
          simp [step, afterWrite, Kernel.eager, willing, log]
        have h3 : step k.eager len { t with phase := .write (a :: d) (a :: d).length, log := log } = (u, none) := by
          simp [step, u]
        have hless : len - (s.nsent + (a :: d).length) < m := by
          rw [length_cons]
          omega
        obtain ⟨fuel, s', n, hrun, hsent⟩ := ih _ hless (s := u) rfl hu rfl
        refine ⟨fuel + 3, s', n, ?_, ?_⟩
        · rw [Loop.run_of_step h1, Loop.run_of_step h2, Loop.run_of_step h3, hrun]
        · rw [hsent, hrest, sent_append, sent_append, append_assoc, append_assoc]
          exact congrArg (sent s.log ++ ·) (congrArg (· ++ _) (take_length (l := a :: d)))
    · refine ⟨1, s, s.nsent, Loop.run_of_done ?_ 0, ?_⟩
      · unfold step
        rw [hphase]
        exact if_neg hlt
      · rw [Nat.sub_eq_zero_of_le (Nat.not_lt.1 hlt)] at hm
        rw [← hm, FlatFile.read_zero, append_nil]

theorem firstEio_run {k : Kernel file stream} (pos : ℕ) (hlen : 0 < len) (h : FirstEio k off len) :
    ∃ fuel s, Loop.run (step k.eager len) fuel (start off pos) = (s, none) ∧ s.phase = .read ∧ s.usePread = false ∧
      s.nsent = 0 ∧ s.pos = pos ∧ sent s.log = [] := by
  obtain ⟨m, hintr, heio⟩ := h
  have hstep (s : State α) (hs : s = { (start off pos : State α) with log := s.log }) :
      step k.eager len s = afterRead { s with log := s.log ++ [.pread (k.pread s.log.length (min len 8192) off)] }
        (k.pread s.log.length (min len 8192) off) := by
    rw [hs]
    simp only [step, start, hlen, if_true]
    rfl
  have hcalm : ∀ i ≤ m, ∃ log : List (Event α),
      Loop.run (step k.eager len) i (start off pos) = ({ start off pos with log := log }, none) ∧ log.length = i ∧ sent log = [] := by
    intro i
    induction i with
    | zero => exact fun _ => ⟨[], rfl, rfl, rfl⟩
    | succ i ih =>
      intro hi
      obtain ⟨log, hrun, hlog, hsent⟩ := ih (by omega)
      subst hlog
      refine ⟨log ++ [.pread (.error .eintr)], (Loop.run_add hrun 1).trans (Loop.run_of_step ?_ 0), length_append, ?_⟩
      · rw [hstep _ rfl, hintr _ hi]
        rfl
      · rw [sent_append, hsent]
        rfl
  obtain ⟨log, hrun, hlog, hsent⟩ := hcalm m le_rfl
  subst hlog
  refine ⟨log.length + 1, { start off pos with usePread := false, log := log ++ [.pread (.error .eio)] },
    (Loop.run_add hrun 1).trans (Loop.run_of_step ?_ 0), rfl, rfl, rfl, rfl, ?_⟩
  · rw [hstep _ rfl, heio]
    rfl
  · rw [sent_append, hsent]
    rfl

/-- What the function returns is what it did; the source is a file, or has no positions. -/
def Exact (k : Kernel file stream) (positional : Bool) (off : ℤ) (pos len : ℕ) : Prop :=
  ∀ fuel s' r, sendfileEmul k len fuel (start off pos) = (s', some r) →
    (∀ n, r = .ok n → n ≤ len ∧ reqOff off s' r = off + n ∧ (sent s'.log).length = n ∧
      sent s'.log = if positional then FlatFile.read file off.toNat n else FlatFile.read stream pos n) ∧
    (∀ e, r = .error e → Failed s'.log e ∧ reqOff off s' r = off) ∧ Falls s'.log

theorem take_of_prefix {a b : List α} {n : ℕ} (h : a <+: b) (hn : (a.take n).length = n) : a.take n = b.take n := by
  obtain ⟨t, rfl⟩ := h
  rw [length_take] at hn
  rw [take_append_of_le_length (by omega)]

/-- **`uv__fs_sendfile_emul` sends the first bytes of its source** whatever the other calls give, if and only if not the first
`pread` of a file fails with `EIO` where the file goes on differently from the position of the descriptor. -/
theorem sendfileEmul_iff (k : Kernel file stream) {positional : Bool} (hsrc : k.Source positional) (off : ℤ) (pos len : ℕ) :
    (∀ k' : Kernel file stream, k'.pread = k.pread → Exact k' positional off pos len) ↔
      ¬(positional = true ∧ FirstEio k off len ∧ ¬FlatFile.read file pos len <+: FlatFile.read file off.toNat len) := by
  constructor
  · rintro hall ⟨rfl, hfirst, hne⟩
    obtain ⟨rfl, -⟩ := hsrc
    have hlen : 0 < len := by
      by_contra h0
      rw [Nat.eq_zero_of_not_pos h0] at hne
      exact hne nil_prefix
    obtain ⟨m, s, hrun, hphase, hu, h0, hpos, hnil⟩ := firstEio_run pos hlen hfirst
    obtain ⟨fuel, s', n, hrun', hsent⟩ := eager_run k len hphase hu
    rw [hnil, nil_append, h0, hpos, Nat.sub_zero] at hsent
    have hemul := (Loop.run_add hrun fuel).trans hrun'
    rw [← sendfileEmul_eq] at hemul
    obtain ⟨hle, -, -, hbytes⟩ := (hall k.eager rfl _ _ _ hemul).1 n rfl
    rw [hsent] at hbytes
    rw [hbytes] at hne
    exact hne (take_prefix_take_left hle)
  · intro hno k' hk fuel s' r hrun
    obtain ⟨hret, hfalls⟩ := sendfileEmul_run (inv_start file stream off pos len) hrun
    refine ⟨?_, ?_, hfalls⟩
    swap
    · rintro e rfl
      exact ⟨hret, rfl⟩
    rintro n rfl
    refine ⟨hret.le, hret.advanced, hret.length, hret.bytes.trans ?_⟩
    have hlen := hret.length
    rw [hret.bytes] at hlen
    cases positional with
    | true =>
      obtain ⟨rfl, hpipe⟩ := hsrc
      by_cases hread : s'.log.any Event.isRead = true
      · rw [if_pos hread] at hlen ⊢
        have hfirst : FirstEio k off len := by
          by_contra hnone
          have hnone : ¬FirstEio k' off len := by rwa [FirstEio, hk]
          rw [noRead_run (hk ▸ hpipe) hnone hrun] at hread
          cases hread
        have hprefix := not_not.1 fun h => hno ⟨rfl, hfirst, h⟩
        have hn := take_of_prefix (n := n) hprefix
        rw [FlatFile.take_read, FlatFile.take_read, Nat.min_eq_left hret.le] at hn
        exact hn hlen
      · rw [if_neg hread]
        rfl
    | false =>
      obtain rfl : file = [] := hsrc
      have hempty : FlatFile.read ([] : List α) off.toNat n = [] := FlatFile.read_eq_nil (Nat.zero_le _) n
      rw [hempty] at hlen ⊢
      split
      · rfl
      · next hread =>
        rw [if_neg hread] at hlen
        rw [← hlen]
        rfl

/-- Two bytes from offset 2 on, which `pread` gives. -/
theorem sendfileEmul_iff_willing : Exact (willing [1, 2, 3, 4] [1, 2, 3, 4]) true 2 0 2 := by
  have hpipe (i n : ℕ) (off : ℤ) : (willing [1, 2, 3, 4] [1, 2, 3, 4]).pread i n off ≠ .error .espipe := by
    simp only [willing]
    split <;> nofun
  have hsrc : (willing [1, 2, 3, 4] [1, 2, 3, 4]).Source true := ⟨rfl, hpipe⟩
  refine (sendfileEmul_iff (willing [1, 2, 3, 4] [1, 2, 3, 4]) hsrc 2 0 2).2 ?_ _ rfl
  rintro ⟨-, ⟨m, -, h⟩, -⟩
  cases h

/-- A file whose `pread` fails. -/
def failing (file : List α) : Kernel file file :=
  { willing file file with pread := fun _ _ _ => .error .eio, pread_file := nofun }

/-- Two bytes from offset 2 on: the first two of the file are sent, and the offset advances to 4. -/
theorem sendfileEmul_elsewhere : (failing [1, 2, 3, 4]).Source true ∧ ∃ s',
    sendfileEmul (failing [1, 2, 3, 4]) 2 5 (start 2 0) = (s', some (.ok 2)) ∧ sent s'.log = [1, 2] ∧
      reqOff 2 s' (.ok 2) = 4 ∧ ¬Exact (failing [1, 2, 3, 4]) true 2 0 2 := by
  refine ⟨⟨rfl, nofun⟩, _, rfl, rfl, rfl, fun h => ?_⟩
  have := ((h 5 _ _ rfl).1 2 rfl).2.2.2
  cases this

/-! ## `uv__fs_sendfile` on Linux and SunOS -/

/-- The answer of `copy_file_range`, and whether the call is never to be tried again.
mirrors unix/fs.c:967-1013 -/
def tryCopyFileRange (noSupport buggyCephfs cifs : Bool) (r : Result) : Result × Bool :=
  if noSupport then (.error .enosys, true)
  else
    match r with
    | .error .eacces => (.error (if buggyCephfs then .enosys else .eacces), false)
    | .error .enosys => (.error .enosys, true)
    | .error .eperm => (.error (if cifs then .enosys else .eperm), false)
    | .error .enotsup => (.error .enosys, false)
    | .error .exdev => (.error .enosys, false)
    | r => (r, false)

/-- What a call returns, and by how much it moves `off`; SunOS may write and fail. -/
structure Transfer where
  ret : Result
  advance : ℕ

/-- The file systems of the two descriptors, and the flag of `uv__fs_try_copy_file_range`. -/
structure Volumes where
  noSupport : Bool
  buggyCephfs : Bool
  cifs : Bool

/-- The call that decides: `copy_file_range` on Linux, `sendfile` where that is of no use. -/
def attempt (linux : Bool) (v : Volumes) (range sendfile : Transfer) : Transfer :=
  let r := (tryCopyFileRange v.noSupport v.buggyCephfs v.cifs range.ret).1
  if linux = true ∧ r ≠ .error .enosys then ⟨r, range.advance⟩ else sendfile

/-- What the function returns, and `req->off`; `emul` is what `uv__fs_sendfile_emul` would do.
mirrors unix/fs.c:1018-1063 -/
def fsSendfile (linux : Bool) (v : Volumes) (range sendfile : Transfer) (emul : Result × ℤ) (off : ℤ) : Result × ℤ :=
  let t := attempt linux v range sendfile
  match t.ret with
  | .ok _ => (.ok t.advance, off + t.advance)
  | .error e =>
    if 0 < t.advance then (.ok t.advance, off + t.advance)
    else if e = .einval ∨ e = .eio ∨ e = .enotsock ∨ e = .exdev then emul
    else (.error e, off)

theorem fsSendfile_spec {linux : Bool} {v : Volumes} {range sendfile : Transfer} {emul : Result × ℤ} {n : ℕ}
    (hrange : range.advance ≤ len) (hsendfile : sendfile.advance ≤ len)
    (hemul : ∀ m, emul.1 = .ok m → m ≤ len ∧ emul.2 = off + m)
    (h : (fsSendfile linux v range sendfile emul off).1 = .ok n) :
    n ≤ len ∧ (fsSendfile linux v range sendfile emul off).2 = off + n := by
  have hle : (attempt linux v range sendfile).advance ≤ len := by
    unfold attempt
    dsimp only
    split
    · exact hrange
    · exact hsendfile
  unfold fsSendfile at h ⊢
  generalize attempt linux v range sendfile = t at h hle ⊢
  dsimp only at h ⊢
  cases hret : t.ret with
  | ok m =>
    rw [hret] at h
    cases h
    exact ⟨hle, rfl⟩
  | error e =>
    rw [hret] at h
    dsimp only at h ⊢
    by_cases hadv : 0 < t.advance
    · rw [if_pos hadv] at h ⊢
      cases h
      exact ⟨hle, rfl⟩
    rw [if_neg hadv] at h ⊢
    split at h
    · next he =>
      rw [if_pos he]
      exact hemul n h
    · cases h

/-- With the emulation behind it, `uv_fs_sendfile` sends no more than it was asked for. -/
theorem fsSendfile_within {k : Kernel file stream} {linux : Bool} {v : Volumes} {range sendfile : Transfer}
    {pos fuel n : ℕ} {s' : State α} {r : Result} (hrange : range.advance ≤ len) (hsendfile : sendfile.advance ≤ len)
    (hrun : sendfileEmul k len fuel (start off pos) = (s', some r))
    (h : (fsSendfile linux v range sendfile (r, reqOff off s' r) off).1 = .ok n) :
    n ≤ len ∧ (fsSendfile linux v range sendfile (r, reqOff off s' r) off).2 = off + n := by
  refine fsSendfile_spec hrange hsendfile (fun m hm => ?_) h
  subst hm
  have hsent := (sendfileEmul_run (inv_start file stream off pos len) hrun).1
  exact ⟨hsent.le, hsent.advanced⟩

theorem fsSendfile_within_two : ∃ s' : State ℕ, (fsSendfile true ⟨false, false, false⟩ ⟨.error .einval, 0⟩
    ⟨.error .einval, 0⟩ (.ok 2, reqOff (1 : ℕ) s' (.ok 2)) (1 : ℕ)).2 = (1 : ℕ) + 2 := by
  have hrun : sendfileEmul (willing [1, 2, 3] []) 2 4 (start (1 : ℕ) 0) = (_, some (.ok 2)) := rfl
  exact ⟨_, (fsSendfile_within (n := 2) (Nat.zero_le 2) (Nat.zero_le 2) hrun rfl).2⟩

end Libuv.L6.Sendfile
