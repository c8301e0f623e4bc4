import Libuv.Core.LTS
import Libuv.L5Windows.FileMap

/-!
# Requests at the same time on a memory-mapped file (`win/fs.c`)

The threads of the pool run the requests of one descriptor at the same time. Each fetches a copy of the entry in
`uv__fd_hash`, under the lock of the table, and goes by its copy: where it writes behind the end it closes the mapping, creates
a larger one and puts its copy into the table; it maps a view and copies; and it puts its copy into the table once more if
the position has moved. These are the steps; between two of them any others may come.

The values of handles are used again (`Handle.birth` tells them apart, which no function reads). What else Windows does is
that of `Libuv.L5.FileMap`.

* `filemap_serial`: then the requests are as if they came one after the other, and every view is of an open mapping.
* `append_lost`, `view_closed`: otherwise one append overwrites another, and a view is mapped through a closed handle.
-/
namespace Libuv.L5.FileMapConc

open FlatFile FileMap List

/-- A handle of a mapping: its value, and which mapping it is. -/
structure Handle where
  value : ℕ
  birth : ℕ
deriving DecidableEq

/-- `struct uv__fd_info_s` -/
structure Info where
  flags : Flags
  isDirectory : Bool
  mapping : Option Handle
  size : ℕ
  currentPos : ℕ
deriving DecidableEq

inductive Io
  | read (bufs : List ℕ) (offset : Option ℕ)
  | write (bufs : List (List UInt8)) (offset : Option ℕ)
deriving DecidableEq

def Io.req : Io → Req
  | .read bufs offset => .read bufs offset
  | .write bufs offset => .write bufs offset

def Io.offset : Io → Option ℕ
  | .read _ offset => offset
  | .write _ offset => offset

/-- Where a request is, with its copy of the entry, the position and the number of bytes: before `CloseHandle`, before
`CreateFileMapping`, before the new mapping (`publish`) or its failure is put into the table, before `MapViewOfFile` (of a
mapping that it has made itself, if `grown`), before the position is put into the table. -/
inductive Phase
  | idle
  | replace (info : Info) (pos size : ℕ)
  | create (info : Info) (pos size : ℕ)
  | publish (info : Info) (pos size : ℕ)
  | failed (info : Info) (error : WinError)
  | view (info : Info) (pos size : ℕ) (grown : Bool)
  | store (info : Info) (result : Result) (placed : List (List UInt8))
  | done (result : Result) (placed : List (List UInt8))
  | undefined
deriving DecidableEq

/-- The file, the mappings that are open, by the value of their handle, the number of the next one, the entry of the
descriptor, and the requests. -/
structure State where
  os : Os
  maps : ℕ → Option (ℕ × Section)
  born : ℕ
  entry : Info
  phase : ℕ → Phase

/-- After the entry has been fetched.
mirrors win/fs.c:749-797 -/
def planRead (info : Info) (bufs : List ℕ) (offset : Option ℕ) : Phase :=
  if bufs = [] then .done (.error .invalidParameter) []
  else if info.flags.rw = .wronly then .done (.error .invalidFlags) (untouched bufs)
  else if info.isDirectory then .done (.error .invalidFunction) (untouched bufs)
  else
    let pos := offset.getD info.currentPos
    if info.size ≤ pos then .done (.ok 0) (untouched bufs)
    else
      let readSize := min (total bufs) (info.size - pos)
      if readSize = 0 then .done (.ok 0) (untouched bufs) else .view info pos readSize false

/-- mirrors win/fs.c:928-974 -/
def planWrite (info : Info) (bufs : List (List UInt8)) (offset : Option ℕ) : Phase :=
  if bufs = [] then .done (.error .invalidParameter) []
  else if info.flags.rw = .rdonly then .done (.error .invalidFlags) []
  else if info.isDirectory then .done (.error .invalidFunction) []
  else
    let writeSize := total (bufs.map List.length)
    if writeSize = 0 then .done (.ok 0) []
    else
      let pos := if info.flags.append then info.size else offset.getD info.currentPos
      if info.size < pos + writeSize then
        if info.mapping.isSome then .replace info pos writeSize else .create info pos writeSize
      else .view info pos writeSize false

def plan (info : Info) : Io → Phase
  | .read bufs offset => planRead info bufs offset
  | .write bufs offset => planWrite info bufs offset

/-- After the view.
mirrors win/fs.c:838-843, 1040-1043 -/
def moved (info : Info) (offset : Option ℕ) (endPos : ℕ) (result : Result) (placed : List (List UInt8)) : Phase :=
  if offset.isNone then .store { info with currentPos := endPos } result placed else .done result placed

def upd (phase : ℕ → Phase) (i : ℕ) (p : Phase) : ℕ → Phase := fun j => if j = i then p else phase j

namespace State
variable (s : State)

def setPhase (i : ℕ) (p : Phase) : State := { s with phase := upd s.phase i p }

/-- The mapping that the value of a handle stands for. -/
def sectionOf (h : Option Handle) : Option Section := do
  let h ← h
  let m ← s.maps h.value
  return m.2

/-- `CloseHandle`, of a mapping -/
def closeHandle (h : Handle) : State :=
  if (s.maps h.value).isSome then
    { s with os := s.os.closeSection, maps := fun v => if v = h.value then none else s.maps v }
  else s

/-- `uv__fd_hash_get`
mirrors win/fs-fd-hash-inl.h:118-131 -/
def fetch (i : ℕ) (io : Io) : Option State :=
  match s.phase i with
  | .idle => some (s.setPhase i (plan s.entry io))
  | _ => none

/-- mirrors win/fs.c:975-977 -/
def close (i : ℕ) : Option State :=
  match s.phase i with
  | .replace info pos size => do
    let h ← info.mapping
    return (s.closeHandle h).setPhase i (.create info pos size)
  | _ => none

/-- The handle gets a value that no open one has. The file is closed if there is no mapping.
mirrors win/fs.c:979-994 -/
def create (i v : ℕ) : Option State :=
  match s.phase i with
  | .create info pos size =>
    if s.maps v = none then
      match s.os.createFileMapping true (pos + size) with
      | (o, .ok m) =>
        some ({ s with os := o, maps := fun w => if w = v then some (s.born, m) else s.maps w, born := s.born + 1 }.setPhase i
          (.publish { info with mapping := some ⟨v, s.born⟩, size := pos + size } pos size))
      | (o, .error e) =>
        some ({ s with os := o.close }.setPhase i (.failed { info with mapping := none, size := 0, currentPos := 0 } e))
    else none
  | _ => none

/-- `uv__fd_hash_add`
mirrors win/fs-fd-hash-inl.h:133-165 -/
def add (i : ℕ) : Option State :=
  match s.phase i with
  | .publish info pos size => some ({ s with entry := info }.setPhase i (.view info pos size true))
  | .failed info e => some ({ s with entry := info }.setPhase i (.done (.error e) []))
  | .store info result placed => some ({ s with entry := info }.setPhase i (.done result placed))
  | _ => none

/-- mirrors win/fs.c:797-845 -/
def viewRead (g i : ℕ) (info : Info) (pos size : ℕ) (bufs : List ℕ) (offset : Option ℕ) : State :=
  match mapViewOfFile g (s.sectionOf info.mapping) false (pos - pos % g) (pos % g + size) with
  | .error e => s.setPhase i (.done (.error e) (untouched bufs))
  | .ok v =>
    match copyOut s.os v (pos % g) size bufs 0 with
    | some (placed, doneRead) =>
      if doneRead ≠ size then s.setPhase i .undefined
      else s.setPhase i (moved info offset (pos + size) (.ok size) placed)
    | none => s.setPhase i .undefined

/-- mirrors win/fs.c:995-1049 -/
def viewWrite (g i : ℕ) (info : Info) (pos size : ℕ) (bufs : List (List UInt8)) (offset : Option ℕ) : State :=
  match mapViewOfFile g (s.sectionOf info.mapping) true (pos - pos % g) (pos % g + size) with
  | .error e => s.setPhase i (.done (.error e) [])
  | .ok v =>
    match copyIn v (pos % g) s.os bufs 0 with
    | some (o, doneWrite) =>
      if doneWrite ≠ size then s.setPhase i .undefined
      else { s with os := o }.setPhase i (moved info offset (pos + size) (.ok doneWrite) [])
    | none => s.setPhase i .undefined

/-- `MapViewOfFile`, the copying, and `UnmapViewOfFile` -/
def view (g i : ℕ) (io : Io) : Option State :=
  match s.phase i with
  | .view info pos size _ =>
    match io with
    | .read bufs offset => some (s.viewRead g i info pos size bufs offset)
    | .write bufs offset => some (s.viewWrite g i info pos size bufs offset)
  | _ => none

end State

inductive Label
  | fetch (i : ℕ)
  | close (i : ℕ)
  | create (i v : ℕ)
  | add (i : ℕ)
  | view (i : ℕ)
deriving DecidableEq

def step (g : ℕ) (ios : ℕ → Io) (s : State) : Label → Option State
  | .fetch i => s.fetch i (ios i)
  | .close i => s.close i
  | .create i v => s.create i v
  | .add i => s.add i
  | .view i => s.view g i (ios i)

/-- The descriptor before the requests; `v` is the value of its mapping's handle. -/
def start (o : Os) (info : FdInfo) (v : ℕ) : State where
  os := o
  maps := fun w => if w = v then info.mapping.map fun m => (0, m) else none
  born := 1
  entry := ⟨info.flags, info.isDirectory, info.mapping.map fun _ => ⟨v, 0⟩, info.size, info.currentPos⟩
  phase := fun _ => .idle

/-- Any of the requests `ios` on the descriptor `fd`. -/
def sys (g : ℕ) (ios : ℕ → Io) (fd : Fd) : LTS State Label where
  init s := ∃ info v, fd.info = some info ∧ s = start fd.os info v
  step s l s' := step g ios s l = some s'

/-! ## Serial runs -/

def Phase.Resting : Phase → Prop
  | .idle => True
  | .done _ _ => True
  | _ => False

/-- The results, the file, its size and the position are those of some order of the requests. -/
def Serialisable (g : ℕ) (ios : ℕ → Io) (fd : Fd) (s : State) : Prop :=
  ∃ trace : List (ℕ × Outcome), (trace.map Prod.fst).Nodup ∧ (∀ i, i ∈ trace.map Prod.fst ↔ s.phase i ≠ .idle) ∧
    FileMap.run g fd (trace.map fun t => (ios t.1).req) = some (trace.map Prod.snd) ∧
    (∀ t ∈ trace, s.phase t.1 = .done t.2.result t.2.placed) ∧
    s.os.file = trace.getLast?.elim fd.os.file (fun t => t.2.file) ∧ s.entry.size = s.os.file.length ∧
    s.entry.currentPos = trace.getLast?.elim fd.pos (fun t => t.2.pos)

/-- The handle is that of an open mapping, and of the one that it was made for. -/
def State.Open (s : State) (h : Option Handle) : Prop := ∃ a m, h = some a ∧ s.maps a.value = some (a.birth, m)

def ViewsOpen (s : State) : Prop := ∀ i info pos size grown, s.phase i = .view info pos size grown → s.Open info.mapping

/-! ## The condition -/

/-- From closing the old mapping until the new one is filled. -/
def Phase.Replacing : Phase → Prop
  | .create _ _ _ => True
  | .publish _ _ _ => True
  | .failed _ _ => True
  | .view _ _ _ grown => grown = true
  | _ => False

/-- The copy of the entry will be put into the table, or the file is being enlarged. -/
def Phase.Writer (io : Io) : Phase → Prop
  | .replace _ _ _ => True
  | .create _ _ _ => True
  | .publish _ _ _ => True
  | .failed _ _ => True
  | .view _ _ _ grown => grown = true ∨ io.offset = none
  | .store _ _ _ => True
  | _ => False

/-- What is done at once may be done at any time. Otherwise the entry is fetched while no mapping is being replaced, and by
what will put it back while nothing else will; and a mapping is replaced while nothing else is under way. -/
def Locked (ios : ℕ → Io) (s : State) : Label → Prop
  | .fetch i =>
    match plan s.entry (ios i) with
    | .view _ _ _ _ => (∀ j, ¬ (s.phase j).Replacing) ∧ ((ios i).offset = none → ∀ j, ¬ (s.phase j).Writer (ios j))
    | .replace _ _ _ => ∀ j, ¬ (s.phase j).Writer (ios j)
    | .create _ _ _ => ∀ j, (s.phase j).Resting
    | _ => True
  | .close i => ∀ j, j ≠ i → (s.phase j).Resting
  | _ => True

/-! ## One request after the other -/

/-- The requests taken so far, in this order, have made `f` of the open file. -/
inductive Serial (fl : Flags) (f₀ : OpenFile) (ios : ℕ → Io) : List (ℕ × Outcome) → OpenFile → Prop
  | nil : Serial fl f₀ ios [] f₀
  | snoc (i : ℕ) {trace : List (ℕ × Outcome)} {f : OpenFile} : Serial fl f₀ ios trace f →
      Serial fl f₀ ios (trace ++ [(i, OpenFile.outcome (f.step fl (ios i).req))]) (f.step fl (ios i).req).1

section
variable {g : ℕ} {fl : Flags} {f₀ f : OpenFile} {ios : ℕ → Io} {trace : List (ℕ × Outcome)} {fd : Fd}

theorem io_step (hm : Mapped fl f fd) (io : Io) (g : ℕ) :
    ∃ fd', FileMap.step g fd io.req = some (fd', OpenFile.outcome (f.step fl io.req)) ∧ Mapped fl (f.step fl io.req).1 fd' := by
  apply step_shows Mapped.shows hm io.req
  · intro bufs offset hb _
    exact mapped_read hm hb
  · intro bufs offset hb _
    exact mapped_write hm hb
  · intro n hn
    cases io with
    | read bufs offset | write bufs offset => cases hn

theorem Serial.run (hm : Mapped fl f₀ fd) (hs : Serial fl f₀ ios trace f) (g : ℕ) :
    ∃ fd', Mapped fl f fd' ∧ ∀ rest outs, FileMap.run g fd' rest = some outs →
      FileMap.run g fd ((trace.map fun t => (ios t.1).req) ++ rest) = some (trace.map Prod.snd ++ outs) := by
  induction hs with
  | nil => exact ⟨fd, hm, fun rest outs h => h⟩
  | @snoc i trace f _ ih =>
    obtain ⟨fd', hm', hrest⟩ := ih
    obtain ⟨fd'', hstep, hm''⟩ := io_step hm' (ios i) g
    refine ⟨fd'', hm'', ?_⟩
    intro rest outs houts
    have hone : FileMap.run g fd' ((ios i).req :: rest) = some (OpenFile.outcome (f.step fl (ios i).req) :: outs) := by
      rw [FileMap.run, hstep, Option.bind_eq_bind, Option.bind_some]
      simp only [houts]
      rfl
    have hall := hrest _ _ hone
    rw [map_append, map_append, append_assoc, append_assoc]
    exact hall

theorem Serial.last (hs : Serial fl f₀ ios trace f) :
    f.file = trace.getLast?.elim f₀.file (fun t => t.2.file) ∧ f.pos = trace.getLast?.elim f₀.pos (fun t => t.2.pos) := by
  cases hs with
  | nil => exact ⟨rfl, rfl⟩
  | snoc i _ =>
    rw [getLast?_concat]
    exact ⟨rfl, rfl⟩

end

/-- The request is in the order: its answer is known. -/
def Phase.Taken : Phase → Prop
  | .store _ _ _ => True
  | .done _ _ => True
  | _ => False

def Phase.Answered (o : Outcome) : Phase → Prop
  | .store _ result placed => result = o.result ∧ placed = o.placed
  | .done result placed => result = o.result ∧ placed = o.placed
  | _ => False

/-- The requests that are in the order, and their answers. -/
structure Linear (fl : Flags) (f₀ : OpenFile) (ios : ℕ → Io) (trace : List (ℕ × Outcome)) (f : OpenFile) (phase : ℕ → Phase) :
    Prop where
  serial : Serial fl f₀ ios trace f
  nodup : (trace.map Prod.fst).Nodup
  taken : ∀ i, i ∈ trace.map Prod.fst ↔ (phase i).Taken
  answered : ∀ t ∈ trace, (phase t.1).Answered t.2

section
variable {fl : Flags} {f₀ f : OpenFile} {ios : ℕ → Io} {trace : List (ℕ × Outcome)} {phase : ℕ → Phase} {i : ℕ} {p : Phase}

theorem upd_self : upd phase i p i = p := if_pos rfl

theorem upd_ne {j : ℕ} (h : j ≠ i) : upd phase i p j = phase j := if_neg h

theorem Linear.keep (hl : Linear fl f₀ ios trace f phase) (ht : p.Taken ↔ (phase i).Taken)
    (ha : ∀ o, (phase i).Answered o → p.Answered o) : Linear fl f₀ ios trace f (upd phase i p) := by
  refine ⟨hl.serial, hl.nodup, ?_, ?_⟩
  · intro j
    by_cases hj : j = i
    · rw [hj, upd_self, ht]
      exact hl.taken i
    · rw [upd_ne hj]
      exact hl.taken j
  · intro t hmem
    have hans := hl.answered t hmem
    by_cases hj : t.1 = i
    · rw [hj, upd_self]
      rw [hj] at hans
      exact ha t.2 hans
    · rw [upd_ne hj]
      exact hans

theorem Linear.take (hl : Linear fl f₀ ios trace f phase) (hi : ¬ (phase i).Taken) (ht : p.Taken)
    (ha : p.Answered (OpenFile.outcome (f.step fl (ios i).req))) :
    Linear fl f₀ ios (trace ++ [(i, OpenFile.outcome (f.step fl (ios i).req))]) (f.step fl (ios i).req).1 (upd phase i p) := by
  have hnot : i ∉ trace.map Prod.fst := fun hmem => hi ((hl.taken i).mp hmem)
  refine ⟨.snoc i hl.serial, ?_, ?_, ?_⟩
  · rw [map_append]
    exact List.Nodup.append hl.nodup (nodup_singleton i) (disjoint_singleton.mpr hnot)
  · intro j
    rw [map_append, mem_append]
    by_cases hj : j = i
    · rw [hj, upd_self]
      exact iff_of_true (.inr (mem_singleton.mpr rfl)) ht
    · rw [upd_ne hj, ← hl.taken j]
      refine ⟨?_, .inl⟩
      intro hmem
      obtain hmem | hmem := hmem
      · exact hmem
      · exact absurd (mem_singleton.mp hmem) hj
  · intro t hmem
    obtain hmem | hmem := mem_append.mp hmem
    · have hne : t.1 ≠ i := by
        intro hti
        exact hnot (hti ▸ mem_map_of_mem hmem)
      rw [upd_ne hne]
      exact hl.answered t hmem
    · rw [mem_singleton.mp hmem, upd_self]
      exact ha

end

/-! ## The invariant -/

def target (fl : Flags) (f : OpenFile) : Io → ℕ
  | .read _ offset => offset.getD f.pos
  | .write _ offset => if fl.append then f.file.length else offset.getD f.pos

def Sized (fl : Flags) (f : OpenFile) (pos size : ℕ) : Io → Prop
  | .read bufs _ => bufs ≠ [] ∧ fl.rw ≠ .wronly ∧ size = min (total bufs) (f.file.length - pos)
  | .write bufs _ => bufs ≠ [] ∧ fl.rw ≠ .rdonly ∧ size = bufs.flatten.length

structure Transfer (fl : Flags) (f : OpenFile) (io : Io) (pos size : ℕ) : Prop where
  sized : Sized fl f pos size io
  some : 0 < size
  aim : pos = target fl f io

/-- The handle is that of the mapping `m`. -/
def HandleOf (maps : ℕ → Option (ℕ × Section)) (h : Option Handle) (m : Section) : Prop :=
  ∃ a, h = some a ∧ maps a.value = some (a.birth, m)

/-- What holds in the phases of a request, of the file, the mappings and the entry. -/
def PhaseOk (fl : Flags) (f : OpenFile) (file : List UInt8) (maps : ℕ → Option (ℕ × Section)) (entry : Info) (io : Io) :
    Phase → Prop
  | .idle => True
  | .replace info pos size =>
    info = entry ∧ entry.mapping.isSome ∧ Transfer fl f io pos size ∧ f.file.length < pos + size
  | .create info pos size => info = entry ∧ file = f.file ∧ Transfer fl f io pos size ∧ f.file.length < pos + size
  | .publish info pos size =>
    info = { entry with mapping := info.mapping, size := pos + size } ∧ HandleOf maps info.mapping ⟨pos + size, true⟩ ∧
      file = resize 0 f.file (pos + size) ∧ Transfer fl f io pos size ∧ f.file.length < pos + size
  | .failed _ _ => False
  | .view info pos size true =>
    info = entry ∧ entry.size = pos + size ∧ HandleOf maps entry.mapping ⟨pos + size, true⟩ ∧
      file = resize 0 f.file (pos + size) ∧ Transfer fl f io pos size ∧ f.file.length < pos + size
  | .view info pos size false =>
    info.mapping = entry.mapping ∧ (io.offset = none → info = entry) ∧ Transfer fl f io pos size ∧
      pos + size ≤ f.file.length
  | .store info _ _ => io.offset = none ∧ info = { entry with currentPos := f.pos } ∧ entry.currentPos < entry.size
  | .done _ _ => True
  | .undefined => False

/-- The entry and the mapping show the open file. -/
structure Shown (fl : Flags) (f : OpenFile) (file : List UInt8) (maps : ℕ → Option (ℕ × Section)) (entry : Info) : Prop where
  file : file = f.file
  size : entry.size = f.file.length
  unmapped : f.file = [] → entry.mapping = none
  mapped : f.file ≠ [] → HandleOf maps entry.mapping ⟨f.file.length, decide (fl.rw ≠ .rdonly)⟩

/-- `f` is the open file that the requests in the order have made. -/
structure Inv (fl : Flags) (ios : ℕ → Io) (s : State) (f : OpenFile) : Prop where
  flags : s.entry.flags = fl
  plain : s.entry.isDirectory = false
  readable : s.os.access.readData = true
  writable : fl.rw ≠ .rdonly → s.os.access.writeData = true
  posLe : f.pos ≤ f.file.length
  sizeLe : f.file.length ≤ s.entry.size
  pos : s.entry.currentPos = f.pos ∨ ∃ j info result placed, s.phase j = .store info result placed
  phases : ∀ i, PhaseOk fl f s.os.file s.maps s.entry (ios i) (s.phase i)
  shown : (∀ i, ¬ (s.phase i).Replacing) → Shown fl f s.os.file s.maps s.entry
  alone : ∀ i, (s.phase i).Replacing → ∀ j, j ≠ i → (s.phase j).Resting
  single : ∀ i j, (s.phase i).Writer (ios i) → (s.phase j).Writer (ios j) → i = j

/-! ### What a request does to the open file -/

section
variable {fl : Flags} {f : OpenFile} {io : Io} {pos size : ℕ}

theorem Transfer.read {bufs : List ℕ} {offset : Option ℕ} (h : Transfer fl f (.read bufs offset) pos size) :
    f.step fl (.read bufs offset) = (⟨f.file, if offset.isNone then pos + size else f.pos⟩, .ok size,
      scatter bufs (FlatFile.read f.file pos (total bufs))) := by
  obtain ⟨⟨hb, hrw, hsize⟩, hsome, htarget⟩ := h
  have hlen : (FlatFile.read f.file pos (total bufs)).length = size := (length_read _ _ _).trans hsize.symm
  have hpos : offset.getD f.pos = pos := htarget.symm
  simp [OpenFile.step, if_neg hb, if_neg hrw, hpos, hlen]

theorem Transfer.write {bufs : List (List UInt8)} {offset : Option ℕ} (h : Transfer fl f (.write bufs offset) pos size) :
    f.step fl (.write bufs offset) = (⟨FlatFile.write 0 f.file pos bufs.flatten, if offset.isNone then pos + size else f.pos⟩,
      .ok size, []) := by
  obtain ⟨⟨hb, hrw, hsize⟩, hsome, htarget⟩ := h
  have hne : bufs.flatten ≠ [] := by
    intro h0
    rw [h0, length_nil] at hsize
    omega
  have hpos : (if fl.append then f.file.length else offset.getD f.pos) = pos := htarget.symm
  simp only [OpenFile.step, if_neg hb, if_neg hrw, if_neg hne, hpos, ← hsize]

theorem Transfer.write_of_lt (h : Transfer fl f io pos size) (hgrow : f.file.length < pos + size) :
    ∃ bufs offset, io = .write bufs offset := by
  cases io with
  | read bufs offset =>
    obtain ⟨⟨-, -, hsize⟩, hsome, -⟩ := h
    omega
  | write bufs offset => exact ⟨bufs, offset, rfl⟩

theorem Transfer.ne_nil (h : Transfer fl f io pos size) (hfit : pos + size ≤ f.file.length) : f.file ≠ [] := by
  intro h0
  rw [h0, length_nil] at hfit
  have := h.some
  omega

theorem Transfer.moves (h : Transfer fl f io pos size) :
    (f.step fl io.req).1.pos = if io.offset.isNone then pos + size else f.pos := by
  cases io with
  | read bufs offset =>
    rw [Io.req, h.read]
    rfl
  | write bufs offset =>
    rw [Io.req, h.write]
    rfl

theorem Transfer.length (h : Transfer fl f io pos size) : (f.step fl io.req).1.file.length = max (pos + size) f.file.length := by
  cases io with
  | read bufs offset =>
    obtain ⟨-, -, hsize⟩ := h.sized
    have hsome := h.some
    rw [Io.req, h.read]
    dsimp only
    omega
  | write bufs offset =>
    obtain ⟨-, -, hsize⟩ := h.sized
    rw [Io.req, h.write, hsize]
    exact length_write 0 f.file pos bufs.flatten

theorem read_nothing {bufs : List ℕ} {offset : Option ℕ} (hb : bufs ≠ []) (hrw : fl.rw ≠ .wronly)
    (hnil : FlatFile.read f.file (offset.getD f.pos) (total bufs) = []) :
    f.step fl (.read bufs offset) = (f, .ok 0, untouched bufs) := by
  simp only [OpenFile.step, if_neg hb, if_neg hrw, hnil, scatter_nil]
  cases offset with
  | none | some p => rfl

section
variable {entry : Info} (hflags : entry.flags = fl) (hplain : entry.isDirectory = false)
include hflags hplain

theorem plan_done {result : Result} {placed : List (List UInt8)} (hsize : f.file.length ≤ entry.size)
    (hpos : entry.currentPos = f.pos ∨ entry.currentPos < entry.size) (h : plan entry io = .done result placed) :
    f.step fl io.req = (f, result, placed) := by
  cases io with
  | read bufs offset =>
    rw [plan, planRead, hflags, hplain] at h
    by_cases hb : bufs = []
    · rw [if_pos hb] at h
      cases h
      rw [Io.req, OpenFile.step, if_pos hb]
    by_cases hrw : fl.rw = .wronly
    · rw [if_neg hb, if_pos hrw] at h
      cases h
      rw [Io.req, OpenFile.step, if_neg hb, if_pos hrw]
    simp only [if_neg hb, if_neg hrw, Bool.false_eq_true, if_false] at h
    by_cases hend : entry.size ≤ offset.getD entry.currentPos
    · rw [if_pos hend] at h
      cases h
      apply read_nothing hb hrw
      apply read_eq_nil
      cases offset with
      | none =>
        change entry.size ≤ entry.currentPos at hend
        change f.file.length ≤ f.pos
        omega
      | some p => exact Nat.le_trans hsize hend
    · rw [if_neg hend] at h
      by_cases hzero : min (total bufs) (entry.size - offset.getD entry.currentPos) = 0
      · rw [if_pos hzero] at h
        cases h
        have htotal : total bufs = 0 := by omega
        apply read_nothing hb hrw
        rw [htotal]
        exact read_zero _ _
      · rw [if_neg hzero] at h
        cases h
  | write bufs offset =>
    rw [plan, planWrite, hflags, hplain] at h
    by_cases hb : bufs = []
    · rw [if_pos hb] at h
      cases h
      rw [Io.req, OpenFile.step, if_pos hb]
    by_cases hrw : fl.rw = .rdonly
    · rw [if_neg hb, if_pos hrw] at h
      cases h
      rw [Io.req, OpenFile.step, if_neg hb, if_pos hrw]
    simp only [if_neg hb, if_neg hrw, Bool.false_eq_true, if_false, total_map_length] at h
    by_cases hzero : bufs.flatten.length = 0
    · rw [if_pos hzero] at h
      cases h
      rw [Io.req, OpenFile.step, if_neg hb, if_neg hrw, if_pos (length_eq_zero_iff.mp hzero)]
    · split_ifs at h

theorem plan_transfer (hsize : entry.size = f.file.length) (hpos : io.offset = none → entry.currentPos = f.pos) :
    (∃ result placed, plan entry io = .done result placed) ∨ ∃ pos size, Transfer fl f io pos size ∧
      (plan entry io = .view entry pos size false ∧ pos + size ≤ f.file.length ∨
        f.file.length < pos + size ∧ (plan entry io = .replace entry pos size ∧ entry.mapping.isSome ∨
          plan entry io = .create entry pos size ∧ entry.mapping = none)) := by
  cases io with
  | read bufs offset =>
    have htarget : offset.getD entry.currentPos = offset.getD f.pos := by
      cases offset with
      | none => exact hpos rfl
      | some p => rfl
    rw [plan, planRead, hflags, hplain, hsize, htarget]
    by_cases hb : bufs = []
    · rw [if_pos hb]
      exact .inl ⟨_, _, rfl⟩
    by_cases hrw : fl.rw = .wronly
    · rw [if_neg hb, if_pos hrw]
      exact .inl ⟨_, _, rfl⟩
    simp only [if_neg hb, if_neg hrw, Bool.false_eq_true, if_false]
    by_cases hend : f.file.length ≤ offset.getD f.pos
    · rw [if_pos hend]
      exact .inl ⟨_, _, rfl⟩
    by_cases hzero : min (total bufs) (f.file.length - offset.getD f.pos) = 0
    · rw [if_neg hend, if_pos hzero]
      exact .inl ⟨_, _, rfl⟩
    · rw [if_neg hend, if_neg hzero]
      exact .inr ⟨_, _, ⟨⟨hb, hrw, rfl⟩, Nat.pos_of_ne_zero hzero, rfl⟩, .inl ⟨rfl, by omega⟩⟩
  | write bufs offset =>
    have htarget : (if fl.append = true then f.file.length else offset.getD entry.currentPos) =
        if fl.append = true then f.file.length else offset.getD f.pos := by
      cases offset with
      | none => rw [hpos rfl]
      | some p => rfl
    rw [plan, planWrite, hflags, hplain, hsize]
    by_cases hb : bufs = []
    · rw [if_pos hb]
      exact .inl ⟨_, _, rfl⟩
    by_cases hrw : fl.rw = .rdonly
    · rw [if_neg hb, if_pos hrw]
      exact .inl ⟨_, _, rfl⟩
    simp only [if_neg hb, if_neg hrw, Bool.false_eq_true, if_false, total_map_length]
    by_cases hzero : bufs.flatten.length = 0
    · rw [if_pos hzero]
      exact .inl ⟨_, _, rfl⟩
    rw [if_neg hzero, htarget]
    refine .inr ⟨_, _, ⟨⟨hb, hrw, rfl⟩, Nat.pos_of_ne_zero hzero, rfl⟩, ?_⟩
    by_cases hgrow : f.file.length < (if fl.append = true then f.file.length else offset.getD f.pos) + bufs.flatten.length
    · rw [if_pos hgrow]
      refine .inr ⟨hgrow, ?_⟩
      cases hm : entry.mapping with
      | none => exact .inr ⟨rfl, rfl⟩
      | some a => exact .inl ⟨rfl, rfl⟩
    · rw [if_neg hgrow]
      exact .inl ⟨rfl, Nat.not_lt.mp hgrow⟩

end
end

section
variable {fl : Flags} {f f' : OpenFile} {file file' : List UInt8} {maps maps' : ℕ → Option (ℕ × Section)} {entry : Info}
  {io : Io} {p : Phase} {pos size : ℕ}

theorem Transfer.congr (h : Transfer fl f io pos size) (hlen : f'.file.length = f.file.length)
    (hpos : io.offset = none → f'.pos = f.pos) : Transfer fl f' io pos size := by
  refine ⟨?_, h.some, h.aim.trans ?_⟩
  · have hsized := h.sized
    cases io with
    | read bufs offset =>
      rw [Sized, hlen]
      exact hsized
    | write bufs offset => exact hsized
  · cases io with
    | read bufs offset =>
      cases offset with
      | none => exact (hpos rfl).symm
      | some q => rfl
    | write bufs offset =>
      rw [target, target, hlen]
      cases offset with
      | none => rw [hpos rfl]
      | some q => rfl

theorem Transfer.pos_le (h : Transfer fl f io pos size) (hpos : f.pos ≤ f.file.length) (hnone : io.offset = none) :
    f.pos ≤ pos := by
  rw [h.aim]
  cases io with
  | read bufs offset =>
    change offset = none at hnone
    rw [hnone]
    exact Nat.le_refl _
  | write bufs offset =>
    change offset = none at hnone
    rw [hnone, target]
    split_ifs
    · exact hpos
    · exact Nat.le_refl _

theorem Phase.Resting.not_replacing (h : p.Resting) : ¬ p.Replacing := by
  intro hf
  cases p with
  | idle | done result placed => exact hf
  | _ => exact h

theorem Phase.Resting.not_writer (h : p.Resting) : ¬ p.Writer io := by
  intro hf
  cases p with
  | idle | done result placed => exact hf
  | _ => exact h

theorem Phase.Replacing.writer (h : p.Replacing) : p.Writer io := by
  cases p with
  | view info pos size grown => exact .inl h
  | create info pos size | publish info pos size | failed info error => exact h
  | _ => exact absurd h not_false

theorem Phase.Replacing.not_taken (h : p.Replacing) : ¬ p.Taken := by
  intro hf
  cases p with
  | store info result placed | done result placed => exact h
  | _ => exact hf

theorem PhaseOk.resting (h : p.Resting) : PhaseOk fl f file maps entry io p := by
  cases p with
  | idle | done result placed => exact h
  | _ => exact absurd h not_false

theorem PhaseOk.frame (h : PhaseOk fl f file maps entry io p) (hr : ¬ p.Replacing) (hlen : f'.file.length = f.file.length)
    (hpos : f'.pos = f.pos ∨ ¬ p.Writer io) : PhaseOk fl f' file' maps entry io p := by
  cases p with
  | idle => exact h
  | replace info pos size =>
    have heq : f'.pos = f.pos := hpos.resolve_right fun hf => hf trivial
    obtain ⟨hinfo, hmapping, htransfer, hgrow⟩ := h
    exact ⟨hinfo, hmapping, htransfer.congr hlen fun _ => heq, by rw [hlen]; exact hgrow⟩
  | create info pos size | publish info pos size => exact absurd trivial hr
  | failed info error => exact h
  | view info pos size grown =>
    cases grown with
    | true => exact absurd rfl hr
    | false =>
      obtain ⟨hmapping, hinfo, htransfer, hfit⟩ := h
      refine ⟨hmapping, hinfo, htransfer.congr hlen ?_, by rw [hlen]; exact hfit⟩
      intro hnone
      exact hpos.resolve_right fun hf => hf (.inr hnone)
  | store info result placed =>
    have heq : f'.pos = f.pos := hpos.resolve_right fun hf => hf trivial
    obtain ⟨hnone, hinfo, hlt⟩ := h
    exact ⟨hnone, by rw [heq]; exact hinfo, hlt⟩
  | done result placed | undefined => exact h

theorem PhaseOk.store (h : PhaseOk fl f file maps entry io p) (hw : ¬ p.Writer io) (q : ℕ) :
    PhaseOk fl f file maps { entry with currentPos := q } io p := by
  cases p with
  | view info pos size grown =>
    cases grown with
    | true => exact absurd (.inl rfl) hw
    | false =>
      obtain ⟨hmapping, -, htransfer, hfit⟩ := h
      exact ⟨hmapping, fun hnone => absurd (.inr hnone) hw, htransfer, hfit⟩
  | idle | done result placed | undefined | failed info error => exact h
  | replace info pos size | create info pos size | publish info pos size | store info result placed => exact absurd trivial hw

end

/-! ### Fetching the entry -/

section
variable {fl : Flags} {f₀ f : OpenFile} {ios : ℕ → Io} {trace : List (ℕ × Outcome)} {s s' : State} {i : ℕ} {g : ℕ}

def Good (fl : Flags) (f₀ : OpenFile) (ios : ℕ → Io) (s : State) : Prop :=
  ∃ trace f, Inv fl ios s f ∧ Linear fl f₀ ios trace f s.phase

theorem Inv.currentPos (hi : Inv fl ios s f) (hw : ∀ j, ¬ (s.phase j).Writer (ios j)) : s.entry.currentPos = f.pos := by
  obtain hpos | ⟨j, info, result, placed, hj⟩ := hi.pos
  · exact hpos
  · refine absurd ?_ (hw j)
    rw [hj]
    trivial

theorem Inv.currentPos_lt (hi : Inv fl ios s f) : s.entry.currentPos = f.pos ∨ s.entry.currentPos < s.entry.size := by
  obtain hpos | ⟨j, info, result, placed, hj⟩ := hi.pos
  · exact .inl hpos
  · have hok := hi.phases j
    rw [hj] at hok
    exact .inr hok.2.2

variable {p : Phase} {info : Info} {pos size : ℕ} {grown : Bool}

theorem Inv.begin (hi : Inv fl ios s f) (hidle : s.phase i = .idle)
    (hp : PhaseOk fl f s.os.file s.maps s.entry (ios i) p) (hreplacing : p.Replacing → ∀ j, (s.phase j).Resting)
    (hbusy : ¬ p.Resting → ∀ j, ¬ (s.phase j).Replacing)
    (hwriter : p.Writer (ios i) → ∀ j, ¬ (s.phase j).Writer (ios j)) : Inv fl ios (s.setPhase i p) f := by
  refine ⟨hi.flags, hi.plain, hi.readable, hi.writable, hi.posLe, hi.sizeLe, ?_, ?_, ?_, ?_, ?_⟩
  · obtain hpos | ⟨j, info, result, placed, hj⟩ := hi.pos
    · exact .inl hpos
    · refine .inr ⟨j, info, result, placed, ?_⟩
      have hne : j ≠ i := by
        intro hji
        rw [hji, hidle] at hj
        cases hj
      exact (upd_ne hne).trans hj
  · intro j
    change PhaseOk fl f s.os.file s.maps s.entry (ios j) (upd s.phase i p j)
    by_cases hj : j = i
    · rw [hj, upd_self]
      exact hp
    · rw [upd_ne hj]
      exact hi.phases j
  · intro hnone
    apply hi.shown
    intro j
    by_cases hj : j = i
    · rw [hj, hidle]
      exact not_false
    · have := hnone j
      change ¬ (upd s.phase i p j).Replacing at this
      rwa [upd_ne hj] at this
  · intro j hr k hk
    change (upd s.phase i p j).Replacing at hr
    change (upd s.phase i p k).Resting
    by_cases hj : j = i
    · rw [hj, upd_self] at hr
      rw [upd_ne (hj ▸ hk)]
      exact hreplacing hr k
    · rw [upd_ne hj] at hr
      by_cases hki : k = i
      · rw [hki, upd_self]
        by_contra hbad
        exact hbusy hbad j hr
      · rw [upd_ne hki]
        exact hi.alone j hr k hk
  · intro j k hj hk
    change (upd s.phase i p j).Writer (ios j) at hj
    change (upd s.phase i p k).Writer (ios k) at hk
    by_cases hji : j = i
    · by_cases hki : k = i
      · rw [hji, hki]
      · rw [hji, upd_self] at hj
        rw [upd_ne hki] at hk
        exact absurd hk (hwriter hj k)
    · rw [upd_ne hji] at hj
      by_cases hki : k = i
      · rw [hki, upd_self] at hk
        exact absurd hj (hwriter hk j)
      · rw [upd_ne hki] at hk
        exact hi.single j k hj hk

theorem plan_phase (entry : Info) (io : Io) : (∃ result placed, plan entry io = .done result placed) ∨
    (∃ pos size, plan entry io = .view entry pos size false) ∨ (∃ pos size, plan entry io = .replace entry pos size) ∨
    ∃ pos size, plan entry io = .create entry pos size := by
  cases io with
  | read bufs offset =>
    rw [plan, planRead]
    dsimp only
    split_ifs
    · exact .inl ⟨_, _, rfl⟩
    · exact .inl ⟨_, _, rfl⟩
    · exact .inl ⟨_, _, rfl⟩
    · exact .inl ⟨_, _, rfl⟩
    · exact .inl ⟨_, _, rfl⟩
    · exact .inr (.inl ⟨_, _, rfl⟩)
  | write bufs offset =>
    rw [plan, planWrite]
    generalize (if entry.flags.append = true then entry.size else offset.getD entry.currentPos) = pos
    dsimp only
    split_ifs
    · exact .inl ⟨_, _, rfl⟩
    · exact .inl ⟨_, _, rfl⟩
    · exact .inl ⟨_, _, rfl⟩
    · exact .inl ⟨_, _, rfl⟩
    · exact .inr (.inr (.inl ⟨_, _, rfl⟩))
    · exact .inr (.inr (.inr ⟨_, _, rfl⟩))
    · exact .inr (.inl ⟨_, _, rfl⟩)

theorem Locked.fetched (hlock : Locked ios s (.fetch i))
    (hbusy : ¬ ∃ result placed, plan s.entry (ios i) = .done result placed) :
    (∀ j, ¬ (s.phase j).Replacing) ∧ ((ios i).offset = none → ∀ j, ¬ (s.phase j).Writer (ios j)) := by
  rw [Locked] at hlock
  obtain hdone | ⟨pos, size, hplan⟩ | ⟨pos, size, hplan⟩ | ⟨pos, size, hplan⟩ := plan_phase s.entry (ios i)
  · exact absurd hdone hbusy
  · rw [hplan] at hlock
    exact hlock
  · rw [hplan] at hlock
    exact ⟨fun j hj => hlock j hj.writer, fun _ => hlock⟩
  · rw [hplan] at hlock
    exact ⟨fun j => (hlock j).not_replacing, fun _ j => (hlock j).not_writer⟩

theorem fetch_inv (hi : Inv fl ios s f) (hl : Linear fl f₀ ios trace f s.phase) (hlock : Locked ios s (.fetch i))
    (h : s.fetch i (ios i) = some s') : Good fl f₀ ios s' := by
  have hidle : s.phase i = .idle := by
    rw [State.fetch] at h
    split at h
    · assumption
    · cases h
  rw [State.fetch, hidle] at h
  cases Option.some.inj h
  have hkeep {p : Phase} (ht : ¬ p.Taken) : Linear fl f₀ ios trace f (upd s.phase i p) := by
    apply hl.keep
    · rw [hidle]
      exact iff_of_false ht not_false
    · intro o ho
      rw [hidle] at ho
      exact absurd ho not_false
  by_cases hdone : ∃ result placed, plan s.entry (ios i) = .done result placed
  · obtain ⟨result, placed, hplan⟩ := hdone
    have hstep := plan_done hi.flags hi.plain hi.sizeLe hi.currentPos_lt hplan
    rw [hplan]
    have hinv : Inv fl ios (s.setPhase i (.done result placed)) f := by
      apply hi.begin hidle
      · trivial
      · exact fun hf => absurd hf not_false
      · exact fun hf => absurd trivial hf
      · exact fun hf => absurd hf not_false
    refine ⟨trace ++ [(i, OpenFile.outcome (f, result, placed))], f, hinv, ?_⟩
    have htake : Linear fl f₀ ios (trace ++ [(i, OpenFile.outcome (f.step fl (ios i).req))]) (f.step fl (ios i).req).1
        (upd s.phase i (.done result placed)) := by
      apply hl.take
      · rw [hidle]
        exact not_false
      · trivial
      · rw [hstep]
        exact ⟨rfl, rfl⟩
    rw [hstep] at htake
    exact htake
  · obtain ⟨hnone, hwriter⟩ := Locked.fetched hlock hdone
    have hshown := hi.shown hnone
    obtain hbad | ⟨pos, size, htransfer, hplan⟩ :=
      plan_transfer hi.flags hi.plain hshown.size fun hoff => hi.currentPos (hwriter hoff)
    · exact absurd hbad hdone
    rw [Locked] at hlock
    obtain ⟨hplan, hfit⟩ | ⟨hgrow, ⟨hplan, hmapping⟩ | ⟨hplan, hmapping⟩⟩ := hplan
    · rw [hplan] at hlock ⊢
      refine ⟨trace, f, ?_, hkeep not_false⟩
      apply hi.begin hidle
      · exact ⟨rfl, fun _ => rfl, htransfer, hfit⟩
      · intro hf
        cases hf
      · exact fun _ => hnone
      · intro hw
        obtain hf | hoff := hw
        · cases hf
        · exact hwriter hoff
    · rw [hplan] at hlock ⊢
      refine ⟨trace, f, ?_, hkeep not_false⟩
      apply hi.begin hidle
      · exact ⟨rfl, hmapping, htransfer, hgrow⟩
      · exact fun hf => absurd hf not_false
      · exact fun _ => hnone
      · exact fun _ => hlock
    · rw [hplan] at hlock ⊢
      refine ⟨trace, f, ?_, hkeep not_false⟩
      apply hi.begin hidle
      · exact ⟨rfl, hshown.file, htransfer, hgrow⟩
      · exact fun _ => hlock
      · exact fun _ => hnone
      · exact fun _ j => (hlock j).not_writer

/-! ### Replacing the mapping -/

theorem Inv.currentPos_alone (hi : Inv fl ios s f) (hrest : ∀ j, j ≠ i → (s.phase j).Resting) (hs : ¬ (s.phase i).Taken) :
    s.entry.currentPos = f.pos := by
  obtain hpos | ⟨j, info, result, placed, hj⟩ := hi.pos
  · exact hpos
  · have hne : j ≠ i := by
      intro hji
      rw [← hji, hj] at hs
      exact hs trivial
    have hres := hrest j hne
    rw [hj] at hres
    exact absurd hres not_false

theorem Inv.rest (hi : Inv fl ios s f) (hr : (s.phase i).Replacing) :
    (∀ j, j ≠ i → (s.phase j).Resting) ∧ s.entry.currentPos = f.pos :=
  ⟨hi.alone i hr, hi.currentPos_alone (hi.alone i hr) hr.not_taken⟩

theorem Inv.replacing (hi : Inv fl ios s f) {o : Os} {maps : ℕ → Option (ℕ × Section)} {born : ℕ} {entry : Info}
    (hrest : ∀ j, j ≠ i → (s.phase j).Resting) (ho : o.access = s.os.access) (hflags : entry.flags = fl)
    (hplain : entry.isDirectory = false) (hsize : f.file.length ≤ entry.size) (hpos : entry.currentPos = f.pos)
    (hr : p.Replacing) (hp : PhaseOk fl f o.file maps entry (ios i) p) :
    Inv fl ios ⟨o, maps, born, entry, upd s.phase i p⟩ f := by
  have hothers (j : ℕ) (hj : j ≠ i) : (upd s.phase i p j).Resting := by
    rw [upd_ne hj]
    exact hrest j hj
  refine ⟨hflags, hplain, ?_, ?_, hi.posLe, hsize, .inl hpos, ?_, ?_, ?_, ?_⟩
  · rw [ho]
    exact hi.readable
  · rw [ho]
    exact hi.writable
  · intro j
    dsimp only
    by_cases hj : j = i
    · rw [hj, upd_self]
      exact hp
    · exact PhaseOk.resting (hothers j hj)
  · intro hnone
    refine absurd ?_ (hnone i)
    change (upd s.phase i p i).Replacing
    rw [upd_self]
    exact hr
  · intro j hj k hk
    have hji : j = i := by
      by_contra hne
      exact (hothers j hne).not_replacing hj
    exact hothers k (hji ▸ hk)
  · intro j k hj hk
    by_contra hne
    by_cases hji : j = i
    · have hki : k ≠ i := fun hki => hne (hji.trans hki.symm)
      exact (hothers k hki).not_writer hk
    · exact (hothers j hji).not_writer hj

theorem Linear.busy (hl : Linear fl f₀ ios trace f s.phase) (hi : ¬ (s.phase i).Taken) (hp : ¬ p.Taken) :
    Linear fl f₀ ios trace f (upd s.phase i p) := by
  apply hl.keep (iff_of_false hp hi)
  intro o ho
  refine absurd ?_ hi
  cases hphase : s.phase i with
  | store info result placed | done result placed => trivial
  | _ =>
    rw [hphase] at ho
    exact absurd ho not_false

theorem closeHandle_eq (s : State) (h : Handle) : ∃ o maps, s.closeHandle h = { s with os := o, maps := maps } ∧
    o.access = s.os.access ∧ o.file = s.os.file := by
  rw [State.closeHandle]
  split_ifs
  · exact ⟨_, _, rfl, rfl, rfl⟩
  · exact ⟨_, _, rfl, rfl, rfl⟩

theorem close_inv (hi : Inv fl ios s f) (hl : Linear fl f₀ ios trace f s.phase) (hlock : Locked ios s (.close i))
    (h : s.close i = some s') : Good fl f₀ ios s' := by
  rw [State.close] at h
  split at h
  · rename_i info pos size hphase
    obtain ⟨a, ha, h⟩ := Option.bind_eq_some_iff.mp h
    cases Option.some.inj h
    have hok := hi.phases i
    rw [hphase] at hok
    obtain ⟨hinfo, hmapping, htransfer, hgrow⟩ := hok
    have hnone (j : ℕ) : ¬ (s.phase j).Replacing := by
      by_cases hj : j = i
      · rw [hj, hphase]
        exact not_false
      · exact (hlock j hj).not_replacing
    have hshown := hi.shown hnone
    have hpos := hi.currentPos_alone hlock (by rw [hphase]; intro hf; exact hf)
    obtain ⟨o, maps, heq, haccess, hfile⟩ := closeHandle_eq s a
    rw [heq]
    refine ⟨trace, f, ?_, ?_⟩
    · apply hi.replacing hlock haccess hi.flags hi.plain hi.sizeLe hpos
      · trivial
      · exact ⟨hinfo, hfile.trans hshown.file, htransfer, hgrow⟩
    · apply hl.busy
      · rw [hphase]
        exact not_false
      · exact not_false
  · cases h

theorem createFileMapping_ok {o : Os} {n : ℕ} (hr : o.access.readData = true) (hw : o.access.writeData = true)
    (hn : o.file.length < n) : o.createFileMapping true n =
      ({ o with file := resize 0 o.file n, sections := o.sections + 1 }, .ok ⟨n, true⟩) := by
  have h0 : n ≠ 0 := by omega
  rw [Os.createFileMapping]
  simp only [hr, hw, if_neg h0, if_neg (Nat.not_le.mpr hn)]
  rfl

theorem create_inv {v : ℕ} (hi : Inv fl ios s f) (hl : Linear fl f₀ ios trace f s.phase) (h : s.create i v = some s') :
    Good fl f₀ ios s' := by
  rw [State.create] at h
  split at h
  · rename_i info pos size hphase
    have hok := hi.phases i
    rw [hphase] at hok
    obtain ⟨hinfo, hfile, htransfer, hgrow⟩ := hok
    have hreplacing : (s.phase i).Replacing := by
      rw [hphase]
      trivial
    obtain ⟨hrest, hpos⟩ := hi.rest hreplacing
    have hmode : fl.rw ≠ .rdonly := by
      obtain ⟨bufs, offset, hio⟩ := htransfer.write_of_lt hgrow
      have hsized := htransfer.sized
      rw [hio] at hsized
      exact hsized.2.1
    have hcreate := createFileMapping_ok hi.readable (hi.writable hmode) (n := pos + size) (by rw [hfile]; exact hgrow)
    rw [hcreate] at h
    split_ifs at h
    cases Option.some.inj h
    refine ⟨trace, f, ?_, ?_⟩
    · apply hi.replacing hrest
      · rfl
      · exact hi.flags
      · exact hi.plain
      · exact hi.sizeLe
      · exact hpos
      · trivial
      · rw [hinfo]
        refine ⟨rfl, ⟨_, rfl, if_pos rfl⟩, ?_, htransfer, hgrow⟩
        rw [← hfile]
    · exact hl.busy hreplacing.not_taken not_false
  · cases h

/-! ### The table -/

theorem publish_inv (hi : Inv fl ios s f) (hl : Linear fl f₀ ios trace f s.phase)
    (hphase : s.phase i = .publish info pos size) :
    Good fl f₀ ios ({ s with entry := info }.setPhase i (.view info pos size true)) := by
  have hok := hi.phases i
  rw [hphase] at hok
  obtain ⟨hinfo, hhandle, hfile, htransfer, hgrow⟩ := hok
  have hreplacing : (s.phase i).Replacing := by
    rw [hphase]
    trivial
  obtain ⟨hrest, hpos⟩ := hi.rest hreplacing
  have hsize : info.size = pos + size := by rw [hinfo]
  refine ⟨trace, f, ?_, ?_⟩
  · apply hi.replacing hrest
    · rfl
    · rw [hinfo]
      exact hi.flags
    · rw [hinfo]
      exact hi.plain
    · rw [hsize]
      exact hgrow.le
    · rw [hinfo]
      exact hpos
    · rfl
    · exact ⟨rfl, hsize, hhandle, hfile, htransfer, hgrow⟩
  · exact hl.busy hreplacing.not_taken not_false

theorem store_inv (hi : Inv fl ios s f) (hl : Linear fl f₀ ios trace f s.phase) {result : Result}
    {placed : List (List UInt8)} (hphase : s.phase i = .store info result placed) :
    Good fl f₀ ios ({ s with entry := info }.setPhase i (.done result placed)) := by
  have hok := hi.phases i
  rw [hphase] at hok
  obtain ⟨-, hinfo, -⟩ := hok
  have hwriter : (s.phase i).Writer (ios i) := by
    rw [hphase]
    trivial
  have hother (j : ℕ) (hj : j ≠ i) : ¬ (s.phase j).Writer (ios j) := fun hf => hj (hi.single j i hf hwriter)
  have hdone (j : ℕ) : (upd s.phase i (.done result placed) j).Replacing ↔ (s.phase j).Replacing := by
    by_cases hj : j = i
    · rw [hj, upd_self, hphase]
      exact Iff.rfl
    · rw [upd_ne hj]
  refine ⟨trace, f, ?_, ?_⟩
  · rw [hinfo]
    refine ⟨hi.flags, hi.plain, hi.readable, hi.writable, hi.posLe, hi.sizeLe, .inl rfl, ?_, ?_, ?_, ?_⟩
    · intro j
      change PhaseOk fl f s.os.file s.maps { s.entry with currentPos := f.pos } (ios j) (upd s.phase i (.done result placed) j)
      by_cases hj : j = i
      · rw [hj, upd_self]
        trivial
      · rw [upd_ne hj]
        exact (hi.phases j).store (hother j hj) f.pos
    · intro hnone
      obtain ⟨hfile, hsize, hunmapped, hmapped⟩ := hi.shown fun j hj => hnone j ((hdone j).mpr hj)
      exact ⟨hfile, hsize, hunmapped, hmapped⟩
    · intro j hj
      have hjr := (hdone j).mp hj
      have hji : i ≠ j := by
        intro hij
        rw [← hij, hphase] at hjr
        exact hjr
      have hres := hi.alone j hjr i hji
      rw [hphase] at hres
      exact absurd hres not_false
    · intro j k hj hk
      change (upd s.phase i (.done result placed) j).Writer (ios j) at hj
      have hji : j ≠ i := by
        intro hji
        rw [hji, upd_self] at hj
        exact hj
      rw [upd_ne hji] at hj
      exact absurd hj (hother j hji)
  · apply hl.keep
    · rw [hphase]
      exact Iff.rfl
    · intro o ho
      rw [hphase] at ho
      exact ho

theorem add_inv (hi : Inv fl ios s f) (hl : Linear fl f₀ ios trace f s.phase) (h : s.add i = some s') :
    Good fl f₀ ios s' := by
  rw [State.add] at h
  split at h
  · rename_i info pos size hphase
    cases Option.some.inj h
    exact publish_inv hi hl hphase
  · rename_i info e hphase
    have hok := hi.phases i
    rw [hphase] at hok
    exact absurd hok not_false
  · rename_i info result placed hphase
    cases Option.some.inj h
    exact store_inv hi hl hphase
  · cases h

/-! ### The view -/

theorem sectionOf_some {h : Option Handle} {m : Section} (hm : HandleOf s.maps h m) : s.sectionOf h = some m := by
  obtain ⟨a, rfl, ha⟩ := hm
  rw [State.sectionOf]
  simp only [Option.bind_eq_bind, Option.bind_some, ha]
  rfl

theorem viewRead_eq (offset : Option ℕ) {bufs : List ℕ} {m : Section}
    (hm : HandleOf s.maps info.mapping m) (hfit : pos + size ≤ m.size) (hfile : pos + size ≤ s.os.file.length)
    (hsize : size = min (total bufs) (s.os.file.length - pos)) :
    s.viewRead g i info pos size bufs offset =
      s.setPhase i (moved info offset (pos + size) (.ok size) (scatter bufs (FlatFile.read s.os.file pos (total bufs)))) := by
  have hcopy := copyOut_spec (o := s.os) (pos - pos % g) (pos % g) size (by rwa [view_offset]) bufs 0 (Nat.zero_le _)
    (by omega)
  rw [view_offset, Nat.add_zero, Nat.sub_zero, hsize, read_min, ← hsize] at hcopy
  rw [State.viewRead, sectionOf_some hm, mapViewOfFile_ok (fun hf => by cases hf) hfit]
  simp [hcopy]

theorem viewWrite_eq (offset : Option ℕ) {bufs : List (List UInt8)} {n : ℕ}
    (hm : HandleOf s.maps info.mapping ⟨n, true⟩) (hfit : pos + size ≤ n) (hfile : pos + size ≤ s.os.file.length)
    (hsize : size = bufs.flatten.length) :
    s.viewWrite g i info pos size bufs offset =
      { s with os := { s.os with file := FlatFile.write 0 s.os.file pos bufs.flatten } }.setPhase i
        (moved info offset (pos + size) (.ok size) []) := by
  have hcopy := copyIn_spec (o := s.os) (pos - pos % g) (pos % g) size bufs 0 (by rwa [view_offset]) (by omega)
  rw [view_offset] at hcopy
  rw [State.viewWrite, sectionOf_some hm, mapViewOfFile_ok (fun _ => rfl) hfit]
  simp [hcopy]

/-- With the request's turn in the order, a view does what is meant. -/
structure Viewed (fl : Flags) (f : OpenFile) (s : State) (io : Io) (info : Info) (pos size : ℕ) (grown : Bool) : Prop where
  transfer : Transfer fl f io pos size
  entry : io.offset = none → info = s.entry
  fits : pos + size ≤ s.entry.size
  length : (f.step fl io.req).1.file.length = s.entry.size
  handle : HandleOf s.maps info.mapping ⟨s.entry.size, decide (fl.rw ≠ .rdonly)⟩
  same : info.mapping = s.entry.mapping
  file : s.os.file = if grown then resize 0 f.file (pos + size) else f.file
  grows : grown = true → f.file.length < pos + size ∧ s.entry.size = pos + size
  within : grown = false → pos + size ≤ f.file.length ∧ s.entry.size = f.file.length

theorem Inv.viewed (hi : Inv fl ios s f)
    (hphase : s.phase i = .view info pos size grown) :
    Viewed fl f s (ios i) info pos size grown := by
  have hok := hi.phases i
  rw [hphase] at hok
  cases grown with
  | true =>
    obtain ⟨hinfo, hsize, hhandle, hfile, htransfer, hgrow⟩ := hok
    have hmode : decide (fl.rw ≠ .rdonly) = true := by
      obtain ⟨bufs, offset, hio⟩ := htransfer.write_of_lt hgrow
      have hsized := htransfer.sized
      rw [hio] at hsized
      exact decide_eq_true hsized.2.1
    refine ⟨htransfer, fun _ => hinfo, hsize.ge, ?_, ?_, ?_, hfile, fun _ => ⟨hgrow, hsize⟩, fun hf => by cases hf⟩
    · rw [htransfer.length, hsize]
      exact max_eq_left hgrow.le
    · rw [hmode, hinfo, hsize]
      exact hhandle
    · rw [hinfo]
  | false =>
    obtain ⟨hmapping, hinfo, htransfer, hfit⟩ := hok
    have hnone (j : ℕ) : ¬ (s.phase j).Replacing := by
      intro hj
      have hji : i ≠ j := by
        intro hij
        rw [← hij, hphase] at hj
        cases hj
      have hres := hi.alone j hj i hji
      rw [hphase] at hres
      exact hres
    have hshown := hi.shown hnone
    refine ⟨htransfer, hinfo, ?_, ?_, ?_, hmapping, hshown.file, fun hf => (by cases hf), fun _ => ⟨hfit, hshown.size⟩⟩
    · rw [hshown.size]
      exact hfit
    · rw [htransfer.length, hshown.size]
      exact max_eq_right hfit
    · rw [hmapping, hshown.size]
      exact hshown.mapped (htransfer.ne_nil hfit)

theorem Viewed.view {io : Io} (hv : Viewed fl f s io info pos size grown)
    (hphase : s.phase i = .view info pos size grown) (g : ℕ) :
    s.view g i io = some ({ s with os := { s.os with file := (f.step fl io.req).1.file } }.setPhase i
      (moved info io.offset (pos + size) (f.step fl io.req).2.1 (f.step fl io.req).2.2)) := by
  have hfits := hv.fits
  cases io with
  | read bufs offset =>
    have hgrown : grown = false := by
      cases hg : grown with
      | false => rfl
      | true =>
        obtain ⟨bufs', offset', hio⟩ := hv.transfer.write_of_lt (hv.grows hg).1
        cases hio
    obtain ⟨hfit, hsize⟩ := hv.within hgrown
    have hfile : s.os.file = f.file := by
      have := hv.file
      rwa [hgrown] at this
    have hread := viewRead_eq (g := g) (i := i) offset hv.handle hfits (by rw [hfile]; exact hfit)
      (by rw [hfile]; exact hv.transfer.sized.2.2)
    rw [State.view, hphase]
    dsimp only
    rw [hread, Io.req, hv.transfer.read, hfile]
    have hos : ({ s with os := { s.os with file := f.file } } : State) = s := by
      rw [← hfile]
    rw [hos]
    rfl
  | write bufs offset =>
    obtain ⟨hb, hrw, hsize⟩ := hv.transfer.sized
    have hhandle := hv.handle
    rw [decide_eq_true hrw] at hhandle
    have hlen : pos + size ≤ s.os.file.length ∧
        FlatFile.write 0 s.os.file pos bufs.flatten = FlatFile.write 0 f.file pos bufs.flatten := by
      rw [hv.file]
      cases hg : grown with
      | true =>
        have hgrow := (hv.grows hg).1
        rw [if_pos rfl, length_resize]
        refine ⟨Nat.le_refl _, ?_⟩
        rw [hsize] at hgrow ⊢
        exact write_resize 0 hgrow.le
      | false => exact ⟨(hv.within hg).1, rfl⟩
    have hwrite := viewWrite_eq (g := g) (i := i) offset hhandle hfits hlen.1 hsize
    rw [State.view, hphase]
    dsimp only
    rw [hwrite, Io.req, hv.transfer.write, hlen.2]
    rfl

theorem Inv.currentPos_writer (hi : Inv fl ios s f) (hw : (s.phase i).Writer (ios i)) (hs : ¬ (s.phase i).Taken) :
    s.entry.currentPos = f.pos := by
  obtain hpos | ⟨j, info, result, placed, hj⟩ := hi.pos
  · exact hpos
  · have hwj : (s.phase j).Writer (ios j) := by
      rw [hj]
      trivial
    rw [hi.single i j hw hwj, hj] at hs
    exact absurd trivial hs

/-- After its view a request has its answer, and at most the position is still to be put into the table. -/
structure Moved (io : Io) (result : Result) (placed : List (List UInt8)) (p : Phase) : Prop where
  taken : p.Taken
  answered : ∀ o : Outcome, result = o.result → placed = o.placed → p.Answered o
  filled : ¬ p.Replacing
  writer : p.Writer io → io.offset = none

theorem moved_spec (io : Io) (info : Info) (endPos : ℕ) (result : Result) (placed : List (List UInt8)) :
    Moved io result placed (moved info io.offset endPos result placed) := by
  cases hoff : io.offset with
  | none => exact ⟨trivial, fun o hr hp => ⟨hr, hp⟩, not_false, fun _ => hoff⟩
  | some q => exact ⟨trivial, fun o hr hp => ⟨hr, hp⟩, not_false, fun hf => absurd hf not_false⟩

theorem Inv.others (hi : Inv fl ios s f)
    (hphase : s.phase i = .view info pos size grown) {j : ℕ} (hj : j ≠ i) :
    PhaseOk fl (f.step fl (ios i).req).1 (f.step fl (ios i).req).1.file s.maps s.entry (ios j) (s.phase j) := by
  have hv := hi.viewed hphase
  cases hg : grown with
  | true =>
    have hr : (s.phase i).Replacing := by
      rw [hphase]
      exact hg
    exact PhaseOk.resting (hi.alone i hr j hj)
  | false =>
    apply (hi.phases j).frame
    · intro hr
      have hres := hi.alone j hr i hj.symm
      rw [hphase] at hres
      exact hres
    · rw [hv.length, (hv.within hg).2]
    · rw [hv.transfer.moves]
      cases hoff : (ios i).offset with
      | some q => exact .inl rfl
      | none =>
        refine .inr fun hw => hj (hi.single j i hw ?_)
        rw [hphase]
        exact .inr hoff

theorem view_inv (hi : Inv fl ios s f) (hl : Linear fl f₀ ios trace f s.phase) (h : s.view g i (ios i) = some s') :
    Good fl f₀ ios s' := by
  have hphase : ∃ info pos size grown, s.phase i = .view info pos size grown := by
    rw [State.view] at h
    split at h
    · exact ⟨_, _, _, _, by assumption⟩
    · cases h
  obtain ⟨info, pos, size, grown, hphase⟩ := hphase
  have hv := hi.viewed hphase
  have hothers (j : ℕ) (hj : j ≠ i) := hi.others hphase hj
  rw [hv.view hphase g] at h
  cases Option.some.inj h
  have hmoves := hv.transfer.moves
  have hlength := hv.length
  have hsome := hv.transfer.some
  have hfits := hv.fits
  have hposLe := hi.posLe
  have hsizeLe := hi.sizeLe
  have hnot : ¬ (s.phase i).Taken := by
    rw [hphase]
    exact not_false
  have hmoved := moved_spec (ios i) info (pos + size) (f.step fl (ios i).req).2.1 (f.step fl (ios i).req).2.2
  have hback (j : ℕ) (hj : (upd s.phase i (moved info (ios i).offset (pos + size) (f.step fl (ios i).req).2.1
      (f.step fl (ios i).req).2.2) j).Writer (ios j)) : (s.phase j).Writer (ios j) := by
    by_cases hji : j = i
    · rw [hji, upd_self] at hj
      rw [hji, hphase]
      exact .inr (hmoved.writer hj)
    · rwa [upd_ne hji] at hj
  refine ⟨_, _, ?_, hl.take hnot hmoved.taken (hmoved.answered _ rfl rfl)⟩
  refine ⟨hi.flags, hi.plain, hi.readable, hi.writable, ?_, hlength.le, ?_, ?_, ?_, ?_, ?_⟩
  · rw [hmoves, hlength]
    split_ifs
    · exact hfits
    · exact Nat.le_trans hposLe hsizeLe
  · cases hoff : (ios i).offset with
    | none => exact .inr ⟨i, { info with currentPos := pos + size }, _, _, upd_self⟩
    | some q =>
      rw [hoff] at hmoves
      obtain hpos | ⟨j, info', result, placed, hj⟩ := hi.pos
      · exact .inl (hpos.trans hmoves.symm)
      · have hne : j ≠ i := by
          intro hji
          rw [hji, hphase] at hj
          cases hj
        exact .inr ⟨j, info', result, placed, (upd_ne hne).trans hj⟩
  · intro j
    change PhaseOk fl (f.step fl (ios i).req).1 (f.step fl (ios i).req).1.file s.maps s.entry (ios j) (upd s.phase i _ j)
    by_cases hj : j = i
    · rw [hj, upd_self]
      cases hoff : (ios i).offset with
      | some q => trivial
      | none =>
        have hwriter : (s.phase i).Writer (ios i) := by
          rw [hphase]
          exact .inr hoff
        have hcurrent := hi.currentPos_writer hwriter hnot
        have hbefore := hv.transfer.pos_le hposLe hoff
        refine ⟨hoff, ?_, by omega⟩
        rw [hv.entry hoff, hmoves, hoff]
        rfl
    · rw [upd_ne hj]
      exact hothers j hj
  · intro _
    refine ⟨rfl, hlength.symm, ?_, ?_⟩
    · intro h0
      rw [h0, length_nil] at hlength
      omega
    · intro _
      rw [hlength]
      change HandleOf s.maps s.entry.mapping _
      rw [← hv.same]
      exact hv.handle
  · intro j hj
    change (upd s.phase i _ j).Replacing at hj
    by_cases hji : j = i
    · rw [hji, upd_self] at hj
      exact absurd hj hmoved.filled
    · rw [upd_ne hji] at hj
      have hres := hi.alone j hj i (Ne.symm hji)
      rw [hphase] at hres
      exact absurd hres not_false
  · intro j k hj hk
    exact hi.single j k (hback j hj) (hback k hk)

theorem step_inv (hg : Good fl f₀ ios s) {l : Label} (hlock : Locked ios s l) (h : step g ios s l = some s') :
    Good fl f₀ ios s' := by
  obtain ⟨trace, f, hi, hl⟩ := hg
  cases l with
  | fetch i => exact fetch_inv hi hl hlock h
  | close i => exact close_inv hi hl hlock h
  | create i v => exact create_inv hi hl h
  | add i => exact add_inv hi hl h
  | view i => exact view_inv hi hl h

/-! ## Runs -/

theorem start_inv {fd : Fd} (hm : Mapped fl f fd) {info : FdInfo} (hinfo : fd.info = some info) (hpos : f.pos ≤ f.file.length)
    (v : ℕ) (ios : ℕ → Io) : Good fl f ios (start fd.os info v) := by
  rw [hm.info] at hinfo
  cases Option.some.inj hinfo
  refine ⟨[], f, ?_, ⟨.nil, nodup_nil, ?_, ?_⟩⟩
  · refine ⟨rfl, rfl, hm.readable, hm.writable, hpos, Nat.le_refl _, .inl rfl, fun _ => trivial, ?_, ?_, ?_⟩
    · intro _
      refine ⟨hm.file, rfl, ?_, ?_⟩
      · intro h0
        rw [mappingOf, if_pos h0]
        rfl
      · intro h0
        rw [mappingOf_of_ne fl h0]
        exact ⟨⟨v, 0⟩, rfl, if_pos rfl⟩
    · exact fun i hr => absurd hr not_false
    · exact fun i j hw => absurd hw not_false
  · exact fun i => iff_of_false not_mem_nil not_false
  · exact fun t ht => absurd ht not_mem_nil

theorem Good.serialisable {fd : Fd} (hm : Mapped fl f₀ fd) (hg : Good fl f₀ ios s) (hrest : ∀ i, (s.phase i).Resting) (g : ℕ) :
    Serialisable g ios fd s := by
  obtain ⟨trace, f, hi, hl⟩ := hg
  obtain ⟨fd', hm', hrun⟩ := hl.serial.run hm g
  have hrun' := hrun [] [] rfl
  rw [append_nil, append_nil] at hrun'
  obtain ⟨hfile, hpos⟩ := hl.serial.last
  obtain ⟨hshown, hsize, -, -⟩ := hi.shown fun j => (hrest j).not_replacing
  have hcurrent := hi.currentPos fun j => (hrest j).not_writer
  refine ⟨trace, hl.nodup, ?_, hrun', ?_, ?_, ?_, ?_⟩
  · intro i
    rw [hl.taken i]
    have hres := hrest i
    cases hphase : s.phase i with
    | idle => exact iff_of_false not_false fun hf => hf rfl
    | done result placed => exact iff_of_true trivial fun hf => by cases hf
    | _ =>
      rw [hphase] at hres
      exact absurd hres not_false
  · intro t ht
    have hans := hl.answered t ht
    have hres := hrest t.1
    cases hphase : s.phase t.1 with
    | idle =>
      rw [hphase] at hans
      exact absurd hans not_false
    | done result placed =>
      rw [hphase] at hans
      rw [hans.1, hans.2]
    | _ =>
      rw [hphase] at hres
      exact absurd hres not_false
  · rw [hshown, hfile, ← hm.file]
  · rw [hshown]
    exact hsize
  · rw [hcurrent, hpos, hm.shows.2]

theorem Good.viewsOpen (hg : Good fl f₀ ios s) : ViewsOpen s := by
  obtain ⟨trace, f, hi, -⟩ := hg
  intro i info pos size grown hphase
  obtain ⟨a, ha, hm⟩ := (hi.viewed hphase).handle
  exact ⟨a, _, ha, hm⟩

theorem Good.defined (hg : Good fl f₀ ios s) (i : ℕ) : s.phase i ≠ .undefined := by
  obtain ⟨trace, f, hi, -⟩ := hg
  intro hphase
  have hok := hi.phases i
  rw [hphase] at hok
  exact hok

/-- While the condition is met, nothing is mapped through a handle that is closed, and whenever no request is under way, the
results, the file, its size and the position are those of the requests in some order. -/
theorem filemap_serial (g : ℕ) (mode : Rw) (append : Bool) (file : List UInt8) (ios : ℕ → Io) {fd : Fd}
    (hopen : fsOpen ⟨mode, append, true⟩ file = some fd) {s : State}
    (hr : ((sys g ios fd).restrict (Locked ios)).Reachable s) :
    ViewsOpen s ∧ (∀ i, s.phase i ≠ .undefined) ∧ ((∀ i, (s.phase i).Resting) → Serialisable g ios fd s) := by
  obtain ⟨fd', hopen', hm⟩ := filemap_open mode append file
  rw [hopen] at hopen'
  cases Option.some.inj hopen'
  have hinductive : ((sys g ios fd).restrict (Locked ios)).Inductive (Good ⟨mode, append, true⟩ ⟨file, 0⟩ ios) := by
    refine ⟨?_, ?_⟩
    · intro s hs
      obtain ⟨info, v, hinfo, rfl⟩ := hs
      exact start_inv hm hinfo (Nat.zero_le _) v ios
    · intro s l s' hg hstep
      exact step_inv hg hstep.1 hstep.2
  have hg := hinductive.reachable hr
  exact ⟨hg.viewsOpen, hg.defined, fun hrest => hg.serialisable hm hrest g⟩

end

/-- A read of the first byte and a write of the second. -/
def aside : ℕ → Io
  | 0 => .read [1] (some 0)
  | _ => .write [[7]] (some 1)

def twoBytes : Fd := ⟨⟨[9, 8], ⟨true, true, true⟩, 0, 1⟩, some ⟨⟨.rdwr, false, true⟩, false, some ⟨2, true⟩, 2, 0⟩⟩

/-- Both fetch the entry before either of them maps its view. -/
theorem filemap_serial_aside : ∃ s, s.phase 0 = .done (.ok 1) [[9]] ∧ s.phase 1 = .done (.ok 1) [] ∧
    Serialisable 65536 aside twoBytes s := by
  have h0 : ((sys 65536 aside twoBytes).restrict (Locked aside)).Reachable
      (start twoBytes.os ⟨⟨.rdwr, false, true⟩, false, some ⟨2, true⟩, 2, 0⟩ 5) :=
    LTS.Reachable.init ⟨_, 5, rfl, rfl⟩
  have h1 := h0.step (l := Label.fetch 0) ⟨⟨fun j => not_false, fun hf => (by cases hf)⟩, rfl⟩
  have hfree (j : ℕ) :
      ¬ (upd (fun _ => .idle) 0 (plan ⟨⟨.rdwr, false, true⟩, false, some ⟨5, 0⟩, 2, 0⟩ (aside 0)) j).Replacing := by
    cases j with
    | zero => exact Bool.false_ne_true
    | succ j => exact not_false
  have h2 := h1.step (l := Label.fetch 1) ⟨⟨hfree, fun hf => (by cases hf)⟩, rfl⟩
  have h3 := h2.step (l := Label.view 1) ⟨trivial, rfl⟩
  have h4 := h3.step (l := Label.view 0) ⟨trivial, rfl⟩
  refine ⟨_, rfl, rfl, (filemap_serial 65536 .rdwr false [9, 8] aside rfl h4).2.2 ?_⟩
  intro j
  cases j with
  | zero => trivial
  | succ j =>
    cases j with
    | zero | succ j => trivial

def appends : ℕ → Io
  | 0 => .write [[1]] none
  | _ => .write [[2]] none

def emptyFile : Fd := ⟨⟨[], ⟨true, true, true⟩, 0, 0⟩, some ⟨⟨.rdwr, true, true⟩, false, none, 0, 0⟩⟩

def bothAppend : List Label :=
  [.fetch 0, .fetch 1, .create 0 5, .add 0, .view 0, .add 0, .create 1 6, .add 1, .view 1, .add 1]

theorem appends_run : ∃ s,
    bothAppend.foldlM (step 65536 appends) (start emptyFile.os ⟨⟨.rdwr, true, true⟩, false, none, 0, 0⟩ 4) = some s ∧
    s.os.file = [2] ∧ s.phase 0 ≠ .idle ∧ s.phase 1 ≠ .idle ∧ (∀ j, s.phase (j + 2) = .idle) ∧ ∀ j, (s.phase j).Resting := by
  refine ⟨_, rfl, rfl, ?_, ?_, ?_, ?_⟩
  · intro hf
    cases hf
  · intro hf
    cases hf
  · exact fun j => rfl
  · intro j
    cases j with
    | zero => trivial
    | succ j =>
      cases j with
      | zero | succ j => trivial

theorem appends_order {i j : ℕ} {o o' : Outcome} (hi : i = 0 ∨ i = 1) (hj : j = 0 ∨ j = 1) (hne : i ≠ j)
    (h : FileMap.run 65536 emptyFile [(appends i).req, (appends j).req] = some [o, o']) : o'.file.length = 2 := by
  obtain rfl | rfl := hi
  · obtain rfl | rfl := hj
    · exact absurd rfl hne
    · cases h
      rfl
  · obtain rfl | rfl := hj
    · cases h
      rfl
    · exact absurd rfl hne

theorem two_entries {trace : List (ℕ × Outcome)} (hnodup : (trace.map Prod.fst).Nodup)
    (hmem : ∀ i, i ∈ trace.map Prod.fst ↔ i = 0 ∨ i = 1) :
    ∃ a b, trace = [a, b] ∧ (a.1 = 0 ∨ a.1 = 1) ∧ (b.1 = 0 ∨ b.1 = 1) ∧ a.1 ≠ b.1 := by
  have hperm : (trace.map Prod.fst).Perm [0, 1] := by
    apply (perm_ext_iff_of_nodup hnodup (by decide)).mpr
    intro i
    rw [hmem i]
    simp
  have hlen := hperm.length_eq
  rw [length_map] at hlen
  obtain ⟨a, b, rfl⟩ := length_eq_two.mp hlen
  have ha := (hmem a.1).mp mem_cons_self
  have hb := (hmem b.1).mp (mem_cons_of_mem _ mem_cons_self)
  refine ⟨a, b, rfl, ha, hb, ?_⟩
  intro heq
  exact (nodup_cons.mp hnodup).1 (heq ▸ mem_cons_self)

/-- What is appended first is overwritten. -/
theorem append_lost : ¬ ∀ (g : ℕ) (mode : Rw) (append : Bool) (file : List UInt8) (ios : ℕ → Io) (fd : Fd) (s : State),
    fsOpen ⟨mode, append, true⟩ file = some fd → (sys g ios fd).Reachable s →
      ViewsOpen s ∧ ((∀ i, (s.phase i).Resting) → Serialisable g ios fd s) := by
  intro hall
  obtain ⟨s, hrun, hfile, h0, h1, hidle, hrest⟩ := appends_run
  have hinit : (sys 65536 appends emptyFile).Reachable (start emptyFile.os ⟨⟨.rdwr, true, true⟩, false, none, 0, 0⟩ 4) :=
    LTS.Reachable.init ⟨_, 4, rfl, rfl⟩
  have hreach : (sys 65536 appends emptyFile).Reachable s := hinit.foldlM (fun s l t h => h) hrun
  obtain ⟨trace, hnodup, hmem, hserial, -, hlast, -, -⟩ := (hall 65536 .rdwr true [] appends emptyFile s rfl hreach).2 hrest
  have hstarted (i : ℕ) : i ∈ trace.map Prod.fst ↔ i = 0 ∨ i = 1 := by
    rw [hmem i]
    cases i with
    | zero => exact iff_of_true h0 (.inl rfl)
    | succ i =>
      cases i with
      | zero => exact iff_of_true h1 (.inr rfl)
      | succ i => exact iff_of_false (fun hf => hf (hidle i)) (by omega)
  obtain ⟨a, b, rfl, ha, hb, hne⟩ := two_entries hnodup hstarted
  have hlen := appends_order ha hb hne hserial
  have hfile' : b.2.file = [2] := hlast.symm.trans hfile
  rw [hfile'] at hlen
  cases hlen

/-- A read has fetched the entry; a write behind the end closes the mapping before the view. -/
def behind : ℕ → Io
  | 0 => .read [1] (some 0)
  | _ => .write [[7]] (some 2)

theorem view_closed : ∃ s, (sys 65536 behind twoBytes).Reachable s ∧ ¬ ViewsOpen s := by
  have h0 : (sys 65536 behind twoBytes).Reachable
      (start twoBytes.os ⟨⟨.rdwr, false, true⟩, false, some ⟨2, true⟩, 2, 0⟩ 5) := LTS.Reachable.init ⟨_, 5, rfl, rfl⟩
  have h1 := h0.step (l := Label.fetch 0) rfl
  have h2 := h1.step (l := Label.fetch 1) rfl
  have h3 := h2.step (l := Label.close 1) rfl
  refine ⟨_, h3, ?_⟩
  intro hopen
  obtain ⟨a, m, ha, hm⟩ := hopen 0 _ _ _ _ rfl
  cases ha
  cases hm

end Libuv.L5.FileMapConc
