import Mathlib.Tactic
import Libuv.Core.FlatFile

/-!
# Memory-mapped files (`win/fs.c`)

A file that is opened with `UV_FS_O_FILEMAP` is read and written through views of a file mapping. The position, the size
and the mapping are in the entry of the descriptor in `uv__fd_hash` (which is a map, `Libuv.L5.FdHash.refines_map`), next to
the flags as they were passed; the handle itself is opened for reading, and for writing if anything is to be written.
Without the flag `ReadFile` and `WriteFile` do the work, with the position of the handle.

Windows calls fail for missing access rights, at the end of the file, and where what they are asked for is not possible:
a section larger than a file that cannot grow, a view outside of its section or not on the allocation granularity `g`, an
end that cuts off what a section maps. Extended files are filled with zeros, an empty write does nothing, and a handle that
may only append writes at the end. An access outside of a view is `none`, as is an assertion that fails. Positions stay
below 2^63, so that their arithmetic is that of `ℕ`; an offset of -1 is `none`.

`OpenFile` is what both are meant to be: a file with a position.

* `filemap_agrees`: the results.
* `truncate_append`: where they differ.
-/
namespace Libuv.L5.FileMap

open FlatFile List

/-! ## Windows -/

inductive WinError
  | accessDenied
  | invalidFlags
  | invalidFunction
  | invalidParameter
  | invalidHandle
  | handleEof
  | brokenPipe
  | fileInvalid
  | notEnoughMemory
  | userMappedFile
  | mappedAlignment
deriving DecidableEq

/-- `FILE_READ_DATA`, `FILE_WRITE_DATA`, `FILE_APPEND_DATA` -/
structure Access where
  readData : Bool
  writeData : Bool
  appendData : Bool
deriving DecidableEq

/-- A file, an open handle of it, and the number of its sections. -/
structure Os where
  file : List UInt8
  access : Access
  pos : ℕ
  sections : ℕ
deriving DecidableEq

structure Section where
  size : ℕ
  writable : Bool
deriving DecidableEq

structure View where
  base : ℕ
  len : ℕ
deriving DecidableEq

namespace Os
variable (o : Os)

/-- `ReadFile` -/
def readFile (len : ℕ) (overlapped : Option ℕ) : Os × Except WinError (List UInt8) :=
  if !o.access.readData then (o, .error .accessDenied)
  else
    match overlapped with
    | none =>
      let d := read o.file o.pos len
      ({ o with pos := o.pos + d.length }, .ok d)
    | some p =>
      if 0 < len ∧ o.file.length ≤ p then (o, .error .handleEof)
      else
        let d := read o.file p len
        ({ o with pos := p + d.length }, .ok d)

/-- `WriteFile` -/
def writeFile (d : List UInt8) (overlapped : Option ℕ) : Os × Except WinError ℕ :=
  if !o.access.writeData && !o.access.appendData then (o, .error .accessDenied)
  else if d = [] then (o, .ok 0)
  else
    let p := if o.access.writeData then overlapped.getD o.pos else o.file.length
    ({ o with file := write 0 o.file p d, pos := p + d.length }, .ok d.length)

/-- `NtSetInformationFile` with `FileEndOfFileInformation` -/
def setEndOfFile (n : ℕ) : Os × Option WinError :=
  if !o.access.writeData then (o, some .accessDenied)
  else if 0 < o.sections ∧ n < o.file.length then (o, some .userMappedFile)
  else ({ o with file := resize 0 o.file n }, none)

/-- `CreateFileMapping`, with `PAGE_READWRITE` or `PAGE_READONLY` -/
def createFileMapping (writable : Bool) (n : ℕ) : Os × Except WinError Section :=
  let n := if n = 0 then o.file.length else n
  if !o.access.readData || writable && !o.access.writeData then (o, .error .accessDenied)
  else if n = 0 then (o, .error .fileInvalid)
  else if n ≤ o.file.length then ({ o with sections := o.sections + 1 }, .ok ⟨n, writable⟩)
  else if writable then ({ o with file := resize 0 o.file n, sections := o.sections + 1 }, .ok ⟨n, writable⟩)
  else (o, .error .notEnoughMemory)

/-- `CloseHandle`, of a mapping -/
def closeSection : Os := { o with sections := o.sections - 1 }

/-- `CloseHandle`, of the file: no right is left. -/
def close : Os := { o with access := ⟨false, false, false⟩ }

def load (v : View) (i n : ℕ) : Option (List UInt8) :=
  if i + n ≤ v.len then some (read o.file (v.base + i) n) else none

def store (v : View) (i : ℕ) (d : List UInt8) : Option Os :=
  if i + d.length ≤ v.len then some { o with file := write 0 o.file (v.base + i) d } else none

end Os

/-- `MapViewOfFile`; `none` is `INVALID_HANDLE_VALUE` -/
def mapViewOfFile (g : ℕ) (mapping : Option Section) (writable : Bool) (base len : ℕ) : Except WinError View :=
  match mapping with
  | none => .error .invalidHandle
  | some s =>
    if writable && !s.writable then .error .accessDenied
    else if base % g ≠ 0 then .error .mappedAlignment
    else if s.size < base + len then .error .accessDenied
    else .ok ⟨base, len⟩

/-! ## Descriptors -/

inductive Rw
  | rdonly
  | wronly
  | rdwr
deriving DecidableEq

/-- `UV_FS_O_APPEND`, `UV_FS_O_FILEMAP` -/
structure Flags where
  rw : Rw
  append : Bool
  filemap : Bool
deriving DecidableEq

/-- `struct uv__fd_info_s` -/
structure FdInfo where
  flags : Flags
  isDirectory : Bool
  mapping : Option Section
  size : ℕ
  currentPos : ℕ
deriving DecidableEq

/-- A descriptor, with its entry in `uv__fd_hash`. -/
structure Fd where
  os : Os
  info : Option FdInfo
deriving DecidableEq

/-- `fs__open`: the flags the file is opened with.
mirrors win/fs.c:451-468 -/
def adjust (fl : Flags) : Flags :=
  if fl.filemap then
    let fl := if fl.rw = .wronly then { fl with rw := .rdwr } else fl
    if fl.append then { fl with append := false, rw := .rdwr } else fl
  else fl

/-- mirrors win/fs.c:475-492 -/
def accessOf (fl : Flags) : Access :=
  let access : Access :=
    match fl.rw with
    | .rdonly => ⟨true, false, false⟩
    | .wronly => ⟨false, true, true⟩
    | .rdwr => ⟨true, true, true⟩
  if fl.append then { access with writeData := false, appendData := true } else access

/-- A file that exists is opened.
mirrors win/fs.c:632-676 -/
def fsOpen (fl : Flags) (file : List UInt8) : Option Fd :=
  let os : Os := ⟨file, accessOf (adjust fl), 0, 0⟩
  if fl.filemap then
    if file.length = 0 then some ⟨os, some ⟨fl, false, none, 0, 0⟩⟩
    else
      match os.createFileMapping (fl.rw ≠ .rdonly) file.length with
      | (os, .ok s) => some ⟨os, some ⟨fl, false, some s, file.length, 0⟩⟩
      | (_, .error _) => none
  else some ⟨os, none⟩

/-! ## Requests -/

abbrev Result := Except WinError ℕ

def untouched (bufs : List ℕ) : List (List UInt8) := bufs.map fun _ => []

def dword : ℕ := 2 ^ 32

/-- The loop over the buffers, until all of `readSize` is copied.
mirrors win/fs.c:804-833 -/
def copyOut (o : Os) (v : View) (viewOffset readSize : ℕ) : List ℕ → ℕ → Option (List (List UInt8) × ℕ)
  | [], doneRead => some ([], doneRead)
  | len :: bufs, doneRead =>
    if doneRead < readSize then do
      let d ← o.load v (viewOffset + doneRead) (min len (readSize - doneRead))
      let (placed, n) ← copyOut o v viewOffset readSize bufs (doneRead + min len (readSize - doneRead))
      return (d :: placed, n)
    else some (untouched (len :: bufs), doneRead)

/-- mirrors win/fs.c:749-844 -/
def readFilemap (g : ℕ) (fd : Fd) (info : FdInfo) (bufs : List ℕ) (offset : Option ℕ) :
    Option (Fd × Result × List (List UInt8)) :=
  if info.flags.rw = .wronly then some (fd, .error .invalidFlags, untouched bufs)
  else if info.isDirectory then some (fd, .error .invalidFunction, untouched bufs)
  else
    let pos := offset.getD info.currentPos
    if info.size ≤ pos then some (fd, .ok 0, untouched bufs)
    else
      let readSize := min (total bufs) (info.size - pos)
      if readSize = 0 then some (fd, .ok 0, untouched bufs)
      else
        let viewOffset := pos % g
        match mapViewOfFile g info.mapping false (pos - viewOffset) (viewOffset + readSize) with
        | .error e => some (fd, .error e, untouched bufs)
        | .ok v => do
          let (placed, doneRead) ← copyOut fd.os v viewOffset readSize bufs 0
          if doneRead ≠ readSize then none
          else
            let fd := if offset.isNone then { fd with info := some { info with currentPos := pos + readSize } } else fd
            return (fd, .ok readSize, placed)

/-- The loop over the buffers, while `ReadFile` succeeds: its last error, the bytes read, and where they are.
mirrors win/fs.c:888-906 -/
def readLoop (offset : Option ℕ) : Os → List ℕ → ℕ → Os × Option WinError × ℕ × List (List UInt8)
  | o, [], bytes => (o, none, bytes, [])
  | o, len :: bufs, bytes =>
    match o.readFile len (offset.map (· + bytes)) with
    | (o, .ok d) =>
      let (o, e, n, placed) := readLoop offset o bufs ((bytes + d.length) % dword)
      (o, e, n, d :: placed)
    | (o, .error e) => (o, some e, bytes, untouched (len :: bufs))

/-- mirrors win/fs.c:846-925 -/
def fsRead (g : ℕ) (fd : Fd) (bufs : List ℕ) (offset : Option ℕ) : Option (Fd × Result × List (List UInt8)) :=
  match fd.info with
  | some info => readFilemap g fd info bufs offset
  | none =>
    let (o, e, bytes, placed) := readLoop offset fd.os bufs 0
    let o := if offset.isSome then { o with pos := fd.os.pos } else o
    let result : Result :=
      match e with
      | none => .ok bytes
      | some e =>
        if 0 < bytes then .ok bytes
        else
          let e := if e = .accessDenied then .invalidFlags else e
          if e = .handleEof ∨ e = .brokenPipe then .ok bytes else .error e
    some (⟨o, none⟩, result, placed)

/-- The loop over the buffers.
mirrors win/fs.c:1008-1028 -/
def copyIn (v : View) (viewOffset : ℕ) : Os → List (List UInt8) → ℕ → Option (Os × ℕ)
  | o, [], doneWrite => some (o, doneWrite)
  | o, d :: bufs, doneWrite => do
    let o ← o.store v (viewOffset + doneWrite) d
    copyIn v viewOffset o bufs (doneWrite + d.length)

/-- `fs__write_filemap`, once the mapping is large enough.
mirrors win/fs.c:995-1049 -/
def writeView (g : ℕ) (o : Os) (info : FdInfo) (bufs : List (List UInt8)) (offset : Option ℕ) (pos writeSize : ℕ) :
    Option (Fd × Result) :=
  let viewOffset := pos % g
  match mapViewOfFile g info.mapping true (pos - viewOffset) (viewOffset + writeSize) with
  | .error e => some (⟨o, some info⟩, .error e)
  | .ok v => do
    let (o, doneWrite) ← copyIn v viewOffset o bufs 0
    if doneWrite ≠ writeSize then none
    else
      let info := if offset.isNone then { info with currentPos := pos + writeSize } else info
      return (⟨o, some info⟩, .ok doneWrite)

/-- mirrors win/fs.c:928-1050 -/
def writeFilemap (g : ℕ) (fd : Fd) (info : FdInfo) (bufs : List (List UInt8)) (offset : Option ℕ) : Option (Fd × Result) :=
  if info.flags.rw = .rdonly then some (fd, .error .invalidFlags)
  else if info.isDirectory then some (fd, .error .invalidFunction)
  else
    let writeSize := total (bufs.map List.length)
    if writeSize = 0 then some (fd, .ok 0)
    else
      let pos := if info.flags.append then info.size else offset.getD info.currentPos
      let endPos := pos + writeSize
      if info.size < endPos then
        let o := if info.mapping.isSome then fd.os.closeSection else fd.os
        match o.createFileMapping true endPos with
        | (o, .error e) => some (⟨o.close, some { info with mapping := none, size := 0, currentPos := 0 }⟩, .error e)
        | (o, .ok s) => writeView g o { info with mapping := some s, size := endPos } bufs offset pos writeSize
      else writeView g fd.os info bufs offset pos writeSize

/-- mirrors win/fs.c:1089-1107 -/
def writeLoop (offset : Option ℕ) : Os → List (List UInt8) → ℕ → Os × Option WinError × ℕ
  | o, [], bytes => (o, none, bytes)
  | o, d :: bufs, bytes =>
    match o.writeFile d (offset.map (· + bytes)) with
    | (o, .ok n) => writeLoop offset o bufs ((bytes + n) % dword)
    | (o, .error e) => (o, some e, bytes)

/-- mirrors win/fs.c:1052-1123 -/
def fsWrite (g : ℕ) (fd : Fd) (bufs : List (List UInt8)) (offset : Option ℕ) : Option (Fd × Result) :=
  match fd.info with
  | some info => writeFilemap g fd info bufs offset
  | none =>
    let (o, e, bytes) := writeLoop offset fd.os bufs 0
    let o := if offset.isSome then { o with pos := fd.os.pos } else o
    let result : Result :=
      match e with
      | none => .ok bytes
      | some e => if 0 < bytes then .ok bytes else .error (if e = .accessDenied then .invalidFlags else e)
    some (⟨o, none⟩, result)

/-- mirrors win/fs.c:1988-2061 -/
def fsFtruncate (fd : Fd) (n : ℕ) : Fd × Result :=
  match fd.info with
  | none =>
    match fd.os.setEndOfFile n with
    | (o, none) => (⟨o, none⟩, .ok 0)
    | (o, some e) => (⟨o, none⟩, .error e)
  | some info =>
    if info.isDirectory then (fd, .error .accessDenied)
    else
      let o := if info.mapping.isSome then fd.os.closeSection else fd.os
      match o.setEndOfFile n with
      | (o, some e) => (⟨o.close, some { info with mapping := none, size := 0, currentPos := 0 }⟩, .error e)
      | (o, none) =>
        if n = 0 then (⟨o, some { info with mapping := none, size := 0 }⟩, .ok 0)
        else
          match o.createFileMapping (info.flags.rw ≠ .rdonly) n with
          | (o, .ok s) => (⟨o, some { info with mapping := some s, size := n }⟩, .ok 0)
          | (o, .error e) => (⟨o.close, some { info with mapping := none, size := 0, currentPos := 0 }⟩, .error e)

inductive Req
  | read (bufs : List ℕ) (offset : Option ℕ)
  | write (bufs : List (List UInt8)) (offset : Option ℕ)
  | ftruncate (n : ℕ)
deriving DecidableEq

/-- What can be seen of a request: its result, what is in the buffers, and the file and the position behind it. -/
structure Outcome where
  result : Result
  placed : List (List UInt8)
  file : List UInt8
  pos : ℕ

def Fd.pos (fd : Fd) : ℕ := fd.info.elim fd.os.pos FdInfo.currentPos

/-- `uv_fs_read`, `uv_fs_write` and `uv_fs_ftruncate`
mirrors win/fs.c:2913-2976, 3286-3292 -/
def step (g : ℕ) (fd : Fd) : Req → Option (Fd × Outcome)
  | .read bufs offset =>
    if bufs = [] then some (fd, ⟨.error .invalidParameter, [], fd.os.file, fd.pos⟩)
    else (fsRead g fd bufs offset).map fun t => (t.1, ⟨t.2.1, t.2.2, t.1.os.file, t.1.pos⟩)
  | .write bufs offset =>
    if bufs = [] then some (fd, ⟨.error .invalidParameter, [], fd.os.file, fd.pos⟩)
    else (fsWrite g fd bufs offset).map fun t => (t.1, ⟨t.2, [], t.1.os.file, t.1.pos⟩)
  | .ftruncate n =>
    let t := fsFtruncate fd n
    some (t.1, ⟨t.2, [], t.1.os.file, t.1.pos⟩)

def run (g : ℕ) : Fd → List Req → Option (List Outcome)
  | _, [] => some []
  | fd, r :: rs => do
    let (fd, out) ← step g fd r
    let outs ← run g fd rs
    return out :: outs

/-! ## What is meant -/

structure OpenFile where
  file : List UInt8
  pos : ℕ

def OpenFile.step (fl : Flags) (f : OpenFile) : Req → OpenFile × Result × List (List UInt8)
  | .read bufs offset =>
    if bufs = [] then (f, .error .invalidParameter, [])
    else if fl.rw = .wronly then (f, .error .invalidFlags, untouched bufs)
    else
      let p := offset.getD f.pos
      let d := FlatFile.read f.file p (total bufs)
      (⟨f.file, if offset.isNone then p + d.length else f.pos⟩, .ok d.length, scatter bufs d)
  | .write bufs offset =>
    if bufs = [] then (f, .error .invalidParameter, [])
    else if fl.rw = .rdonly then (f, .error .invalidFlags, [])
    else if bufs.flatten = [] then (f, .ok 0, [])
    else
      let p := if fl.append then f.file.length else offset.getD f.pos
      (⟨FlatFile.write 0 f.file p bufs.flatten, if offset.isNone then p + bufs.flatten.length else f.pos⟩,
        .ok bufs.flatten.length, [])
  | .ftruncate n => (⟨resize 0 f.file n, f.pos⟩, .ok 0, [])

def OpenFile.outcome (t : OpenFile × Result × List (List UInt8)) : Outcome := ⟨t.2.1, t.2.2, t.1.file, t.1.pos⟩

def OpenFile.run (fl : Flags) : OpenFile → List Req → List Outcome
  | _, [] => []
  | f, r :: rs => OpenFile.outcome (f.step fl r) :: OpenFile.run fl (f.step fl r).1 rs

/-! ## Reading and writing with the handle -/

variable {o : Os} {g : ℕ} {fl : Flags} {f : OpenFile} {fd : Fd}

theorem total_cons (n : ℕ) (bufs : List ℕ) : total (n :: bufs) = n + total bufs := rfl

theorem total_map_length : ∀ bufs : List (List UInt8), total (bufs.map List.length) = bufs.flatten.length
  | [] => rfl
  | d :: bufs => by
    rw [map_cons, total_cons, total_map_length bufs, flatten_cons, length_append]

theorem readLoop_pos (hr : o.access.readData = true) (bufs : List ℕ) (bytes : ℕ) (hb : bytes + total bufs < dword) :
    readLoop none o bufs bytes = ({ o with pos := o.pos + (FlatFile.read o.file o.pos (total bufs)).length }, none,
      bytes + (FlatFile.read o.file o.pos (total bufs)).length, scatter bufs (FlatFile.read o.file o.pos (total bufs))) := by
  induction bufs generalizing o bytes with
  | nil => rw [show total [] = 0 from rfl, read_zero]; rfl
  | cons n bufs ih =>
    rw [total_cons] at hb
    have hle := length_read_le o.file o.pos n
    have hstep : o.readFile n none =
        ({ o with pos := o.pos + (FlatFile.read o.file o.pos n).length }, .ok (FlatFile.read o.file o.pos n)) := by
      rw [Os.readFile, hr]
      rfl
    have hmod : (bytes + (FlatFile.read o.file o.pos n).length) % dword = bytes + (FlatFile.read o.file o.pos n).length :=
      Nat.mod_eq_of_lt (by omega)
    rw [readLoop, Option.map_none, hstep]
    simp only
    rw [hmod, ih (o := { o with pos := o.pos + (FlatFile.read o.file o.pos n).length }) hr _ (by omega), total_cons, scatter,
      length_read_add, take_read, Nat.min_eq_left (Nat.le_add_right n _), drop_read_add, Nat.add_assoc, Nat.add_assoc]

theorem readLoop_at (hr : o.access.readData = true) (p : ℕ) (bufs : List ℕ) (bytes : ℕ) (hb : bytes + total bufs < dword) :
    ∃ q e, (e = none ∨ e = some WinError.handleEof) ∧ readLoop (some p) o bufs bytes = ({ o with pos := q }, e,
      bytes + (FlatFile.read o.file (p + bytes) (total bufs)).length,
      scatter bufs (FlatFile.read o.file (p + bytes) (total bufs))) := by
  induction bufs generalizing o bytes with
  | nil =>
    refine ⟨o.pos, none, .inl rfl, ?_⟩
    rfl
  | cons n bufs ih =>
    rw [total_cons] at hb
    by_cases heof : 0 < n ∧ o.file.length ≤ p + bytes
    · have hstep : o.readFile n (some (p + bytes)) = (o, .error .handleEof) := by
        rw [Os.readFile, hr]
        exact if_pos heof
      refine ⟨o.pos, some .handleEof, .inr rfl, ?_⟩
      rw [readLoop, Option.map_some, hstep, read_eq_nil heof.2, scatter_nil]
      rfl
    · have hle := length_read_le o.file (p + bytes) n
      have hstep : o.readFile n (some (p + bytes)) = ({ o with pos := p + bytes + (FlatFile.read o.file (p + bytes) n).length },
          .ok (FlatFile.read o.file (p + bytes) n)) := by
        rw [Os.readFile, hr]
        exact if_neg heof
      have hmod : (bytes + (FlatFile.read o.file (p + bytes) n).length) % dword =
          bytes + (FlatFile.read o.file (p + bytes) n).length := Nat.mod_eq_of_lt (by omega)
      obtain ⟨q, e, he, hrest⟩ := ih (o := { o with pos := p + bytes + (FlatFile.read o.file (p + bytes) n).length }) hr
        (bytes + (FlatFile.read o.file (p + bytes) n).length) (by omega)
      refine ⟨q, e, he, ?_⟩
      rw [readLoop, Option.map_some, hstep]
      simp only
      rw [hmod, hrest, total_cons, scatter, length_read_add, take_read, Nat.min_eq_left (Nat.le_add_right n _), drop_read_add,
        Nat.add_assoc, Nat.add_assoc]

theorem readLoop_denied (hr : o.access.readData = false) {bufs : List ℕ} (hb : bufs ≠ []) (offset : Option ℕ) :
    readLoop offset o bufs 0 = (o, some .accessDenied, 0, untouched bufs) := by
  cases bufs with
  | nil => exact absurd rfl hb
  | cons n bufs =>
    have hstep (q : Option ℕ) : o.readFile n q = (o, .error .accessDenied) := by
      unfold Os.readFile
      rw [hr]
      rfl
    rw [readLoop, hstep]

def Os.target (o : Os) (offset : Option ℕ) : ℕ := if o.access.writeData then offset.getD o.pos else o.file.length

def Os.wrote (o : Os) (p : ℕ) (d : List UInt8) : Os := { o with file := FlatFile.write 0 o.file p d, pos := p + d.length }

theorem target_next (offset : Option ℕ) (bytes : ℕ) (d : List UInt8) :
    (o.wrote (o.target (offset.map (· + bytes))) d).target (offset.map (· + (bytes + d.length))) =
      o.target (offset.map (· + bytes)) + d.length := by
  unfold Os.wrote Os.target
  cases hw : o.access.writeData with
  | false =>
    simp only [Bool.false_eq_true, if_false, length_write]
    omega
  | true =>
    cases offset with
    | none => rfl
    | some p => simp [Nat.add_assoc]

theorem writeLoop_spec (hw : o.access.writeData = true ∨ o.access.appendData = true) (offset : Option ℕ)
    (bufs : List (List UInt8)) (bytes : ℕ) (hb : bytes + bufs.flatten.length < dword) : ∃ q, writeLoop offset o bufs bytes =
      ({ o with file := if bufs.flatten = [] then o.file else FlatFile.write 0 o.file (o.target (offset.map (· + bytes))) bufs.flatten
                pos := q }, none, bytes + bufs.flatten.length) ∧
      q = if bufs.flatten = [] then o.pos else o.target (offset.map (· + bytes)) + bufs.flatten.length := by
  induction bufs generalizing o bytes with
  | nil => exact ⟨o.pos, rfl, rfl⟩
  | cons d bufs ih =>
    rw [flatten_cons, length_append] at hb
    have hok : (!o.access.writeData && !o.access.appendData) = false := by
      rcases hw with hw | hw <;> simp [hw]
    have hmod : (bytes + d.length) % dword = bytes + d.length := Nat.mod_eq_of_lt (by omega)
    rcases eq_or_ne d [] with rfl | hd
    · have hstep : o.writeFile [] (offset.map (· + bytes)) = (o, .ok 0) := by
        unfold Os.writeFile
        rw [hok]
        rfl
      obtain ⟨q, h1, h2⟩ := ih hw bytes (by simpa using hb)
      refine ⟨q, ?_, h2⟩
      rw [writeLoop, hstep]
      simp only
      rw [Nat.add_zero, Nat.mod_eq_of_lt (by simpa using hb.trans_le' (Nat.le_add_right _ _)), h1]
      rfl
    · have hstep : o.writeFile d (offset.map (· + bytes)) = (o.wrote (o.target (offset.map (· + bytes))) d, .ok d.length) := by
        unfold Os.writeFile Os.wrote Os.target
        rw [hok, if_neg (by decide), if_neg hd]
      have hne : (d :: bufs).flatten ≠ [] := by
        exact append_ne_nil_of_left_ne_nil hd _
      obtain ⟨q, h1, h2⟩ := ih (o := o.wrote (o.target (offset.map (· + bytes))) d) hw (bytes + d.length) (by omega)
      rw [target_next] at h1 h2
      refine ⟨q, ?_, ?_⟩
      · rw [writeLoop, hstep]
        simp only
        rw [hmod, h1, if_neg hne]
        simp only [Os.wrote, write_write, flatten_cons, length_append, Nat.add_assoc]
        split_ifs with hf
        · rw [hf, append_nil]
        · rfl
      · rw [h2, if_neg hne, flatten_cons, length_append]
        split_ifs with hf
        · rw [hf]
          rfl
        · rw [Nat.add_assoc]

/-! ## Reading and writing through a view -/

theorem copyOut_spec (p i readSize : ℕ) (hfit : p + i + readSize ≤ o.file.length) (bufs : List ℕ) (n : ℕ)
    (hn : n ≤ readSize) (hb : readSize ≤ n + total bufs) : copyOut o ⟨p, i + readSize⟩ i readSize bufs n =
      some (scatter bufs (FlatFile.read o.file (p + i + n) (readSize - n)), readSize) := by
  induction bufs generalizing n with
  | nil =>
    obtain rfl : n = readSize := Nat.le_antisymm hn hb
    rfl
  | cons len bufs ih =>
    rw [copyOut]
    split_ifs with hlt
    · have hload : o.load ⟨p, i + readSize⟩ (i + n) (min len (readSize - n)) =
          some (FlatFile.read o.file (p + i + n) (min len (readSize - n))) := by
        rw [Os.load, if_pos (by dsimp only; omega), Nat.add_assoc p]
      rw [total_cons] at hb
      have hrest : readSize - (n + min len (readSize - n)) = readSize - n - min len (readSize - n) := by omega
      rw [hload, Option.bind_eq_bind, Option.bind_some, ih _ (by omega) (by omega), scatter, take_read, drop_read, hrest,
        ← Nat.add_assoc (p + i)]
      rfl
    · obtain rfl : n = readSize := by omega
      rw [Nat.sub_self, read_zero, scatter_nil]
      rfl

theorem copyIn_spec (p i writeSize : ℕ) (bufs : List (List UInt8)) (n : ℕ) (hfit : p + i + writeSize ≤ o.file.length)
    (hn : n + bufs.flatten.length = writeSize) : copyIn ⟨p, i + writeSize⟩ i o bufs n =
      some ({ o with file := FlatFile.write 0 o.file (p + i + n) bufs.flatten }, writeSize) := by
  induction bufs generalizing o n with
  | nil =>
    rw [copyIn, flatten_nil, write_nil _ (by simp at hn; omega)]
    simp at hn
    rw [hn]
  | cons d bufs ih =>
    rw [flatten_cons, length_append] at hn
    have hstore : o.store ⟨p, i + writeSize⟩ (i + n) d = some { o with file := FlatFile.write 0 o.file (p + i + n) d } := by
      rw [Os.store, if_pos (by dsimp only; omega), Nat.add_assoc p]
    rw [copyIn, hstore, Option.bind_eq_bind, Option.bind_some, ih]
    · rw [← Nat.add_assoc, write_write, flatten_cons]
    · rw [length_write]
      omega
    · omega

/-! ## Descriptors without a mapping -/

/-- Totals fit into a `DWORD`, and what is truncated may be written. -/
def Allowed (fl : Flags) : Req → Prop
  | .read bufs _ => total bufs < dword
  | .write bufs _ => total (bufs.map List.length) < dword
  | .ftruncate _ => fl.rw ≠ .rdonly

/-- A descriptor without a mapping shows the open file. -/
structure Plain (fl : Flags) (f : OpenFile) (fd : Fd) : Prop where
  info : fd.info = none
  file : fd.os.file = f.file
  pos : fd.os.pos = f.pos
  access : fd.os.access = accessOf fl
  sections : fd.os.sections = 0

theorem accessOf_read (fl : Flags) : (accessOf fl).readData = decide (fl.rw ≠ .wronly) := by
  rcases fl with ⟨rw, ap, m⟩
  cases rw <;> cases ap <;> rfl

theorem accessOf_write (fl : Flags) : (accessOf fl).writeData = (decide (fl.rw ≠ .rdonly) && !fl.append) := by
  rcases fl with ⟨rw, ap, m⟩
  cases rw <;> cases ap <;> rfl

theorem accessOf_append (fl : Flags) : (accessOf fl).appendData = (decide (fl.rw ≠ .rdonly) || fl.append) := by
  rcases fl with ⟨rw, ap, m⟩
  cases rw <;> cases ap <;> rfl

variable {bufs : List (List UInt8)} {offset : Option ℕ}

theorem writeLoop_denied (hw : o.access.writeData = false) (ha : o.access.appendData = false)
    (hb : bufs ≠ []) (offset : Option ℕ) : writeLoop offset o bufs 0 = (o, some .accessDenied, 0) := by
  cases bufs with
  | nil => exact absurd rfl hb
  | cons d bufs =>
    have hstep (q : Option ℕ) : o.writeFile d q = (o, .error .accessDenied) := by
      unfold Os.writeFile
      rw [hw, ha]
      rfl
    rw [writeLoop, hstep]

theorem Plain.eq (hp : Plain fl f fd) :
    ∃ o, fd = ⟨o, none⟩ ∧ f = ⟨o.file, o.pos⟩ ∧ o.access = accessOf fl ∧ o.sections = 0 := by
  obtain ⟨o, i⟩ := fd
  obtain ⟨file, pos⟩ := f
  obtain ⟨rfl, rfl, rfl, hacc, hsec⟩ := hp
  exact ⟨o, rfl, rfl, hacc, hsec⟩

theorem plain_read (hp : Plain fl f fd) {bufs : List ℕ} (hb : bufs ≠ []) (ht : total bufs < dword) :
    ∃ fd', fsRead g fd bufs offset = some (fd', (f.step fl (.read bufs offset)).2) ∧
      Plain fl (f.step fl (.read bufs offset)).1 fd' := by
  obtain ⟨o, rfl, rfl, hacc, hsec⟩ := hp.eq
  have hread := accessOf_read fl
  rw [← hacc] at hread
  simp only [OpenFile.step, if_neg hb, fsRead]
  by_cases hw : fl.rw = .wronly
  · rw [hw] at hread
    rw [if_pos hw, readLoop_denied hread hb]
    refine ⟨⟨o, none⟩, ?_, hp⟩
    cases offset <;> rfl
  · have hr : o.access.readData = true := by simpa [hw] using hread
    rw [if_neg hw]
    cases offset with
    | none =>
      rw [readLoop_pos hr bufs 0 (by omega), Nat.zero_add]
      exact ⟨_, rfl, rfl, rfl, rfl, hacc, hsec⟩
    | some p =>
      obtain ⟨q, e, he, hloop⟩ := readLoop_at hr p bufs 0 (by omega)
      rw [hloop, Nat.zero_add]
      refine ⟨⟨o, none⟩, ?_, rfl, rfl, rfl, hacc, hsec⟩
      -- the end of the file is no error
      rcases he with rfl | rfl
      · rfl
      · simp

theorem plain_write (hp : Plain fl f fd) (hmode : fl.rw = .rdonly → fl.append = false)
    (hb : bufs ≠ []) (ht : total (bufs.map List.length) < dword) : ∃ fd', fsWrite g fd bufs offset =
      some (fd', (f.step fl (.write bufs offset)).2.1) ∧ Plain fl (f.step fl (.write bufs offset)).1 fd' := by
  obtain ⟨o, rfl, rfl, hacc, hsec⟩ := hp.eq
  have hwrite := accessOf_write fl
  have happend := accessOf_append fl
  rw [← hacc] at hwrite happend
  rw [total_map_length] at ht
  simp only [OpenFile.step, if_neg hb, fsWrite]
  by_cases hr : fl.rw = .rdonly
  · simp only [hr, hmode hr] at hwrite happend
    rw [if_pos hr, writeLoop_denied hwrite happend hb]
    refine ⟨⟨o, none⟩, ?_, hp⟩
    cases offset <;> rfl
  · have hw : o.access.writeData = true ∨ o.access.appendData = true := .inr (by simp [happend, hr])
    obtain ⟨q, hloop, hq⟩ := writeLoop_spec hw offset bufs 0 (by omega)
    have htarget : o.target (offset.map (· + 0)) = if fl.append then o.file.length else offset.getD o.pos := by
      rw [Os.target, hwrite, decide_eq_true hr]
      cases fl.append <;> cases offset <;> rfl
    rw [htarget] at hloop hq
    rw [if_neg hr, hloop, Nat.zero_add]
    by_cases hd : bufs.flatten = []
    · rw [hq, hd]
      refine ⟨⟨o, none⟩, ?_, hp⟩
      cases offset <;> rfl
    · rw [if_neg hd] at hq
      rw [if_neg hd, if_neg hd, hq]
      cases offset with
      | none | some p => exact ⟨_, rfl, rfl, rfl, rfl, hacc, hsec⟩

theorem plain_truncate (hp : Plain fl f fd) (hw : fl.rw ≠ .rdonly) (ha : fl.append = false) (n : ℕ) :
    ∃ fd', fsFtruncate fd n = (fd', (f.step fl (.ftruncate n)).2.1) ∧ Plain fl (f.step fl (.ftruncate n)).1 fd' := by
  obtain ⟨o, rfl, rfl, hacc, hsec⟩ := hp.eq
  have hset : o.setEndOfFile n = ({ o with file := resize 0 o.file n }, none) := by
    rw [Os.setEndOfFile, hacc, accessOf_write, decide_eq_true hw, ha, hsec]
    rfl
  simp only [fsFtruncate, hset, OpenFile.step]
  exact ⟨_, rfl, rfl, rfl, rfl, hacc, hsec⟩

theorem plain_truncate_append (hp : Plain fl f fd) (ha : fl.append = true) (n : ℕ) :
    fsFtruncate fd n = (fd, .error .accessDenied) := by
  obtain ⟨o, rfl, rfl, hacc, hsec⟩ := hp.eq
  have hset : o.setEndOfFile n = (o, some .accessDenied) := by
    rw [Os.setEndOfFile, hacc, accessOf_write, ha, Bool.not_true, Bool.and_false]
    rfl
  simp [fsFtruncate, hset]

/-! ## Descriptors with a mapping -/

def mappingOf (fl : Flags) (file : List UInt8) : Option Section :=
  if file = [] then none else some ⟨file.length, decide (fl.rw ≠ .rdonly)⟩

theorem mappingOf_of_ne (fl : Flags) {file : List UInt8} (h : file ≠ []) :
    mappingOf fl file = some ⟨file.length, decide (fl.rw ≠ .rdonly)⟩ := if_neg h

/-- A descriptor with a mapping shows the open file. -/
structure Mapped (fl : Flags) (f : OpenFile) (fd : Fd) : Prop where
  info : fd.info = some ⟨fl, false, mappingOf fl f.file, f.file.length, f.pos⟩
  file : fd.os.file = f.file
  readable : fd.os.access.readData = true
  writable : fl.rw ≠ .rdonly → fd.os.access.writeData = true
  sections : fd.os.sections = if f.file = [] then 0 else 1

theorem Mapped.eq (hm : Mapped fl f fd) : ∃ o pos, fd = ⟨o, some ⟨fl, false, mappingOf fl o.file, o.file.length, pos⟩⟩ ∧
    f = ⟨o.file, pos⟩ ∧ o.access.readData = true ∧ (fl.rw ≠ .rdonly → o.access.writeData = true) ∧
    o.sections = if o.file = [] then 0 else 1 := by
  obtain ⟨o, i⟩ := fd
  obtain ⟨file, pos⟩ := f
  obtain ⟨hinfo, hfile, hr, hw, hs⟩ := hm
  dsimp only at hinfo hfile hr hw hs
  subst hfile hinfo
  exact ⟨o, pos, rfl, rfl, hr, hw, hs⟩

theorem view_aligned (g pos : ℕ) : (pos - pos % g) % g = 0 := Nat.sub_mod_eq_zero_of_mod_eq (Nat.mod_mod pos g).symm

theorem view_offset (g pos : ℕ) : pos - pos % g + pos % g = pos := Nat.sub_add_cancel (Nat.mod_le pos g)

theorem mapViewOfFile_ok {s : Section} {w : Bool} (hw : w = true → s.writable = true) {pos n : ℕ} (h : pos + n ≤ s.size)
    (g : ℕ) : mapViewOfFile g (some s) w (pos - pos % g) (pos % g + n) = .ok ⟨pos - pos % g, pos % g + n⟩ := by
  have h1 : (w && !s.writable) = false := by
    cases w with
    | false => rfl
    | true => rw [hw rfl]; rfl
  have h2 := view_offset g pos
  simp only [mapViewOfFile, h1, Bool.false_eq_true, if_false, if_neg (not_not_intro (view_aligned g pos))]
  exact if_neg (by omega)

theorem mapped_read (hm : Mapped fl f fd) {bufs : List ℕ} (hb : bufs ≠ []) :
    ∃ fd', fsRead g fd bufs offset = some (fd', (f.step fl (.read bufs offset)).2) ∧
      Mapped fl (f.step fl (.read bufs offset)).1 fd' := by
  obtain ⟨o, pos, rfl, rfl, hr, hw, hs⟩ := hm.eq
  simp only [OpenFile.step, if_neg hb, fsRead, readFilemap]
  by_cases hrw : fl.rw = .wronly
  · rw [if_pos hrw, if_pos hrw]
    exact ⟨_, rfl, hm⟩
  rw [if_neg hrw, if_neg hrw]
  have hlen := length_read o.file (offset.getD pos) (total bufs)
  -- the position stays where nothing is read
  have hnil (h : FlatFile.read o.file (offset.getD pos) (total bufs) = []) :
      (if offset.isNone then offset.getD pos + (FlatFile.read o.file (offset.getD pos) (total bufs)).length else pos) = pos := by
    rw [h]
    cases offset with
    | none | some p => rfl
  by_cases h1 : o.file.length ≤ offset.getD pos
  · have h := read_eq_nil h1 (total bufs)
    rw [if_pos h1, hnil h, h, scatter_nil]
    exact ⟨_, rfl, hm⟩
  rw [if_neg h1]
  by_cases h2 : min (total bufs) (o.file.length - offset.getD pos) = 0
  · have h : FlatFile.read o.file (offset.getD pos) (total bufs) = [] := length_eq_zero_iff.1 (hlen.trans h2)
    rw [if_pos h2, hnil h, h, scatter_nil]
    exact ⟨_, rfl, hm⟩
  · have hne : o.file ≠ [] := by
      intro h0
      rw [h0] at h1
      exact h1 (Nat.zero_le _)
    have hfit : offset.getD pos + min (total bufs) (o.file.length - offset.getD pos) ≤ o.file.length := by omega
    have hcopy := copyOut_spec (o := o) (offset.getD pos - offset.getD pos % g) (offset.getD pos % g) _ (by rwa [view_offset])
      bufs 0 (Nat.zero_le _) (by rw [Nat.zero_add]; exact Nat.min_le_left _ _)
    rw [view_offset, Nat.add_zero, Nat.sub_zero, read_min, ← hlen] at hcopy
    rw [if_neg h2, mappingOf_of_ne fl hne, mapViewOfFile_ok (by simp) hfit, ← hlen]
    simp only [hcopy, Option.bind_eq_bind, Option.bind_some, ne_eq, not_true_eq_false, if_false]
    rw [← mappingOf_of_ne fl hne]
    cases offset with
    | none =>
      refine ⟨_, rfl, ?_⟩
      exact ⟨rfl, rfl, hr, hw, hs⟩
    | some p => exact ⟨_, rfl, hm⟩

theorem writeView_spec {fl : Flags} {m size pos : ℕ} {p : ℕ}
    (hm : p + bufs.flatten.length ≤ m) (hf : p + bufs.flatten.length ≤ o.file.length) :
    writeView g o ⟨fl, false, some ⟨m, true⟩, size, pos⟩ bufs offset p bufs.flatten.length =
      some (⟨{ o with file := FlatFile.write 0 o.file p bufs.flatten },
        some ⟨fl, false, some ⟨m, true⟩, size, if offset.isNone then p + bufs.flatten.length else pos⟩⟩,
        .ok bufs.flatten.length) := by
  have hcopy := copyIn_spec (o := o) (p - p % g) (p % g) _ bufs 0 (by rwa [view_offset]) (Nat.zero_add _)
  rw [view_offset] at hcopy
  rw [writeView, mapViewOfFile_ok (fun _ => rfl) hm]
  simp only [hcopy, Option.bind_eq_bind, Option.bind_some, ne_eq, not_true_eq_false, if_false]
  cases offset with
  | none | some q => rfl

theorem close_mapping (hs : o.sections = if o.file = [] then 0 else 1) :
    (if (mappingOf fl o.file).isSome then o.closeSection else o) = { o with sections := 0 } := by
  by_cases h0 : o.file = []
  · rw [if_pos h0] at hs
    rw [mappingOf, if_pos h0, ← hs]
    rfl
  · rw [if_neg h0] at hs
    rw [mappingOf_of_ne fl h0, Os.closeSection, hs]
    rfl

theorem write_ne_nil {l : List UInt8} {p : ℕ} {d : List UInt8} (h : d ≠ []) : FlatFile.write 0 l p d ≠ [] := by
  intro h0
  have hlen := length_write 0 l p d
  have hpos := length_pos_iff.2 h
  rw [h0, length_nil] at hlen
  omega

theorem mapped_write (hm : Mapped fl f fd) (hb : bufs ≠ []) :
    ∃ fd', fsWrite g fd bufs offset = some (fd', (f.step fl (.write bufs offset)).2.1) ∧
      Mapped fl (f.step fl (.write bufs offset)).1 fd' := by
  obtain ⟨o, pos, rfl, rfl, hr, hw, hs⟩ := hm.eq
  simp only [OpenFile.step, if_neg hb, fsWrite, writeFilemap, total_map_length]
  by_cases hrw : fl.rw = .rdonly
  · rw [if_pos hrw, if_pos hrw]
    exact ⟨_, rfl, hm⟩
  rw [if_neg hrw, if_neg hrw]
  simp only [Bool.false_eq_true, if_false]
  by_cases hd : bufs.flatten = []
  · rw [if_pos hd, if_pos (by rw [hd, length_nil])]
    exact ⟨_, rfl, hm⟩
  have hlen := length_pos_iff.2 hd
  rw [if_neg hd, if_neg hlen.ne']
  generalize (if fl.append then o.file.length else offset.getD pos) = p
  have hwritable : decide (fl.rw ≠ .rdonly) = true := decide_eq_true hrw
  have hwritten := length_write 0 o.file p bufs.flatten
  by_cases hgrow : o.file.length < p + bufs.flatten.length
  · -- the old section, if there is one, is replaced by one that is large enough
    have hcreate : Os.createFileMapping { o with sections := 0 } true (p + bufs.flatten.length) =
        ({ o with file := resize 0 o.file (p + bufs.flatten.length), sections := 1 }, .ok ⟨p + bufs.flatten.length, true⟩) := by
      have hpos : p + bufs.flatten.length ≠ 0 := by omega
      rw [Os.createFileMapping]
      simp only [hr, hw hrw, if_neg hpos, if_neg (Nat.not_le.2 hgrow)]
      rfl
    rw [if_pos hgrow, close_mapping hs, hcreate]
    dsimp only
    rw [writeView_spec (Nat.le_refl _) (by rw [length_resize]), write_resize _ hgrow.le]
    refine ⟨_, rfl, ?_⟩
    have hne := write_ne_nil (l := o.file) (p := p) hd
    refine ⟨?_, rfl, hr, hw, (if_neg hne).symm⟩
    rw [mappingOf_of_ne fl hne, hwritten, max_eq_left hgrow.le, hwritable]
  · have h0 : o.file ≠ [] := by
      intro h0
      rw [h0, length_nil] at hgrow
      omega
    rw [if_neg hgrow, mappingOf_of_ne fl h0, hwritable, writeView_spec (Nat.not_lt.1 hgrow) (Nat.not_lt.1 hgrow)]
    refine ⟨_, rfl, ?_⟩
    have hne := write_ne_nil (l := o.file) (p := p) hd
    rw [if_neg h0] at hs
    refine ⟨?_, rfl, hr, hw, hs.trans (if_neg hne).symm⟩
    rw [mappingOf_of_ne fl hne, hwritten, max_eq_right (Nat.not_lt.1 hgrow), hwritable]

theorem mapped_truncate (hm : Mapped fl f fd) (hrw : fl.rw ≠ .rdonly) (n : ℕ) :
    ∃ fd', fsFtruncate fd n = (fd', (f.step fl (.ftruncate n)).2.1) ∧ Mapped fl (f.step fl (.ftruncate n)).1 fd' := by
  obtain ⟨o, pos, rfl, rfl, hr, hw, hs⟩ := hm.eq
  have hset : Os.setEndOfFile { o with sections := 0 } n = ({ o with file := resize 0 o.file n, sections := 0 }, none) := by
    rw [Os.setEndOfFile]
    simp only [hw hrw]
    rfl
  have hlen := length_resize 0 o.file n
  simp only [OpenFile.step, fsFtruncate, Bool.false_eq_true, if_false, close_mapping hs, hset]
  by_cases hn : n = 0
  · have hnil : resize 0 o.file n = [] := length_eq_zero_iff.1 (hlen.trans hn)
    rw [if_pos hn]
    refine ⟨_, rfl, ?_⟩
    refine ⟨?_, rfl, hr, hw, (if_pos hnil).symm⟩
    rw [hnil]
    rfl
  · have hne : resize 0 o.file n ≠ [] := by
      intro h0
      rw [h0] at hlen
      exact hn hlen.symm
    have hcreate : Os.createFileMapping { o with file := resize 0 o.file n, sections := 0 } true n =
        ({ o with file := resize 0 o.file n, sections := 1 }, .ok ⟨n, true⟩) := by
      rw [Os.createFileMapping]
      simp only [hr, hw hrw, if_neg hn, hlen, le_refl, if_true]
      rfl
    rw [if_neg hn, decide_eq_true hrw, hcreate]
    refine ⟨_, rfl, ?_⟩
    refine ⟨?_, rfl, hr, hw, (if_neg hne).symm⟩
    rw [mappingOf_of_ne fl hne, hlen, decide_eq_true hrw]

/-! ## Requests one after the other -/

theorem step_shows {P : OpenFile → Fd → Prop} (hP : ∀ {f fd}, P f fd → fd.os.file = f.file ∧ fd.pos = f.pos) (h : P f fd)
    (r : Req) (hread : ∀ bufs offset, bufs ≠ [] → r = .read bufs offset →
      ∃ fd', fsRead g fd bufs offset = some (fd', (f.step fl (.read bufs offset)).2) ∧
        P (f.step fl (.read bufs offset)).1 fd')
    (hwrite : ∀ bufs offset, bufs ≠ [] → r = .write bufs offset →
      ∃ fd', fsWrite g fd bufs offset = some (fd', (f.step fl (.write bufs offset)).2.1) ∧
        P (f.step fl (.write bufs offset)).1 fd')
    (htruncate : ∀ n, r = .ftruncate n →
      ∃ fd', fsFtruncate fd n = (fd', (f.step fl (.ftruncate n)).2.1) ∧ P (f.step fl (.ftruncate n)).1 fd') :
    ∃ fd', step g fd r = some (fd', OpenFile.outcome (f.step fl r)) ∧ P (f.step fl r).1 fd' := by
  cases r with
  | read bufs offset =>
    by_cases hb : bufs = []
    · obtain ⟨hfile, hpos⟩ := hP h
      subst hb
      exact ⟨fd, by rw [step, if_pos rfl, hfile, hpos]; rfl, h⟩
    · obtain ⟨fd', heq, h'⟩ := hread bufs offset hb rfl
      obtain ⟨hfile, hpos⟩ := hP h'
      refine ⟨fd', ?_, h'⟩
      rw [step, if_neg hb, heq, Option.map_some, hfile, hpos]
      rfl
  | write bufs offset =>
    by_cases hb : bufs = []
    · obtain ⟨hfile, hpos⟩ := hP h
      subst hb
      exact ⟨fd, by rw [step, if_pos rfl, hfile, hpos]; rfl, h⟩
    · obtain ⟨fd', heq, h'⟩ := hwrite bufs offset hb rfl
      obtain ⟨hfile, hpos⟩ := hP h'
      have hplaced : (f.step fl (.write bufs offset)).2.2 = [] := by
        rw [OpenFile.step]
        split_ifs <;> rfl
      refine ⟨fd', ?_, h'⟩
      rw [step, if_neg hb, heq, Option.map_some, hfile, hpos, OpenFile.outcome, hplaced]
  | ftruncate n =>
    obtain ⟨fd', heq, h'⟩ := htruncate n rfl
    obtain ⟨hfile, hpos⟩ := hP h'
    refine ⟨fd', ?_, h'⟩
    simp only [step, heq, hfile, hpos]
    rfl

theorem Plain.shows (hp : Plain fl f fd) : fd.os.file = f.file ∧ fd.pos = f.pos := by
  refine ⟨hp.file, ?_⟩
  rw [Fd.pos, hp.info]
  exact hp.pos

theorem Mapped.shows (hm : Mapped fl f fd) : fd.os.file = f.file ∧ fd.pos = f.pos := by
  refine ⟨hm.file, ?_⟩
  rw [Fd.pos, hm.info]
  rfl

/-- Without a mapping, requests do what is meant, except for truncating what was opened for appending. -/
theorem plain_step (hp : Plain fl f fd) (hmode : fl.rw = .rdonly → fl.append = false) {r : Req} (hr : Allowed fl r)
    (ht : fl.append = true → ∀ n, r ≠ .ftruncate n) (g : ℕ) :
    ∃ fd', step g fd r = some (fd', OpenFile.outcome (f.step fl r)) ∧ Plain fl (f.step fl r).1 fd' := by
  refine step_shows Plain.shows hp r ?_ ?_ ?_
  · rintro bufs offset hb rfl
    exact plain_read hp hb hr
  · rintro bufs offset hb rfl
    exact plain_write hp hmode hb hr
  · rintro n rfl
    exact plain_truncate hp hr (Bool.eq_false_iff.2 fun ha => ht ha n rfl) n

theorem filemap_step (hm : Mapped fl f fd) {r : Req} (hr : Allowed fl r) (g : ℕ) :
    ∃ fd', step g fd r = some (fd', OpenFile.outcome (f.step fl r)) ∧ Mapped fl (f.step fl r).1 fd' := by
  refine step_shows Mapped.shows hm r ?_ ?_ ?_
  · rintro bufs offset hb -
    exact mapped_read hm hb
  · rintro bufs offset hb -
    exact mapped_write hm hb
  · rintro n rfl
    exact mapped_truncate hm hr n

theorem filemap_run (hm : Mapped fl f fd) {reqs : List Req} (hreqs : ∀ r ∈ reqs, Allowed fl r) (g : ℕ) :
    run g fd reqs = some (f.run fl reqs) := by
  induction reqs generalizing f fd with
  | nil => rfl
  | cons r rs ih =>
    obtain ⟨fd', hstep, hm'⟩ := filemap_step hm (hreqs r mem_cons_self) g
    have hrest := ih hm' fun r hr => hreqs r (mem_cons_of_mem _ hr)
    rw [run, hstep, Option.bind_eq_bind, Option.bind_some]
    simp only [hrest]
    rfl

theorem plain_run (hp : Plain fl f fd) (hmode : fl.rw = .rdonly → fl.append = false) {reqs : List Req}
    (hreqs : ∀ r ∈ reqs, Allowed fl r) (g : ℕ) : ∃ outs, run g fd reqs = some outs ∧
      (outs = f.run fl reqs ↔ (fl.append = true → ∀ n, .ftruncate n ∉ reqs)) := by
  induction reqs generalizing f fd with
  | nil => exact ⟨[], rfl, by simp [OpenFile.run]⟩
  | cons r rs ih =>
    have hrs : ∀ r ∈ rs, Allowed fl r := fun r hr => hreqs r (mem_cons_of_mem _ hr)
    by_cases ht : fl.append = true → ∀ n, r ≠ .ftruncate n
    · obtain ⟨fd', hstep, hp'⟩ := plain_step hp hmode (hreqs r mem_cons_self) ht g
      obtain ⟨outs, hrest, hiff⟩ := ih hp' hrs
      refine ⟨OpenFile.outcome (f.step fl r) :: outs, ?_, ?_⟩
      · rw [run, hstep, Option.bind_eq_bind, Option.bind_some]
        simp only [hrest]
        rfl
      · rw [OpenFile.run, List.cons.injEq, and_iff_right rfl, hiff]
        refine forall_congr' fun ha => forall_congr' fun n => ?_
        rw [mem_cons, not_or, and_iff_right (ht ha n).symm]
    · push Not at ht
      obtain ⟨ha, n, rfl⟩ := ht
      obtain ⟨outs, hrest, -⟩ := ih hp hrs
      refine ⟨⟨.error .accessDenied, [], fd.os.file, fd.pos⟩ :: outs, ?_, ?_⟩
      · rw [run, step, plain_truncate_append hp ha, Option.bind_eq_bind, Option.bind_some]
        simp only [hrest]
        rfl
      · -- what is meant is that the file is truncated
        refine iff_of_false ?_ fun h => h ha n mem_cons_self
        intro heq
        have hhead := congrArg Outcome.result (List.cons.inj heq).1
        exact absurd hhead (by simp [OpenFile.step, OpenFile.outcome])

theorem plain_open (mode : Rw) (append : Bool) (file : List UInt8) :
    ∃ fd, fsOpen ⟨mode, append, false⟩ file = some fd ∧ Plain ⟨mode, append, false⟩ ⟨file, 0⟩ fd :=
  ⟨_, rfl, rfl, rfl, rfl, rfl, rfl⟩

theorem filemap_open (mode : Rw) (append : Bool) (file : List UInt8) :
    ∃ fd, fsOpen ⟨mode, append, true⟩ file = some fd ∧ Mapped ⟨mode, append, true⟩ ⟨file, 0⟩ fd := by
  have hr : (accessOf (adjust ⟨mode, append, true⟩)).readData = true := by
    cases mode <;> cases append <;> rfl
  have hw : mode ≠ .rdonly → (accessOf (adjust ⟨mode, append, true⟩)).writeData = true := by
    intro h
    cases mode with
    | rdonly => exact absurd rfl h
    | wronly | rdwr => cases append <;> rfl
  by_cases h0 : file = []
  · subst h0
    exact ⟨_, rfl, rfl, rfl, hr, hw, rfl⟩
  · have hlen : file.length ≠ 0 := fun h => h0 (length_eq_zero_iff.1 h)
    have hdenied : (decide (mode ≠ .rdonly) && !(accessOf (adjust ⟨mode, append, true⟩)).writeData) = false := by
      by_cases h : mode = .rdonly
      · rw [decide_eq_false (not_not_intro h), Bool.false_and]
      · rw [hw h, Bool.not_true, Bool.and_false]
    have hcreate : Os.createFileMapping ⟨file, accessOf (adjust ⟨mode, append, true⟩), 0, 0⟩ (mode ≠ .rdonly) file.length =
        (⟨file, accessOf (adjust ⟨mode, append, true⟩), 0, 1⟩, .ok ⟨file.length, decide (mode ≠ .rdonly)⟩) := by
      rw [Os.createFileMapping]
      simp only [hr, if_neg hlen, hdenied, le_refl, if_true]
      rfl
    simp only [fsOpen, if_neg hlen, hcreate, if_true]
    exact ⟨_, rfl, by rw [mappingOf_of_ne _ h0], rfl, hr, hw, (if_neg h0).symm⟩

theorem OpenFile.run_filemap (mode : Rw) (append : Bool) (f : OpenFile) (reqs : List Req) :
    f.run ⟨mode, append, false⟩ reqs = f.run ⟨mode, append, true⟩ reqs := by
  induction reqs generalizing f with
  | nil => rfl
  | cons r rs ih =>
    have hstep : f.step ⟨mode, append, false⟩ r = f.step ⟨mode, append, true⟩ r := by
      cases r <;> rfl
    rw [run, run, hstep, ih]

/-- Results, buffers, contents and positions are the same with and without a mapping, unless a file that was opened for
appending is truncated: its handle has no right to write, and that of the mapping has. -/
theorem filemap_agrees (g : ℕ) (mode : Rw) (append : Bool) (hmode : mode = .rdonly → append = false) (file : List UInt8)
    (reqs : List Req) (hreqs : ∀ r ∈ reqs, Allowed ⟨mode, append, true⟩ r) :
    ∃ p q outs outs', fsOpen ⟨mode, append, false⟩ file = some p ∧ fsOpen ⟨mode, append, true⟩ file = some q ∧
      run g p reqs = some outs ∧ run g q reqs = some outs' ∧
      (outs = outs' ↔ (append = true → ∀ n, .ftruncate n ∉ reqs)) := by
  obtain ⟨p, hopen, hp⟩ := plain_open mode append file
  obtain ⟨q, hopen', hq⟩ := filemap_open mode append file
  have hplain : ∀ r ∈ reqs, Allowed ⟨mode, append, false⟩ r := by
    intro r hr
    have h := hreqs r hr
    cases r with
    | read bufs offset | write bufs offset | ftruncate n => exact h
  obtain ⟨outs, hrun, hiff⟩ := plain_run hp hmode hplain g
  rw [OpenFile.run_filemap] at hiff
  exact ⟨p, q, outs, _, hopen, hopen', hrun, filemap_run hq hreqs g, hiff⟩

/-- A hole, the end of the file, and a file that becomes empty and grows again. -/
def fiveReqs : List Req :=
  [.write [[3], [4, 5]] (some 4), .read [3, 9] (some 1), .ftruncate 0, .read [1] none, .write [[6]] none]

theorem filemap_agrees_five : ∃ p q outs outs', fsOpen ⟨.rdwr, false, false⟩ [1, 2] = some p ∧
    fsOpen ⟨.rdwr, false, true⟩ [1, 2] = some q ∧ run 65536 p fiveReqs = some outs ∧ run 65536 q fiveReqs = some outs' ∧
    outs = outs' := by
  obtain ⟨p, q, outs, outs', hp, hq, hrun, hrun', hiff⟩ := filemap_agrees 65536 .rdwr false (fun _ => rfl) [1, 2] fiveReqs
    (by simp [fiveReqs, Allowed, total, dword])
  exact ⟨p, q, outs, outs', hp, hq, hrun, hrun', hiff.2 (by simp)⟩

/-- With the mapping the file is truncated, and without it is not. -/
theorem truncate_append : ∃ p q, fsOpen ⟨.rdwr, true, false⟩ [1] = some p ∧ fsOpen ⟨.rdwr, true, true⟩ [1] = some q ∧
    run 65536 p [.ftruncate 0] = some [⟨.error .accessDenied, [], [1], 0⟩] ∧
    run 65536 q [.ftruncate 0] = some [⟨.ok 0, [], [], 0⟩] ∧
    run 65536 p [.ftruncate 0] ≠ run 65536 q [.ftruncate 0] := by
  have hp : run 65536 ⟨⟨[1], ⟨true, false, true⟩, 0, 0⟩, none⟩ [.ftruncate 0] =
      some [⟨.error .accessDenied, [], [1], 0⟩] := rfl
  have hq : run 65536 ⟨⟨[1], ⟨true, true, true⟩, 0, 1⟩, some ⟨⟨.rdwr, true, true⟩, false, some ⟨1, true⟩, 1, 0⟩⟩
      [.ftruncate 0] = some [⟨.ok 0, [], [], 0⟩] := rfl
  refine ⟨_, _, rfl, rfl, hp, hq, ?_⟩
  intro heq
  have h := hp.symm.trans (heq.trans hq)
  simp at h

end Libuv.L5.FileMap
