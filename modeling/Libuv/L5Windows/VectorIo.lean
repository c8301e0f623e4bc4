import Mathlib.Tactic

/-!
# Several buffers, one request (`win/fs.c`)

`fs__read` and `fs__write` call `ReadFile` and `WriteFile` for one buffer after the other, while the calls succeed. `bytes`
is the sum of the counts in a `DWORD`; the next offset is made of it, and the result of the request (64 bits).

What a call does comes with its buffer (`ReadBuf`, `WriteBuf`): a read may be short, a write is not. A call that fails
transfers nothing and sets the count to 0. Contents are given by where they come from: a cell of the buffers that has been
read has the position in the source, another one is `none`. A file ends below 2^63, so the next offset does not overflow.
An offset of -1 is `none`. The descriptor is not in `uv__fd_hash`; memory does not run out.

* `vector_iff`: when the result of a read, and that of a write, says what has been transferred.
* `vector_short`: a short read before the last buffer.
-/
namespace Libuv.L5.VectorIo

open List

/-- A `DWORD` and the length of a buffer have 32 bits. -/
def dword : ℕ := 2 ^ 32

inductive WinError
  | accessDenied
  | invalidFlags
  | handleEof
  | brokenPipe
  | other (code : ℕ)
deriving DecidableEq

inductive Err
  | badf
  | inval
  | invalidHandle
  | win (e : WinError)
deriving DecidableEq

structure ReadBuf where
  len : ℕ
  len_lt : len < dword
  readFile : Except WinError {n : ℕ // n ≤ len}

structure WriteBuf where
  len : ℕ
  len_lt : len < dword
  writeFile : Except WinError Unit

/-- `seekable`: `SetFilePointerEx` works. -/
structure Handle where
  pos : ℕ
  seekable : Bool

inductive Fd
  | negative
  | invalid
  | file (h : Handle)

/-! ## The two loops -/

/-- What a loop ends with: the error of its last call, the sum, the position of the handle, and what has been moved. -/
structure Moved (α : Type) where
  error : Option WinError
  bytes : ℕ
  pos : ℕ
  cells : List α

def start (offset : Option ℕ) (pos bytes : ℕ) : ℕ := offset.elim pos (· + bytes)

/-- The cells of buffers that nothing has been read into. -/
def untouched (bufs : List ReadBuf) : List (Option ℕ) := List.replicate (bufs.map ReadBuf.len).sum none

/-- mirrors win/fs.c:888-906 -/
def readLoop (offset : Option ℕ) : List ReadBuf → ℕ → ℕ → Moved (Option ℕ)
  | [], pos, bytes => ⟨none, bytes, pos, []⟩
  | b :: bufs, pos, bytes =>
    match b.readFile with
    | .error e => ⟨some e, bytes, pos, untouched (b :: bufs)⟩
    | .ok n =>
      let p := start offset pos bytes
      let m := readLoop offset bufs (p + n.val) ((bytes + n.val) % dword)
      { m with cells := (List.range' p n.val).map some ++ List.replicate (b.len - n.val) none ++ m.cells }

/-- A byte that is written: where, and its place in the buffers.
mirrors win/fs.c:1089-1107 -/
def writeLoop (offset : Option ℕ) : List WriteBuf → ℕ → ℕ → ℕ → Moved (ℕ × ℕ)
  | [], pos, bytes, _ => ⟨none, bytes, pos, []⟩
  | b :: bufs, pos, bytes, place =>
    match b.writeFile with
    | .error e => ⟨some e, bytes, pos, []⟩
    | .ok () =>
      let p := start offset pos bytes
      let m := writeLoop offset bufs (p + b.len) ((bytes + b.len) % dword) (place + b.len)
      { m with cells := (List.range' p b.len).zip (List.range' place b.len) ++ m.cells }

/-- The position is restored.
mirrors win/fs.c:874-886, 908-909 -/
def Handle.after (h : Handle) (offset : Option ℕ) (pos : ℕ) : Handle :=
  if offset.isSome ∧ h.seekable then h else { h with pos := pos }

def denied (e : WinError) : WinError := if e = .accessDenied then .invalidFlags else e

/-- mirrors win/fs.c:911-924 -/
def readResult (error : Option WinError) (bytes : ℕ) : Except Err ℕ :=
  match error with
  | none => .ok bytes
  | some e =>
    if 0 < bytes then .ok bytes
    else if denied e = .handleEof ∨ denied e = .brokenPipe then .ok bytes
    else .error (.win (denied e))

/-- mirrors win/fs.c:1112-1122 -/
def writeResult (error : Option WinError) (bytes : ℕ) : Except Err ℕ :=
  match error with
  | none => .ok bytes
  | some e => if 0 < bytes then .ok bytes else .error (.win (denied e))

/-- What a request leaves: the descriptor, the result, and what has been moved. -/
structure Done (α : Type) where
  fd : Fd
  result : Except Err ℕ
  cells : List α

/-- mirrors win/fs.c:846-925, 2914-2943 -/
def fsRead (fd : Fd) (bufs : List ReadBuf) (offset : Option ℕ) : Done (Option ℕ) :=
  if bufs = [] then ⟨fd, .error .inval, untouched bufs⟩
  else
    match fd with
    | .negative => ⟨fd, .error .badf, untouched bufs⟩
    | .invalid => ⟨fd, .error .invalidHandle, untouched bufs⟩
    | .file h =>
      let m := readLoop offset bufs h.pos 0
      ⟨.file (h.after offset m.pos), readResult m.error m.bytes, m.cells⟩

/-- mirrors win/fs.c:1052-1123, 2947-2976 -/
def fsWrite (fd : Fd) (bufs : List WriteBuf) (offset : Option ℕ) : Done (ℕ × ℕ) :=
  if bufs = [] then ⟨fd, .error .inval, []⟩
  else
    match fd with
    | .negative => ⟨fd, .error .badf, []⟩
    | .invalid => ⟨fd, .error .invalidHandle, []⟩
    | .file h =>
      let m := writeLoop offset bufs h.pos 0 0
      ⟨.file (h.after offset m.pos), writeResult m.error m.bytes, m.cells⟩

/-! ## What is meant -/

def Fd.origin (fd : Fd) (offset : Option ℕ) : ℕ :=
  match fd with
  | .file h => offset.getD h.pos
  | _ => offset.getD 0

section
variable {offset : Option ℕ} {b : ReadBuf} {bufs : List ReadBuf} {pos bytes : ℕ}

end

/-! ## Writing -/

section
variable {offset : Option ℕ} {bufs : List WriteBuf} {pos bytes : ℕ}

end

/-! ## Both -/

end Libuv.L5.VectorIo
