import Libuv.Core.Count
import Libuv.L5Windows.PipeRead

/-!
# Writing frames to an IPC pipe on Windows (`win/pipe.c`)

`uv__pipe_write_ipc` collects the header of a frame, the record of a socket and the buffers of the user in an array, which
`uv__pipe_write_data` is told to copy: `uv__build_coalesced_write_req` goes through it with an `unsigned int`. The array has
six places on the stack, with nothing in them, or is `uv__calloc`'d. A read of a place with nothing in it, a write outside of
the array and a failed assertion are `none`, and so is a loop that has not ended within `fuel` rounds.

* `writeIpc_iff`: the bytes are a frame with the record and the data if and only if the data is not only empty buffers in an
  array on the stack, and the number of the buffers is one the index can count.
-/
namespace Libuv.L5.IpcWrite

open PipeRead List Option

/-! ## The socket -/

inductive Err
  | enobufs
  | notSupported
  | notEnoughMemory
  | wsa (e : ℕ)
deriving DecidableEq

/-- `WSAPROTOCOL_INFOW` -/
structure ProtocolInfo where
  bytes : List UInt8
  length_eq : bytes.length = 628

structure SendHandle where
  isTcp : Bool
  connection : Bool
  listening : Bool
  bound : Bool
  delayedError : BitVec 32

/-- The outcomes of `listen`, `WSADuplicateSocketW` and `uv__calloc`. -/
structure Outcome where
  listen : Option (BitVec 32)
  duplicate : Except ℕ ProtocolInfo
  calloc : Bool

/-- mirrors win/tcp.c:1260-1292 -/
def tcpXferExport (h : SendHandle) (o : Outcome) : Except Err Record :=
  let listens := !h.connection && !h.listening
  if listens && !h.bound then .error .notSupported
  else
    let delayedError := if listens && h.delayedError == 0 then o.listen.getD 0 else h.delayedError
    match o.duplicate with
    | .error e => .error (.wsa e)
    | .ok info => .ok (if h.connection then .tcpConnection else .tcpServer, info.bytes ++ wordBytes delayedError)

/-- mirrors win/pipe.c:1698-1712 -/
def exported (send : Option SendHandle) (o : Outcome) : Except Err (Option Record) :=
  match send with
  | none => .ok none
  | some h => if h.isTcp then (tcpXferExport h o).map some else .error .notSupported

/-! ## The array -/

/-- What a `uv_buf_t` points to; `zero` is what `uv__calloc` leaves. -/
inductive Entry
  | frameHeader
  | xferInfo
  | data (bytes : List UInt8)
  | zero
deriving DecidableEq

def Entry.len : Entry → ℕ
  | .frameHeader => headerSize
  | .xferInfo => xferInfoSize
  | .data bytes => bytes.length
  | .zero => 0

def Entry.bytes (header : FrameHeader) (info : List UInt8) : Entry → List UInt8
  | .frameHeader => header.bytes
  | .xferInfo => info
  | .data bytes => bytes
  | .zero => []

def put (bufs : List (Option Entry)) (i : ℕ) (e : Entry) : Option (List (Option Entry)) :=
  if i < bufs.length then some (bufs.set i (some e)) else none

def putAll (bufs : List (Option Entry)) (i : ℕ) : List Entry → Option (List (Option Entry))
  | [] => some bufs
  | e :: es => (put bufs i e).bind fun bufs => putAll bufs (i + 1) es

/-- The arguments of `uv__pipe_write_data`, and what is on the stack of its caller. -/
structure Handed where
  bufs : List (Option Entry)
  nbufs : ℕ
  header : FrameHeader
  info : List UInt8

def uint32Max : ℕ := 2 ^ 32 - 1

/-- mirrors win/pipe.c:1738-1748 -/
def xferFlags : XferType → Option (BitVec 32)
  | .tcpConnection => some (UV_IPC_FRAME_HAS_SOCKET_XFER ||| UV_IPC_FRAME_XFER_IS_TCP_CONNECTION)
  | .tcpServer => some UV_IPC_FRAME_HAS_SOCKET_XFER
  | .none => none

/-- The record goes into the array, and its flags into the header.
mirrors win/pipe.c:1736-1751 -/
def addXfer (record : Option Record) (bufs : List (Option Entry)) : Option (List (Option Entry) × ℕ × BitVec 32) :=
  match record with
  | none => some (bufs, 1, 0)
  | some r => (xferFlags r.1).bind fun flags => (put bufs 1 .xferInfo).map fun bufs => (bufs, 2, flags)

/-- mirrors win/pipe.c:1719-1760 -/
def collect (data : List (List UInt8)) (dataLength : ℕ) (record : Option Record) (bufCount : ℕ) : Option Handed := do
  let bufs := if bufCount < 6 then List.replicate 6 none else List.replicate bufCount (some .zero)
  let bufs ← put bufs 0 .frameHeader
  let added ← addXfer record bufs
  let info := (record.map fun r => r.2).getD []
  if 0 < dataLength then
    let bufs ← putAll added.1 added.2.1 (data.map .data)
    return ⟨bufs, bufCount, ⟨added.2.2 ||| UV_IPC_FRAME_HAS_DATA, 0, .ofNat 32 dataLength, 0⟩, info⟩
  else return ⟨added.1, bufCount, ⟨added.2.2, 0, 0, 0⟩, info⟩

/-- mirrors win/pipe.c:1673-1772 -/
def uvPipeWriteIpc (data : List (List UInt8)) (send : Option SendHandle) (o : Outcome) : Option (Except Err Handed) :=
  let dataLength := (data.map List.length).sum
  if uint32Max < dataLength then some (.error .enobufs)
  else
    match exported send o with
    | .error e => some (.error e)
    | .ok record =>
      let bufCount := 1 + data.length + (if send.isSome then 1 else 0)
      if 6 ≤ bufCount ∧ o.calloc = false then some (.error .notEnoughMemory)
      else (collect data dataLength record bufCount).map .ok

namespace Handed
variable (h : Handed)

/-- The place `bufs[i]`. -/
def get (i : ℕ) : Option Entry := h.bufs[i]?.join

def addLen (i n : ℕ) : Option ℕ := (h.get i).map fun e => n + e.len

def copy (i : ℕ) (out : List UInt8) : Option (List UInt8) := (h.get i).map fun e => out ++ e.bytes h.header h.info

/-- mirrors win/pipe.c:1449-1506 -/
def uvBuildCoalescedWriteReq (fuel : ℕ) (malloc : Bool) : Option (Except Err (List UInt8)) := do
  let n ← Count.loop 32 h.nbufs h.addLen fuel 0
  if uint32Max < n then return .error .enobufs
  if malloc = false then return .error .notEnoughMemory
  let out ← Count.loop 32 h.nbufs h.copy fuel []
  if out.length = n then return .ok out else none

def Coalesces (malloc : Bool) (r : Except Err (List UInt8)) : Prop := ∃ fuel, h.uvBuildCoalescedWriteReq fuel malloc = some r

end Handed

/-! ## Filling the array -/

variable {suf bufs : List (Option Entry)} {es : List Entry} {h : Handed}

theorem put_append (pre : List (Option Entry)) (x : Option Entry) (e : Entry) :
    put (pre ++ x :: suf) pre.length e = some (pre ++ some e :: suf) := by
  rw [put]
  simp

theorem putAll_append (pre : List (Option Entry)) (hle : es.length ≤ suf.length) :
    putAll (pre ++ suf) pre.length es = some (pre ++ es.map some ++ suf.drop es.length) := by
  induction es generalizing pre suf with
  | nil => simp [putAll]
  | cons e es ih =>
    cases suf with
    | nil => simp at hle
    | cons x suf =>
      rw [putAll, put_append]
      have := ih (pre ++ [some e]) (by simpa using hle)
      simpa using this

def blank (n : ℕ) : List (Option Entry) := if n < 6 then List.replicate 6 none else List.replicate n (some .zero)

theorem le_blank {n : ℕ} : n ≤ (blank n).length := by
  unfold blank
  split
  · rw [length_replicate]
    omega
  · rw [length_replicate]

def total (data : List (List UInt8)) : ℕ := (data.map List.length).sum

def socketFlags (record : Option Record) : BitVec 32 := (record.bind fun r => xferFlags r.1).getD 0

def header (data : List (List UInt8)) (record : Option Record) : FrameHeader :=
  if 0 < total data then ⟨socketFlags record ||| UV_IPC_FRAME_HAS_DATA, 0, .ofNat 32 (total data), 0⟩
  else ⟨socketFlags record, 0, 0, 0⟩

def entries (data : List (List UInt8)) (record : Option Record) : List Entry :=
  .frameHeader :: (record.toList.map fun _ => .xferInfo) ++ if 0 < total data then data.map .data else []

def xferBytes (record : Option Record) : List UInt8 := (record.map fun r => r.2).getD []

def handed (data : List (List UInt8)) (record : Option Record) (n : ℕ) : Handed :=
  ⟨(entries data record).map some ++ (blank n).drop (entries data record).length, n, header data record, xferBytes record⟩

/-- A record that `uv__tcp_xfer_export` has made. -/
def Exported (record : Option Record) : Prop := ∀ r ∈ record, r.1 ≠ .none ∧ r.2.length = xferInfoSize

variable {data : List (List UInt8)} {record : Option Record} {send : Option SendHandle} {o : Outcome} {n : ℕ}

theorem exported_spec (h : exported send o = .ok record) : Exported record ∧ record.isSome = send.isSome := by
  cases send with
  | none =>
    cases h
    exact ⟨fun r hr => (not_mem_none r hr).elim, rfl⟩
  | some s =>
    simp only [exported, tcpXferExport] at h
    split at h
    · split at h
      · cases h
      · cases hd : o.duplicate with
        | error e =>
          rw [hd] at h
          cases h
        | ok info =>
          rw [hd] at h
          cases h
          refine ⟨fun r hr => ?_, rfl⟩
          obtain rfl := mem_some.1 hr
          refine ⟨?_, ?_⟩
          · split <;> exact XferType.noConfusion
          · rw [length_append, info.length_eq]
            rfl
    · cases h

theorem collect_eq (hr : Exported record) (hn : n = 1 + data.length + record.toList.length) :
    collect data (total data) record n = some (handed data record n) := by
  have hlen := le_blank (n := n)
  obtain ⟨x, suf, hb⟩ := exists_cons_of_length_pos (l := blank n) (by omega)
  have hfirst : put (blank n) 0 .frameHeader = some (some .frameHeader :: suf) := by
    rw [hb]
    exact put_append [] x .frameHeader
  have hadd : ∃ suf', addXfer record (some .frameHeader :: suf) = some
        (some .frameHeader :: (record.toList.map fun _ => some .xferInfo) ++ suf', 1 + record.toList.length, socketFlags record) ∧
      data.length ≤ suf'.length ∧ suf' = (blank n).drop (1 + record.toList.length) := by
    rw [hb, length_cons] at hlen
    cases record with
    | none => exact ⟨suf, rfl, by simp at hn; omega, by rw [hb]; rfl⟩
    | some r =>
      simp only [toList_some, length_singleton] at hn
      obtain ⟨y, suf', rfl⟩ := exists_cons_of_length_pos (l := suf) (by omega)
      obtain ⟨flags, hf⟩ : ∃ flags, xferFlags r.1 = some flags := by
        cases ht : r.1 with
        | none => exact absurd ht (hr r rfl).1
        | tcpConnection | tcpServer => exact ⟨_, rfl⟩
      refine ⟨suf', ?_, by simp at hlen; omega, by rw [hb]; rfl⟩
      have hput : put (some .frameHeader :: y :: suf') 1 .xferInfo = some (some .frameHeader :: some .xferInfo :: suf') :=
        put_append [some .frameHeader] y .xferInfo
      simp only [addXfer, hf, bind_some, socketFlags, getD_some]
      rfl
  obtain ⟨suf', hadd, hle, rfl⟩ := hadd
  have hcol : collect data (total data) record n = (put (blank n) 0 .frameHeader).bind fun bufs => (addXfer record bufs).bind
      fun added =>
        if 0 < total data then (putAll added.1 added.2.1 (data.map .data)).bind fun bufs =>
          some ⟨bufs, n, ⟨added.2.2 ||| UV_IPC_FRAME_HAS_DATA, 0, .ofNat 32 (total data), 0⟩, xferBytes record⟩
        else some ⟨added.1, n, ⟨added.2.2, 0, 0, 0⟩, xferBytes record⟩ := rfl
  rw [hcol, hfirst, bind_some, hadd]
  unfold handed entries header
  split
  · have hput := putAll_append (some .frameHeader :: record.toList.map fun _ => some .xferInfo)
      (show (data.map Entry.data).length ≤ ((blank n).drop (1 + record.toList.length)).length by rwa [length_map])
    simp only [length_cons, length_map, Nat.add_comm] at hput
    simp only [hput, bind_some]
    simp [Function.comp_def, Nat.add_comm, Nat.add_left_comm]
  · simp [Nat.add_comm]

theorem handed_eq (data : List (List UInt8)) (send : Option SendHandle) (o : Outcome) :
    ∃ r, uvPipeWriteIpc data send o = some r ∧ ∀ h, r = .ok h → ∃ record, exported send o = .ok record ∧
      Exported record ∧ record.toList.length = send.toList.length ∧ total data ≤ uint32Max ∧
      h = handed data record (1 + data.length + send.toList.length) := by
  have hcount : (if send.isSome then 1 else 0) = send.toList.length := by cases send <;> rfl
  simp only [uvPipeWriteIpc, hcount]
  split
  · exact ⟨_, rfl, fun h hh => by cases hh⟩
  rename_i hle
  cases hx : exported send o with
  | error e => exact ⟨_, rfl, fun h hh => by cases hh⟩
  | ok record =>
    obtain ⟨hr, hs⟩ := exported_spec hx
    have hlen : record.toList.length = send.toList.length := by
      cases record <;> cases send <;> first | rfl | cases hs
    dsimp only
    split
    · exact ⟨_, rfl, fun h hh => by cases hh⟩
    · rw [show (data.map List.length).sum = total data from rfl, collect_eq hr (by rw [hlen])]
      refine ⟨_, rfl, fun h hh => ⟨record, rfl, hr, hlen, not_lt.1 hle, ?_⟩⟩
      cases hh
      rfl

/-! ## Copying -/

section
variable {σ : Type} {s : σ}

theorem foldlM_get (g : σ → Entry → σ) : (List.range es.length).foldlM
    (fun s i => ((es.map some ++ suf)[i]?.join).map (g s)) s = some (es.foldl g s) := by
  induction es using List.reverseRecOn generalizing suf with
  | nil => rfl
  | append_singleton es e ih =>
    have hassoc : (es ++ [e]).map some ++ suf = es.map some ++ some e :: suf := by simp
    rw [hassoc, length_append, length_singleton, range_succ, foldlM_append, ih]
    simp

theorem foldlM_none {f : σ → ℕ → Option σ} {i : ℕ} (hi : ∀ s, f s i = none) {l : List ℕ} (hm : i ∈ l) :
    l.foldlM f s = none := by
  induction l generalizing s with
  | nil => cases hm
  | cons j l ih =>
    rw [foldlM_cons]
    rcases mem_cons.1 hm with rfl | hm
    · rw [hi]
      rfl
    · cases f s j with
      | none => rfl
      | some t => exact ih hm

end

theorem foldl_addLen {header : FrameHeader} {info : List UInt8} (hlen : ∀ e ∈ es, (e.bytes header info).length = e.len)
    (n : ℕ) : es.foldl (fun n e => n + e.len) n = n + (es.flatMap fun e => e.bytes header info).length := by
  induction es generalizing n with
  | nil => rfl
  | cons e es ih =>
    rw [foldl_cons, ih fun e he => hlen e (mem_cons_of_mem _ he), flatMap_cons, length_append,
      hlen e mem_cons_self, Nat.add_assoc]

theorem coalesces_of (hb : h.bufs = es.map some ++ suf) (hn : h.nbufs = es.length) (hlt : h.nbufs < 2 ^ 32)
    (hlen : ∀ e ∈ es, (e.bytes h.header h.info).length = e.len) {out : List UInt8}
    (hout : (es.flatMap fun e => e.bytes h.header h.info) = out) (malloc : Bool) :
    h.Coalesces malloc (if uint32Max < out.length then .error .enobufs else if malloc = false then .error .notEnoughMemory
      else .ok out) := by
  obtain ⟨n₁, h₁⟩ := (Count.ends_iff h.addLen 0 hlt).2
    (show (List.range h.nbufs).foldlM (fun s i => h.addLen i s) 0 = some out.length by
      unfold Handed.addLen Handed.get
      rw [hn, hb, foldlM_get fun n e => n + e.len, foldl_addLen hlen, hout, Nat.zero_add])
  obtain ⟨n₂, h₂⟩ := (Count.ends_iff h.copy [] hlt).2
    (show (List.range h.nbufs).foldlM (fun s i => h.copy i s) [] = some out by
      unfold Handed.copy Handed.get
      rw [hn, hb, foldlM_get fun l e => l ++ e.bytes h.header h.info, flatMap_eq_foldl] at *
      exact congrArg some hout)
  refine ⟨max n₁ n₂, ?_⟩
  simp only [Handed.uvBuildCoalescedWriteReq, Count.loop_mono h₁ (le_max_left n₁ n₂),
    Count.loop_mono h₂ (le_max_right n₁ n₂), bind_eq_bind, bind_some, if_true]
  split_ifs <;> rfl

theorem build_mono {fuel fuel' : ℕ} {malloc : Bool} {r : Except Err (List UInt8)}
    (hf : h.uvBuildCoalescedWriteReq fuel malloc = some r) (hle : fuel ≤ fuel') :
    h.uvBuildCoalescedWriteReq fuel' malloc = some r := by
  unfold Handed.uvBuildCoalescedWriteReq at hf ⊢
  obtain ⟨n, hn, hf⟩ := bind_eq_some_iff.1 hf
  simp only [Count.loop_mono hn hle, bind_eq_bind, bind_some]
  split_ifs at hf ⊢
  · exact hf
  · exact hf
  · obtain ⟨out, hout, hf⟩ := bind_eq_some_iff.1 hf
    rw [Count.loop_mono hout hle]
    exact hf

theorem coalesces_unique {malloc : Bool} {r r' : Except Err (List UInt8)} (hr : h.Coalesces malloc r)
    (hr' : h.Coalesces malloc r') : r = r' := by
  obtain ⟨fuel, hf⟩ := hr
  obtain ⟨fuel', hf'⟩ := hr'
  exact some.inj ((build_mono hf (le_max_left fuel fuel')).symm.trans (build_mono hf' (le_max_right fuel fuel')))

theorem coalesces_initialised {malloc : Bool} {r : Except Err (List UInt8)} (hc : h.Coalesces malloc r) :
    h.nbufs < 2 ^ 32 ∧ ∀ i < h.nbufs, h.get i ≠ none := by
  obtain ⟨fuel, hc⟩ := hc
  obtain ⟨n, hn, -⟩ := bind_eq_some_iff.1 hc
  have hlt : h.nbufs < 2 ^ 32 := by
    by_contra hle
    rw [Count.not_ends (not_lt.1 hle)] at hn
    cases hn
  refine ⟨hlt, fun i hi hget => ?_⟩
  have hfold := (Count.ends_iff h.addLen 0 hlt).1 ⟨fuel, hn⟩
  rw [foldlM_none (fun s => by rw [Handed.addLen, hget]; rfl) (mem_range.2 hi)] at hfold
  cases hfold

/-! ## The frame -/

theorem socketFlags_cases (hr : Exported record) : record = none ∧ socketFlags record = 0 ∨
    ∃ r, record = some r ∧ r.2.length = xferInfoSize ∧ (r.1 = .tcpConnection ∧ socketFlags record = 6 ∨
      r.1 = .tcpServer ∧ socketFlags record = 2) := by
  cases record with
  | none => exact .inl ⟨rfl, rfl⟩
  | some r =>
    obtain ⟨ht, hlen⟩ := hr r rfl
    obtain ⟨type, info⟩ := r
    cases type with
    | none => exact absurd rfl ht
    | tcpConnection => exact .inr ⟨_, rfl, hlen, .inl ⟨rfl, rfl⟩⟩
    | tcpServer => exact .inr ⟨_, rfl, hlen, .inr ⟨rfl, rfl⟩⟩

theorem header_fields (data : List (List UInt8)) (record : Option Record) : (header data record).flags =
      (if 0 < total data then socketFlags record ||| UV_IPC_FRAME_HAS_DATA else socketFlags record) ∧
    (header data record).reserved2 = 0 ∧ (header data record).dataLength = .ofNat 32 (total data) := by
  unfold header
  split
  · exact ⟨rfl, rfl, rfl⟩
  · rename_i h
    rw [Nat.eq_zero_of_not_pos h]
    exact ⟨rfl, rfl, rfl⟩

theorem header_spec (hr : Exported record) : (header data record).Valid ∧
    (header data record).xferType = (record.map fun r => r.1).getD .none ∧
    ((header data record).flags &&& UV_IPC_FRAME_HAS_DATA ≠ 0 ↔ 0 < total data) := by
  obtain ⟨hflags, hres, hlen⟩ := header_fields data record
  have hdata : ¬ 0 < total data → (header data record).dataLength = 0 := fun h => by
    rw [hlen, Nat.eq_zero_of_not_pos h]
    rfl
  suffices h : ((header data record).flags &&& ~~~ UV_IPC_FRAME_VALID_FLAGS = 0 ∧
      ((header data record).flags &&& UV_IPC_FRAME_XFER_IS_TCP_CONNECTION ≠ 0 →
        (header data record).flags &&& UV_IPC_FRAME_HAS_SOCKET_XFER ≠ 0)) ∧
      (header data record).xferType = (record.map fun r => r.1).getD .none ∧
      ((header data record).flags &&& UV_IPC_FRAME_HAS_DATA ≠ 0 ↔ 0 < total data) from
    ⟨⟨h.1.1, hres, h.1.2, fun h0 => hdata fun hpos => h.2.2.2 hpos h0⟩, h.2⟩
  obtain ⟨rfl, hf⟩ | ⟨r, rfl, -, ⟨ht, hf⟩ | ⟨ht, hf⟩⟩ := socketFlags_cases hr
  all_goals
    simp only [FrameHeader.xferType, hflags, hf, map_some, map_none, getD_some, getD_none]
    by_cases hpos : 0 < total data
    · simp only [hpos, if_true, iff_true]
      first | decide | exact ⟨by decide, by rw [ht]; decide, by decide⟩
    · simp only [hpos, if_false, iff_false]
      first | decide | exact ⟨by decide, by rw [ht]; decide, by decide⟩

def frame (hr : Exported record) (hle : total data ≤ uint32Max) : Frame where
  header := header data record
  xferInfo := xferBytes record
  payload := data.flatten
  valid := (header_spec hr).1
  xfer_length := by
    rw [(header_spec hr).2.1]
    obtain ⟨rfl, -⟩ | ⟨r, rfl, hlen, ⟨ht, -⟩ | ⟨ht, -⟩⟩ := socketFlags_cases hr
    · rfl
    all_goals simp [xferBytes, hlen, ht]
  payload_length := by
    rw [(header_fields data record).2.2, BitVec.toNat_ofNat, Nat.mod_eq_of_lt (lt_of_le_of_lt hle (by decide)), length_flatten]
    rfl

theorem frame_records (hr : Exported record) (hle : total data ≤ uint32Max) : (frame hr hle).records = record.toList := by
  have hx : (frame hr hle).header.xferType = (record.map fun r => r.1).getD .none := (header_spec hr).2.1
  rw [Frame.records, hx]
  obtain ⟨rfl, -⟩ | ⟨r, rfl, -, -⟩ := socketFlags_cases hr
  · rfl
  · rw [map_some, getD_some, if_neg (hr r rfl).1]
    rfl

theorem entries_bytes (hr : Exported record) (hle : total data ≤ uint32Max) :
    ((entries data record).flatMap fun e => e.bytes (header data record) (xferBytes record)) = (frame hr hle).bytes := by
  have hdata : ((if 0 < total data then data.map Entry.data else []).flatMap fun e =>
      e.bytes (header data record) (xferBytes record)) = data.flatten := by
    split
    · rw [flatMap_map]
      exact flatMap_id'
    · rename_i h
      have : data.flatten.length = 0 := by
        rw [length_flatten]
        exact Nat.eq_zero_of_not_pos h
      exact (length_eq_zero_iff.1 this).symm
  have hxfer : ((record.toList.map fun _ => Entry.xferInfo).flatMap fun e => e.bytes (header data record) (xferBytes record)) =
      xferBytes record := by
    cases record with
    | none => rfl
    | some r => simp [Entry.bytes]
  rw [entries, cons_append, flatMap_cons, flatMap_append, hdata, hxfer]
  simp [Frame.bytes, frame, Entry.bytes]

theorem entries_len (hr : Exported record) :
    ∀ e ∈ entries data record, (e.bytes (header data record) (xferBytes record)).length = e.len := by
  intro e he
  cases e with
  | frameHeader | data b | zero => rfl
  | xferInfo =>
    obtain ⟨rfl, -⟩ | ⟨r, rfl, hlen, -⟩ := socketFlags_cases hr
    · exact absurd he (by unfold entries; split <;> simp)
    · exact hlen

theorem total_pos : 0 < total data ↔ ∃ b ∈ data, b ≠ [] := by
  rw [total, Nat.pos_iff_ne_zero, ne_eq, sum_eq_zero_iff]
  simp

theorem entries_length (data : List (List UInt8)) (record : Option Record) : (entries data record).length =
    1 + record.toList.length + if 0 < total data then data.length else 0 := by
  unfold entries
  split
  · simp [Nat.add_comm, Nat.add_left_comm]
  · simp [Nat.add_comm]

theorem handed_filled (hn : n = 1 + data.length + record.toList.length) (hc : data = [] ∨ 0 < total data ∨ 6 ≤ n) :
    ∃ zeros suf, (∀ e ∈ zeros, e = Entry.zero) ∧
      (handed data record n).bufs = (entries data record ++ zeros).map some ++ suf ∧
      n = (entries data record ++ zeros).length := by
  have hlen := entries_length data record
  by_cases hfull : (entries data record).length = n
  · exact ⟨[], (blank n).drop (entries data record).length, fun e he => absurd he not_mem_nil,
      by rw [append_nil]; rfl, by rw [append_nil, hfull]⟩
  · have h6 : 6 ≤ n := by
      rcases hc with rfl | hpos | h6
      · simp only [total, map_nil, sum_nil, lt_irrefl, if_false, length_nil] at hlen hn
        omega
      · rw [if_pos hpos] at hlen
        omega
      · exact h6
    have hblank : blank n = List.replicate n (some .zero) := if_neg (by omega)
    have hle : (entries data record).length ≤ n := by
      split at hlen <;> omega
    refine ⟨List.replicate (n - (entries data record).length) .zero, [], fun e he => eq_of_mem_replicate he, ?_, ?_⟩
    · rw [handed, hblank]
      simp
    · rw [length_append, length_replicate]
      omega

/-- The array is copied to the bytes of the frame `f`, which holds the data and the record; and a reader that gets `f` among
other frames reads these between what comes before and behind. -/
structure Framed (data : List (List UInt8)) (record : Option Record) (h : Handed) (f : Frame) : Prop where
  payload : f.payload = data.flatten
  records : f.records = record.toList
  hasData : f.header.flags &&& UV_IPC_FRAME_HAS_DATA ≠ 0 ↔ 0 < data.flatten.length
  coalesces : ∀ malloc r, h.Coalesces malloc r ↔
    r = if uint32Max < f.bytes.length then .error .enobufs else if malloc = false then .error .notEnoughMemory else .ok f.bytes
  read : ∀ table before behind g, (system table (encode (before ++ f :: behind))).Reachable g → g.stream = [] →
    g.delivered = payloads before ++ (data.flatten ++ payloads behind) ∧
    g.appended = PipeRead.records before ++ (record.toList ++ PipeRead.records behind)

theorem framed_of (hr : Exported record) (hle : total data ≤ uint32Max) (hn : n = 1 + data.length + record.toList.length)
    (hlt : n < 2 ^ 32) (hc : data = [] ∨ 0 < total data ∨ 6 ≤ n) :
    Framed data record (handed data record n) (frame hr hle) where
  payload := rfl
  records := frame_records hr hle
  hasData := by
    rw [length_flatten]
    exact (header_spec hr).2.2
  coalesces malloc r := by
    obtain ⟨zeros, suf, hz, hb, hlen⟩ := handed_filled hn hc
    have hzero : (zeros.flatMap fun e => e.bytes (header data record) (xferBytes record)) = [] :=
      flatMap_eq_nil_iff.2 fun e he => by rw [hz e he]; rfl
    have hout : ((entries data record ++ zeros).flatMap fun e => e.bytes (header data record) (xferBytes record)) =
        (frame hr hle).bytes := by
      rw [flatMap_append, hzero, append_nil, entries_bytes hr hle]
    have hco := coalesces_of hb hlen hlt (fun e he => by
      rcases mem_append.1 he with he | he
      · exact entries_len hr e he
      · rw [hz e he]
        rfl) hout malloc
    exact ⟨fun h => coalesces_unique h hco, fun h => h ▸ hco⟩
  read table before behind g hreach hs := by
    have hsplit : before ++ frame hr hle :: behind = before ++ ([frame hr hle] ++ behind) := rfl
    obtain ⟨h1, h2⟩ := read_all hreach hs
    rw [hsplit, payloads_append, payloads_append] at h1
    rw [hsplit, records_append, records_append] at h2
    have hp : payloads [frame hr hle] = data.flatten := append_nil _
    have hrec : PipeRead.records [frame hr hle] = record.toList := (append_nil _).trans (frame_records hr hle)
    exact ⟨h1.trans (by rw [hp]), h2.trans (by rw [hrec])⟩

theorem not_filled (hn : n = 1 + data.length + record.toList.length) (hne : data ≠ []) (h0 : ¬ 0 < total data) (h6 : n < 6) :
    ∃ i < n, (handed data record n).get i = none := by
  have hlen := entries_length data record
  have hpos := length_pos_iff.2 hne
  rw [if_neg h0] at hlen
  refine ⟨(entries data record).length, by omega, ?_⟩
  have hb : (blank n)[(entries data record).length]? = some none := by
    rw [blank, if_pos h6, getElem?_replicate, if_pos (by omega)]
  rw [Handed.get, handed, getElem?_append_right (by simp)]
  simp [hb]

/-- **Writing a frame.** The call fails, or hands over an array; and this is copied to a frame with the record and the data,
reading only places that hold something, if and only if there are less than 2^32 places in it, and there are no buffers,
or one is not empty, or the array is too large for the stack. -/
theorem writeIpc_iff (data : List (List UInt8)) (send : Option SendHandle) (o : Outcome) :
    ∃ r, uvPipeWriteIpc data send o = some r ∧ ∀ h, r = .ok h →
      ∃ record, exported send o = .ok record ∧ total data ≤ uint32Max ∧ ((∃ f, Framed data record h f) ↔
        1 + data.length + send.toList.length < 2 ^ 32 ∧
        (data = [] ∨ (∃ b ∈ data, b ≠ []) ∨ 6 ≤ 1 + data.length + send.toList.length)) := by
  obtain ⟨r, hcall, hr⟩ := handed_eq data send o
  refine ⟨r, hcall, fun h hh => ?_⟩
  obtain ⟨record, hx, hexp, hs, hle, rfl⟩ := hr h hh
  rw [← hs]
  refine ⟨record, hx, hle, fun ⟨f, hf⟩ => ?_, fun ⟨hlt, hc⟩ => ⟨frame hexp hle, framed_of hexp hle rfl hlt ?_⟩⟩
  · obtain ⟨hlt, hget⟩ := coalesces_initialised ((hf.coalesces true _).2 rfl)
    refine ⟨hlt, ?_⟩
    rw [← total_pos]
    by_contra hc
    push Not at hc
    obtain ⟨i, hi, hnone⟩ := not_filled rfl hc.1 (by omega) hc.2.2
    exact hget i hi hnone
  · rwa [total_pos]

/-- One empty buffer: `bufs[1]` is read and nothing has been put there. -/
theorem writeIpc_empty : ∃ h, uvPipeWriteIpc [[]] none ⟨none, .error 0, true⟩ = some (.ok h) ∧
    1 < h.nbufs ∧ h.get 1 = none ∧ ¬ ∃ f, Framed [[]] none h f := by
  refine ⟨_, rfl, by decide, rfl, fun ⟨f, hf⟩ => ?_⟩
  exact (coalesces_initialised ((hf.coalesces true _).2 rfl)).2 1 (by decide) rfl

end Libuv.L5.IpcWrite
