import Libuv.Core.Bytes
import Libuv.Core.LTS
import Libuv.L1Data.OsEnviron

/-!
# The process title (`unix/proctitle.c`)

`uv_setup_args` copies the arguments of `main` into a block of its own and keeps the memory they were in for the title.
`uv_set_process_title` writes there, as far as there is room, and `uv_get_process_title` reads from there by
the length that was kept. A pointer is an address; strings end below `top`. What `uv__set_process_title` tells the system, and
the mutex, are left out.

* `Start.result_some`: the title area is all the arguments, and their copy is elsewhere.
* `title_run`: after any sequence of calls the area holds the last title, cut off by its capacity, and nothing else has changed.
-/
namespace Libuv.L1.ProcTitle

open Bytes List
open OsEnviron (CString)

structure Title where
  str : ℕ
  len : ℕ
  cap : ℕ
  deriving DecidableEq

structure State where
  mem : ℕ → UInt8
  processTitle : Title
  argsMem : Option ℕ

inductive Err
  | einval
  | enobufs
  deriving DecidableEq

variable (top : ℕ)

def strlen (mem : ℕ → UInt8) (p : ℕ) : ℕ := ((List.range (top - p)).find? fun n => mem (p + n) = 0).getD (top - p)

def memcpy (mem : ℕ → UInt8) (dst src n : ℕ) : ℕ → UInt8 := store mem dst (load mem src n)

/-- The loop over the strings behind the first; `size` is left as the last round has set it.
mirrors unix/proctitle.c:75-82 -/
def copyArgs : List ℕ → ℕ → (ℕ → UInt8) → List ℕ → ℕ → (ℕ → UInt8) × List ℕ × ℕ
  | [], _, mem, newArgv, size => (mem, newArgv, size)
  | arg :: args, s, mem, newArgv, _ =>
    let size := strlen top mem arg + 1
    copyArgs args (s + size) (memcpy mem s arg size) (newArgv ++ [s]) size

/-- mirrors unix/proctitle.c:46-93 -/
def uvSetupArgs (argv : List ℕ) (malloc : ℕ → Option ℕ) (s : State) : State × List ℕ :=
  match argv with
  | [] => (s, [])
  | arg :: args =>
    let len := strlen top s.mem arg
    let cap := len + 1
    let size := cap + (args.map fun p => strlen top s.mem p + 1).sum + (args.length + 2) * 8
    match malloc size with
    | none => (s, arg :: args)
    | some newArgv =>
      let dst := newArgv + (args.length + 2) * 8
      -- the first string goes in at the label
      let (mem, copies, size) := copyArgs top args (dst + cap) (memcpy s.mem dst arg cap) [dst] cap
      ({ mem := mem
         processTitle := ⟨arg, len, (args.getLastD arg) + size - arg⟩
         argsMem := some newArgv }, copies)

/-- mirrors unix/proctitle.c:96-124 -/
def uvSetProcessTitle (title : CString) (s : State) : State × Except Err Unit :=
  if s.argsMem = none then (s, .error .enobufs)
  else
    let pt := s.processTitle
    let len := title.chars.length
    let len := if len ≥ pt.cap then (if pt.cap > 0 then pt.cap - 1 else 0) else len
    let mem := store s.mem pt.str (title.chars.take len)
    let mem := store mem (pt.str + len) (List.replicate (pt.cap - len) 0)
    ({ s with mem := mem, processTitle := { pt with len := len } }, .ok ())

/-- With what the buffer then holds, if there is one.
mirrors unix/proctitle.c:127-151 -/
def uvGetProcessTitle (buffer : Option (ℕ → UInt8)) (size : ℕ) (s : State) : Except Err (ℕ → UInt8) :=
  match buffer with
  | none => .error .einval
  | some buffer =>
    if size = 0 then .error .einval
    else if s.argsMem = none then .error .enobufs
    else
      let pt := s.processTitle
      if size ≤ pt.len then .error .enobufs
      else
        let buffer := if pt.len ≠ 0 then store buffer 0 (load s.mem pt.str (pt.len + 1)) else buffer
        .ok (store buffer pt.len [0])

inductive Op
  | set (title : CString)
  | get (buffer : Option (ℕ → UInt8)) (size : ℕ)

def step (s : State) : Op → State
  | .set title => (uvSetProcessTitle title s).1
  | .get _ _ => s

/-! ## Strings in memory -/

/-- The strings one behind the other from `q` on. -/
def Laid (mem : ℕ → UInt8) : ℕ → List CString → Prop
  | _, [] => True
  | q, e :: es => load mem q (e.chars.length + 1) = e.chars ++ [0] ∧ Laid mem (q + (e.chars.length + 1)) es

def pointers : ℕ → List CString → List ℕ
  | _, [] => []
  | q, e :: es => q :: pointers (q + (e.chars.length + 1)) es

def span (es : List CString) : ℕ := (es.map fun e => e.chars.length + 1).sum

variable {mem mem' : ℕ → UInt8} {q : ℕ} {e : CString} {es : List CString} {s : State}

@[simp] theorem span_nil : span [] = 0 := rfl

@[simp] theorem span_cons : span (e :: es) = e.chars.length + 1 + span es := rfl

theorem memcpy_of_off {dst src n x : ℕ} (hx : x < dst ∨ dst + n ≤ x) : memcpy mem dst src n x = mem x := by
  rcases hx with hx | hx
  · exact store_of_lt hx
  · exact store_of_ge (by simpa using hx)

theorem load_memcpy (mem : ℕ → UInt8) (dst src n : ℕ) : load (memcpy mem dst src n) dst n = load mem src n := by
  have h := load_store mem dst (load mem src n)
  rwa [length_load] at h

theorem Laid.congr (h : Laid mem q es) (hm : ∀ x, q ≤ x → x < q + span es → mem' x = mem x) : Laid mem' q es := by
  induction es generalizing q with
  | nil => trivial
  | cons e es ih =>
    rw [span_cons] at hm
    refine ⟨?_, ih h.2 fun x h1 h2 => hm x (by omega) (by omega)⟩
    rw [← h.1]
    exact load_congr fun i hi => hm _ (by omega) (by omega)

theorem strlen_eq (h : load mem q (e.chars.length + 1) = e.chars ++ [0]) (htop : q + (e.chars.length + 1) ≤ top) :
    strlen top mem q = e.chars.length := by
  have hget := (load_eq_iff (by simp)).1 h
  have hfind : ((List.range (top - q)).find? fun n => mem (q + n) = 0) = some e.chars.length := by
    rw [find?_range_eq_some]
    refine ⟨?_, by simp only [mem_range]; omega, fun j hj => ?_⟩
    · have := hget e.chars.length (by omega)
      simpa using this
    · have := hget j (by omega)
      rw [getElem?_append_left hj, getElem?_eq_getElem hj, Option.some.injEq] at this
      have hne : e.chars[j] ≠ 0 := fun e0 => e.noNul (e0 ▸ getElem_mem hj)
      simpa [this] using hne
  rw [strlen, hfind, Option.getD_some]

theorem sum_strlen (h : Laid mem q es) (htop : q + span es ≤ top) :
    ((pointers q es).map fun p => strlen top mem p + 1).sum = span es := by
  induction es generalizing q with
  | nil => rfl
  | cons e es ih =>
    rw [span_cons] at htop
    rw [pointers, map_cons, sum_cons, ih h.2 (by omega), strlen_eq top h.1 (by omega), span_cons]

@[simp] theorem length_pointers : (pointers q es).length = es.length := by
  induction es generalizing q with
  | nil => rfl
  | cons e es ih => simp [pointers, ih]

theorem copyArgs_spec (h : Laid mem q es) (htop : q + span es ≤ top) {a : ℕ} (hdis : a + span es ≤ q ∨ q + span es ≤ a)
    (new : List ℕ) {d n : ℕ} (hd : d + n = q) :
    Laid (copyArgs top (pointers q es) a mem new n).1 a es ∧
    (∀ x, x < a ∨ a + span es ≤ x → (copyArgs top (pointers q es) a mem new n).1 x = mem x) ∧
    (copyArgs top (pointers q es) a mem new n).2.1 = new ++ pointers a es ∧
    (pointers q es).getLastD d + (copyArgs top (pointers q es) a mem new n).2.2 = q + span es := by
  induction es generalizing q a mem new d n with
  | nil => exact ⟨trivial, fun _ _ => rfl, by simp [pointers, copyArgs], by simp [pointers, copyArgs, hd]⟩
  | cons e es ih =>
    rw [span_cons] at htop hdis
    obtain ⟨h1, h2⟩ := h
    have hlen := strlen_eq top h1 (by omega)
    have hlaid : Laid (memcpy mem a q (e.chars.length + 1)) (q + (e.chars.length + 1)) es :=
      h2.congr fun x h1 h2 => memcpy_of_off (by omega)
    obtain ⟨i1, i2, i3, i4⟩ := ih hlaid (by omega) (a := a + (e.chars.length + 1)) (by omega) (new ++ [a])
      (d := q) (n := e.chars.length + 1) rfl
    simp only [pointers, copyArgs, hlen]
    refine ⟨⟨?_, i1⟩, fun x hx => ?_, by rw [i3, append_assoc]; rfl, ?_⟩
    · rw [← h1, ← load_memcpy mem a q]
      exact load_congr fun i hi => i2 _ (by omega)
    · rw [span_cons] at hx
      rw [i2 x (by omega), memcpy_of_off (by omega)]
    · rw [getLastD_cons, span_cons]
      omega

/-! ## Setting up -/

/-- A program about to call `uv_setup_args`: its arguments lie one behind the other from `base` on, and `malloc` returns
memory beside them. -/
structure Start where
  top : ℕ
  mem : ℕ → UInt8
  base : ℕ
  first : CString
  rest : List CString
  malloc : ℕ → Option ℕ
  laid : Laid mem base (first :: rest)
  below : base + span (first :: rest) ≤ top
  fresh : ∀ n a, malloc n = some a → a + n ≤ base ∨ base + span (first :: rest) ≤ a

namespace Start
variable (p : Start)

def args : List CString := p.first :: p.rest

/-- The memory `uv_setup_args` asks for. -/
def size : ℕ := span p.args + (p.rest.length + 2) * 8

/-- What `uv_setup_args` leaves and returns. -/
def result : State × List ℕ := uvSetupArgs p.top (pointers p.base p.args) p.malloc ⟨p.mem, ⟨0, 0, 0⟩, none⟩

/-- Where the copies of the strings begin, behind the pointers. -/
def copies (a : ℕ) : ℕ := a + (p.rest.length + 2) * 8

theorem strlen_first : strlen p.top p.mem p.base = p.first.chars.length :=
  strlen_eq p.top p.laid.1 (by have := p.below; rw [span_cons] at this; omega)

theorem result_none (h : p.malloc p.size = none) :
    p.result = (⟨p.mem, ⟨0, 0, 0⟩, none⟩, pointers p.base p.args) := by
  have hbelow := p.below
  rw [span_cons] at hbelow
  have hsum := sum_strlen p.top p.laid.2 (by omega)
  have hsz : p.size = p.first.chars.length + 1 + span p.rest + (p.rest.length + 2) * 8 := rfl
  simp [result, args, pointers, uvSetupArgs, p.strlen_first, hsum, ← hsz, h]

theorem result_some {a : ℕ} (h : p.malloc p.size = some a) :
    p.result.1.argsMem = some a ∧ p.result.1.processTitle = ⟨p.base, p.first.chars.length, span p.args⟩ ∧
    p.result.2 = pointers (p.copies a) p.args ∧ Laid p.result.1.mem (p.copies a) p.args ∧
    Laid p.result.1.mem p.base p.args ∧ (p.copies a + span p.args ≤ p.base ∨ p.base + span p.args ≤ p.copies a) ∧
    ∀ x, x < a ∨ a + p.size ≤ x → p.result.1.mem x = p.mem x := by
  have hbelow := p.below
  have hfresh := p.fresh _ _ h
  have hspan : span p.args = p.first.chars.length + 1 + span p.rest := rfl
  rw [span_cons] at hbelow hfresh
  have hsum := sum_strlen p.top p.laid.2 (by omega)
  have hsz : p.size = p.first.chars.length + 1 + span p.rest + (p.rest.length + 2) * 8 := rfl
  have hcopies : p.copies a = a + (p.rest.length + 2) * 8 := rfl
  have hlaid : Laid (memcpy p.mem (p.copies a) p.base (p.first.chars.length + 1)) (p.base + (p.first.chars.length + 1))
      p.rest := p.laid.2.congr fun x h1 h2 => memcpy_of_off (by omega)
  obtain ⟨i1, i2, i3, i4⟩ := copyArgs_spec p.top hlaid (by omega)
    (a := p.copies a + (p.first.chars.length + 1)) (by omega) [p.copies a] (d := p.base) (n := p.first.chars.length + 1) rfl
  have hres : p.result =
      (⟨(copyArgs p.top (pointers (p.base + (p.first.chars.length + 1)) p.rest) (p.copies a + (p.first.chars.length + 1))
          (memcpy p.mem (p.copies a) p.base (p.first.chars.length + 1)) [p.copies a] (p.first.chars.length + 1)).1,
        ⟨p.base, p.first.chars.length, span p.args⟩, some a⟩, pointers (p.copies a) p.args) := by
    simp only [result, args, pointers, uvSetupArgs, p.strlen_first, hsum, length_pointers, ← hsz, h, ← hcopies, i3, i4]
    simp only [span_cons, singleton_append]
    congr 3
    omega
  rw [hres]
  refine ⟨rfl, rfl, rfl, ⟨?_, i1⟩, ?_, by omega, fun x hx => ?_⟩
  · rw [← p.laid.1, ← load_memcpy p.mem (p.copies a) p.base]
    exact load_congr fun i hi => i2 _ (by omega)
  · refine p.laid.congr fun x h1 h2 => ?_
    rw [span_cons] at h2
    exact (i2 x (by omega)).trans (memcpy_of_off (by omega))
  · exact (i2 x (by omega)).trans (memcpy_of_off (by omega))

end Start

/-! ## Titles -/

/-- The calls after `uv_setup_args`. -/
def system (p : Start) : LTS State Op where
  init s := s = p.result.1
  step s op t := t = step s op

/-- The title after these calls: the last one set, as much of it as there is room for with a zero, and at first the
first argument. -/
def shown (p : Start) (ops : List Op) : List UInt8 :=
  ops.foldl (fun old op =>
    match op with
    | .set title => title.chars.take (span p.args - 1)
    | .get _ _ => old) p.first.chars

variable {p : Start} {ops : List Op} {a : ℕ} {title : CString}

theorem shown_set : shown p (ops ++ [.set title]) = title.chars.take (span p.args - 1) := by
  simp [shown]

theorem shown_get {b : Option (ℕ → UInt8)} {n : ℕ} : shown p (ops ++ [.get b n]) = shown p ops := by
  simp [shown]

/-- The area with a title in it, and all else as `uv_setup_args` left it. -/
structure Holds (p : Start) (a : ℕ) (text : List UInt8) (s : State) : Prop where
  argsMem : s.argsMem = some a
  title : s.processTitle = ⟨p.base, text.length, span p.args⟩
  stored : load s.mem p.base (text.length + 1) = text ++ [0]
  room : text.length < span p.args
  frame : ∀ x, x < p.base ∨ p.base + span p.args ≤ x → s.mem x = p.result.1.mem x

variable {text : List UInt8}

theorem span_pos : 0 < span p.args := by
  simp only [Start.args, span_cons]
  omega

theorem Holds.set (h : Holds p a text s) :
    Holds p a (title.chars.take (span p.args - 1)) (uvSetProcessTitle title s).1 := by
  have hpos := span_pos (p := p)
  have hlen : (title.chars.take (span p.args - 1)).length = min (span p.args - 1) title.chars.length := length_take
  have hcut : (if title.chars.length ≥ span p.args then (if span p.args > 0 then span p.args - 1 else 0)
      else title.chars.length) = (title.chars.take (span p.args - 1)).length := by
    split <;> omega
  have htake : title.chars.take (title.chars.take (span p.args - 1)).length = title.chars.take (span p.args - 1) := by
    rw [hlen]
    exact take_eq_take_min.symm
  have hroom : (title.chars.take (span p.args - 1)).length < span p.args := by omega
  have hargs : s.argsMem ≠ none := by simp [h.argsMem]
  simp only [uvSetProcessTitle, if_neg hargs, h.title, hcut, htake]
  generalize title.chars.take (span p.args - 1) = new at hroom ⊢
  refine ⟨h.argsMem, rfl, ?_, hroom, fun x hx => ?_⟩
  · refine (load_eq_append rfl).2 ⟨?_, ?_⟩
    · rw [load_store_of_disjoint (.inl le_rfl), load_store]
    · have hlt : 1 ≤ span p.args - new.length := by omega
      rw [load_store_take (by rwa [length_replicate]), take_replicate, Nat.min_eq_left hlt]
      rfl
  · rcases hx with hx | hx
    · exact (store_of_lt (by omega)).trans ((store_of_lt hx).trans (h.frame x (.inl hx)))
    · refine (store_of_ge ?_).trans ((store_of_ge (by omega)).trans (h.frame x (.inr hx)))
      rw [length_replicate]
      omega

theorem holds_start (hm : p.malloc p.size = some a) : Holds p a p.first.chars p.result.1 := by
  obtain ⟨h1, h2, -, -, h5, -⟩ := p.result_some hm
  refine ⟨h1, h2, h5.1, ?_, fun _ _ => rfl⟩
  simp only [Start.args, span_cons]
  omega

theorem holds_run (hm : p.malloc p.size = some a) : (system p).TraceInductive fun ops s => Holds p a (shown p ops) s where
  init := by
    rintro s rfl
    exact holds_start hm
  step := by
    rintro ops s op t h rfl
    cases op with
    | set title =>
      rw [shown_set]
      exact h.set
    | get b n =>
      rw [shown_get]
      exact h

theorem Holds.get (h : Holds p a text s) (buffer : ℕ → UInt8) {n : ℕ} (hn : 0 < n) :
    (n ≤ text.length → uvGetProcessTitle (some buffer) n s = .error .enobufs) ∧
    (text.length < n → ∃ buffer', uvGetProcessTitle (some buffer) n s = .ok buffer' ∧
      load buffer' 0 (text.length + 1) = text ++ [0] ∧ ∀ i, text.length < i → buffer' i = buffer i) := by
  have hargs : s.argsMem ≠ none := by simp [h.argsMem]
  have hlen : s.processTitle.len = text.length := by rw [h.title]
  have hstr : s.processTitle.str = p.base := by rw [h.title]
  simp only [uvGetProcessTitle, hn.ne', if_false, hargs, hlen, hstr, h.stored]
  refine ⟨fun hle => if_pos hle, fun hlt => ⟨_, if_neg (not_le.2 hlt), ?_, fun i hi => ?_⟩⟩
  · refine (load_eq_append rfl).2 ⟨?_, ?_⟩
    · rw [load_store_of_disjoint (.inl (by omega))]
      by_cases hz : text.length = 0
      · rw [hz, load_zero, length_eq_zero_iff.1 hz]
      · rw [if_pos hz]
        have := load_store buffer 0 (text ++ [0])
        rw [length_append, load_eq_append rfl] at this
        exact this.1
    · rw [Nat.zero_add]
      exact load_store _ _ [0]
  · rw [store_of_ge (by simpa using hi)]
    split
    · exact store_of_ge (by simpa using hi)
    · rfl

theorem last_end {d : ℕ} {f : CString} :
    (pointers q (e :: es)).getLastD d + (((e :: es).getLastD f).chars.length + 1) = q + span (e :: es) := by
  induction es generalizing q e d f with
  | nil => rfl
  | cons e' es ih =>
    have h := ih (q := q + (e.chars.length + 1)) (e := e') (d := q) (f := e)
    rw [pointers, getLastD_cons, getLastD_cons, span_cons (e := e)]
    omega

theorem none_run (hm : p.malloc p.size = none) : (system p).TraceInductive fun _ s => s = p.result.1 where
  init _ h := h
  step := by
    rintro _ _ op _ rfl rfl
    cases op with
    | set title => simp [step, uvSetProcessTitle, p.result_none hm]
    | get b n => rfl

theorem Holds.copies (h : Holds p a text s) (hm : p.malloc p.size = some a) : Laid s.mem (p.copies a) p.args := by
  obtain ⟨-, -, -, h4, -, h6, -⟩ := p.result_some hm
  exact h4.congr fun x h1 h2 => h.frame x (by omega)

/-- **The title in any run.** Once `uv_setup_args` has its memory, and after any calls: the title area is
all the arguments with their zeros, and nothing outside of it has been written since; it begins with the title, the last
one set as far as there is room for it with a zero behind; getting it stores just that, if the buffer is longer, or
returns `UV_ENOBUFS`; the copies of the arguments are as they were. Without memory both calls return `UV_ENOBUFS`; without
a buffer, or with one of length 0, getting the title returns `UV_EINVAL`. -/
theorem title_run (h : (system p).History ops s) :
    (∀ a, p.malloc p.size = some a →
      (s.processTitle.str = p.base ∧ s.processTitle.cap = span p.args ∧ p.base + span p.args =
        (pointers p.base p.args).getLastD p.base + ((p.args.getLastD p.first).chars.length + 1)) ∧
      (∀ x, x < p.base ∨ p.base + span p.args ≤ x → s.mem x = p.result.1.mem x) ∧
      load s.mem p.base ((shown p ops).length + 1) = shown p ops ++ [0] ∧ (∀ buffer n, 0 < n →
        (n ≤ (shown p ops).length → uvGetProcessTitle (some buffer) n s = .error .enobufs) ∧
        ((shown p ops).length < n → ∃ buffer', uvGetProcessTitle (some buffer) n s = .ok buffer' ∧
          load buffer' 0 ((shown p ops).length + 1) = shown p ops ++ [0] ∧
          ∀ i, (shown p ops).length < i → buffer' i = buffer i)) ∧
      p.result.2 = pointers (p.copies a) p.args ∧ Laid s.mem (p.copies a) p.args) ∧
    (p.malloc p.size = none → s = p.result.1 ∧ (∀ title, uvSetProcessTitle title s = (s, .error .enobufs)) ∧
      ∀ buffer n, 0 < n → uvGetProcessTitle (some buffer) n s = .error .enobufs) ∧
    ∀ buffer n, buffer = none ∨ n = 0 → uvGetProcessTitle buffer n s = .error .einval := by
  refine ⟨fun a hm => ?_, fun hm => ?_, ?_⟩
  · have hs := (holds_run hm).run h
    obtain ⟨-, -, h3, -⟩ := p.result_some hm
    refine ⟨⟨by rw [hs.title], by rw [hs.title], last_end.symm⟩, hs.frame, hs.stored, ?_, h3, hs.copies hm⟩
    exact fun buffer n hn => hs.get buffer hn
  · obtain rfl := (none_run hm).run h
    have hargs : p.result.1.argsMem = none := by rw [p.result_none hm]
    refine ⟨rfl, fun title => ?_, fun buffer n hn => ?_⟩
    · simp [uvSetProcessTitle, hargs]
    · simp [uvGetProcessTitle, hargs, hn.ne']
  · rintro buffer n (rfl | rfl)
    · rfl
    · cases buffer <;> simp [uvGetProcessTitle]

/-- `a b`, with the memory `malloc` returns at 100 or not at all. -/
def twoArgs (ok : Bool) : Start where
  top := 50
  mem := store (fun _ => 0) 8 [0x61, 0, 0x62, 0]
  base := 8
  first := ⟨[0x61], by decide⟩
  rest := [⟨[0x62], by decide⟩]
  malloc _ := if ok then some 100 else none
  laid := ⟨by decide, by decide, trivial⟩
  below := by decide
  fresh n a h := by
    obtain ⟨-, h⟩ := Option.ite_none_right_eq_some.1 h
    cases h
    exact .inr (by decide)

/-- Of `title` there is room for `tit`. -/
theorem title_run_two : ∃ s, (system (twoArgs true)).History [.set ⟨[0x74, 0x69, 0x74, 0x6C, 0x65], by decide⟩] s ∧
    load s.mem 8 4 = [0x74, 0x69, 0x74, 0] := by
  have h := (LTS.History.nil (T := system (twoArgs true)) rfl).snoc (l := .set ⟨[0x74, 0x69, 0x74, 0x6C, 0x65], by decide⟩) rfl
  exact ⟨_, h, ((title_run h).1 100 rfl).2.2.1⟩

/-- Getting the title into a buffer of length 0 returns neither it nor `UV_ENOBUFS`; and if `malloc` fails, a title that is
set is not stored. -/
theorem title_refused :
    (¬ ∀ (p : Start) (ops : List Op) (s : State) (buffer : ℕ → UInt8) (n : ℕ), (system p).History ops s →
      n ≤ (shown p ops).length → uvGetProcessTitle (some buffer) n s = .error .enobufs) ∧
    ¬ ∀ (p : Start) (ops : List Op) (s : State), (system p).History ops s →
      load s.mem p.base (shown p ops).length = shown p ops := by
  constructor
  · intro h
    have := h (twoArgs true) [] _ (fun _ => 0) 0 (.nil rfl) (Nat.zero_le _)
    simp [uvGetProcessTitle] at this
  · intro h
    have := h (twoArgs false) _ _ ((LTS.History.nil rfl).snoc (l := .set ⟨[0x63], by decide⟩) rfl)
    revert this
    decide

end Libuv.L1.ProcTitle
