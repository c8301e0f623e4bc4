import Mathlib.Tactic
import Libuv.Core.FlatFile
import Libuv.Core.Loop

/-!
# Writing a request's buffers (`unix/fs.c`)

`uv__fs_write_all` offers the buffers of a request to the kernel until it has taken them all. A call may take less than it was
offered; `uv__fs_buf_offset` then moves the request to what is left. A buffer is the list of its bytes, `req->bufs` with
`nbufs` of them the list of the buffers that are left.

The kernel (`Kernel`) answers the `i`-th call of a request with a count or an error. `Accepts` is a kernel that takes at least
one byte of each call that offers any. With an offset the platform may have no `pwritev`: not in its C library, or not in the
kernel, which then says `ENOSYS`; the first buffer goes to `pwrite` by itself.

* `writeAll_iff`: every byte is written unless as many empty buffers as fit into a window stand before one with bytes; nothing
  is offered there, and 0 is taken for the end.
* `file_of_writeAll`: what is in the file then.
-/
namespace Libuv.L6.FsWrite

open List

variable {α : Type*}

inductive Errno
  | eintr
  | enosys
  | other (no : ℕ)
deriving DecidableEq

inductive Op
  | write
  | writev
  | pwrite
  | pwritev
deriving DecidableEq

/-- A system call; without `off` it goes to the position of the descriptor. -/
structure Call (α : Type*) where
  op : Op
  off : Option ℤ
  bufs : List (List α)

def Call.bytes (c : Call α) : List α := c.bufs.flatten

abbrev Answer := Except Errno ℕ

abbrev Kernel (α : Type*) := ℕ → Call α → Answer

/-- Where `preadv` and `pwritev` are: in the C library (`HAVE_PREADV`), behind system calls that the kernel may lack, nowhere. -/
inductive Vectored
  | libc
  | syscall (implemented : Bool)
  | absent
deriving DecidableEq

structure Platform where
  vectored : Vectored
  iovmax : ℕ
  iovmax_pos : 0 < iovmax

/-- `no_pwritev`, which is shared by all requests, and the calls so far. -/
structure Sys (α : Type*) where
  noPwritev : Bool
  log : List (Call α × Answer)

def taken : Call α × Answer → List α
  | (c, .ok n) => c.bytes.take n
  | (_, .error _) => []

def call (k : Kernel α) (y : Sys α) (c : Call α) : Sys α × Answer :=
  ({ y with log := y.log ++ [(c, k y.log.length c)] }, k y.log.length c)

/-- mirrors unix/fs.c:1205-1263 -/
def fsWrite (P : Platform) (k : Kernel α) (off : ℤ) (bufs : List (List α)) (y : Sys α) : Sys α × Answer :=
  if off < 0 then
    if bufs.length = 1 then call k y ⟨.write, none, bufs.take 1⟩ else call k y ⟨.writev, none, bufs⟩
  else if bufs.length = 1 then call k y ⟨.pwrite, some off, bufs.take 1⟩
  else
    match P.vectored with
    | .libc => call k y ⟨.pwritev, some off, bufs⟩
    | .absent => call k y ⟨.pwrite, some off, bufs.take 1⟩
    | .syscall _ =>
      if y.noPwritev then call k y ⟨.pwrite, some off, bufs.take 1⟩
      else
        let r := call k y ⟨.pwritev, some off, bufs⟩
        if r.2 = .error .enosys then call k { r.1 with noPwritev := true } ⟨.pwrite, some off, bufs.take 1⟩ else r

/-- The number of buffers that are done, and the array with the next one shortened.
mirrors unix/fs.c:1636-1648 -/
def bufOffset : List (List α) → ℕ → ℕ × List (List α)
  | [], _ => (0, [])
  | b :: bufs, size =>
    if size = 0 then (0, b :: bufs)
    else if b.length ≤ size then
      ((bufOffset bufs (size - b.length)).1 + 1, b :: (bufOffset bufs (size - b.length)).2)
    else (0, b.drop size :: bufs)

/-- `req->bufs` and `nbufs` behind a write of `size` bytes. -/
def advance (bufs : List (List α)) (size : ℕ) : List (List α) := (bufOffset bufs size).2.drop (bufOffset bufs size).1

structure State (α : Type*) where
  off : ℤ
  bufs : List (List α)
  total : ℕ
  sys : Sys α

/-- One call of `uv__fs_write` and what follows it; the result once there is one.
mirrors unix/fs.c:1662-1684 -/
def step (P : Platform) (k : Kernel α) (s : State α) : State α × Option Answer :=
  if s.bufs.length = 0 then (s, some (.ok s.total))
  else
    let r := fsWrite P k s.off (s.bufs.take P.iovmax) s.sys
    match r.2 with
    | .error .eintr => ({ s with sys := r.1 }, none)
    | .error e => ({ s with sys := r.1 }, some (if s.total = 0 then .error e else .ok s.total))
    | .ok 0 => ({ s with sys := r.1 }, some (.ok s.total))
    | .ok (n + 1) =>
      (⟨if 0 ≤ s.off then s.off + (n + 1) else s.off, advance s.bufs (n + 1), s.total + (n + 1), r.1⟩, none)

/-- mirrors unix/fs.c:1650-1693 -/
def writeAll (P : Platform) (k : Kernel α) : ℕ → State α → State α × Option Answer
  | 0, s => (s, none)
  | fuel + 1, s =>
    match (step P k s).2 with
    | some r => ((step P k s).1, some r)
    | none => writeAll P k fuel (step P k s).1

def start (noPwritev : Bool) (off : ℤ) (bufs : List (List α)) : State α := ⟨off, bufs, 0, ⟨noPwritev, []⟩⟩

/-- Behind `n` more bytes; a request without an offset has none. -/
def forward (off : ℤ) (n : ℕ) : ℤ := if 0 ≤ off then off + n else off

/-- Each call goes where the one before it ended. -/
def Consecutive : ℤ → List (Call α × Answer) → Prop
  | _, [] => True
  | off, e :: log => e.1.off = (if 0 ≤ off then some off else none) ∧ Consecutive (forward off (taken e).length) log

/-- The call takes something of what it was offered, if it was offered anything. -/
def Takes (c : Call α) (r : Answer) : Prop := ∃ n, r = .ok n ∧ n ≤ c.bytes.length ∧ (c.bytes ≠ [] → 0 < n)

def Accepts (P : Platform) (k : Kernel α) : Prop :=
  ∀ i c, (c.op = .pwritev → P.vectored = .syscall false → k i c = .error .enosys) ∧
    (¬(c.op = .pwritev ∧ P.vectored = .syscall false) → Takes c (k i c))

/-- The request ends, with the number of all its bytes; each of them was written once, in order, and each where it belongs. -/
def WritesAll (P : Platform) (k : Kernel α) (noPwritev : Bool) (off : ℤ) (bufs : List (List α)) : Prop :=
  ∃ fuel s, writeAll P k fuel (start noPwritev off bufs) = (s, some (.ok bufs.flatten.length)) ∧
    s.sys.log.flatMap taken = bufs.flatten ∧ Consecutive off s.sys.log

def window (P : Platform) (noPwritev : Bool) (off : ℤ) : ℕ :=
  if off < 0 then P.iovmax
  else
    match P.vectored with
    | .libc => P.iovmax
    | .absent => 1
    | .syscall implemented => if implemented && !noPwritev then P.iovmax else 1

/-- `w` empty buffers, one behind the other, and one with bytes somewhere behind them. -/
def Stuck (w : ℕ) (bufs : List (List α)) : Prop :=
  ∃ pre gap post, bufs = pre ++ gap ++ post ∧ gap.length = w ∧ (∀ b ∈ gap, b = []) ∧ ∃ b ∈ post, b ≠ []

theorem window_pos (P : Platform) (noPwritev : Bool) (off : ℤ) : 0 < window P noPwritev off := by
  have hpos := P.iovmax_pos
  unfold window
  split
  · exact hpos
  split
  · exact hpos
  · exact Nat.one_pos
  split
  · exact hpos
  · exact Nat.one_pos

/-! ## What is left of the buffers -/

theorem advance_cons (b : List α) (bufs : List (List α)) (size : ℕ) :
    advance (b :: bufs) size = if size = 0 then b :: bufs
      else if b.length ≤ size then advance bufs (size - b.length) else b.drop size :: bufs := by
  unfold advance
  rw [bufOffset]
  split
  · rfl
  split
  · rfl
  · rfl

theorem bufOffset_flatten (bufs : List (List α)) (size : ℕ) : (advance bufs size).flatten = bufs.flatten.drop size := by
  induction bufs generalizing size with
  | nil => simp [advance, bufOffset]
  | cons b bufs ih =>
    rw [advance_cons, flatten_cons, drop_append]
    split
    · next h => rw [h, drop_zero, Nat.zero_sub, drop_zero, flatten_cons]
    split
    · next h => rw [ih, drop_eq_nil_of_le h, nil_append]
    · next h => rw [flatten_cons, Nat.sub_eq_zero_of_le (by omega), drop_zero]

variable {w n : ℕ} {bufs : List (List α)} {P : Platform} {k : Kernel α} {off : ℤ} {y y' : Sys α} {bytes : List α}

theorem Stuck.cons (h : Stuck w bufs) (b : List α) : Stuck w (b :: bufs) := by
  obtain ⟨pre, gap, post, rfl, hrest⟩ := h
  exact ⟨b :: pre, gap, post, rfl, hrest⟩

theorem Stuck.tail {b : List α} (hw : 0 < w) (hb : b ≠ []) (h : Stuck w (b :: bufs)) :
    Stuck w bufs := by
  obtain ⟨pre, gap, post, heq, hlen, hgap, hpost⟩ := h
  cases pre with
  | nil =>
    cases gap with
    | nil => exact absurd hlen (by simpa using hw.ne)
    | cons g gap =>
      rw [nil_append, cons_append, List.cons.injEq] at heq
      exact absurd (heq.1.trans (hgap g mem_cons_self)) hb
  | cons p pre =>
    rw [cons_append, cons_append, List.cons.injEq] at heq
    exact ⟨pre, gap, post, heq.2, hlen, hgap, hpost⟩

theorem Stuck.of_advance (hw : 0 < w) {size : ℕ} (h : Stuck w (advance bufs size)) :
    Stuck w bufs := by
  induction bufs generalizing size with
  | nil => exact h
  | cons b bufs ih =>
    rw [advance_cons] at h
    split at h
    · exact h
    split at h
    · exact (ih h).cons b
    · next hb =>
      have hne : b.drop size ≠ [] := ne_nil_of_length_pos (by rw [length_drop]; omega)
      exact (h.tail hw hne).cons b

theorem Stuck.exists_ne_nil (h : Stuck w bufs) : bufs.flatten ≠ [] := by
  obtain ⟨pre, gap, post, rfl, -, -, b, hb, hne⟩ := h
  intro hnil
  exact hne (flatten_eq_nil_iff.1 hnil b (mem_append_right _ hb))

theorem Stuck.of_take (hempty : (bufs.take w).flatten = []) (hne : bufs.flatten ≠ []) :
    Stuck w bufs := by
  have hsplit : bufs.flatten = (bufs.take w).flatten ++ (bufs.drop w).flatten := by
    rw [← flatten_append, take_append_drop]
  rw [hempty] at hsplit
  rw [hsplit] at hne
  obtain ⟨b, hb, hbne⟩ : ∃ b ∈ bufs.drop w, b ≠ [] := by
    by_contra hall
    exact hne (flatten_eq_nil_iff.2 fun b hb => by_contra fun hbne => hall ⟨b, hb, hbne⟩)
  have hlen : w ≤ bufs.length := by
    by_contra hlt
    rw [drop_eq_nil_of_le (by omega)] at hb
    exact not_mem_nil hb
  exact ⟨[], bufs.take w, bufs.drop w, by simp, length_take_of_le hlen, flatten_eq_nil_iff.1 hempty, b, hb, hbne⟩

/-! ## One call -/

theorem forward_zero (off : ℤ) : forward off 0 = off := by
  unfold forward
  split
  · exact Int.add_zero off
  · rfl

theorem forward_forward (off : ℤ) (n m : ℕ) : forward (forward off n) m = forward off (n + m) := by
  unfold forward
  by_cases h : 0 ≤ off
  · omega
  · rw [if_neg h, if_neg h, if_neg h]

theorem consecutive_append (off : ℤ) (l m : List (Call α × Answer)) :
    Consecutive off (l ++ m) ↔ Consecutive off l ∧ Consecutive (forward off (l.flatMap taken).length) m := by
  induction l generalizing off with
  | nil => simp [Consecutive, forward_zero]
  | cons e l ih =>
    simp [Consecutive, ih, forward_forward, and_assoc]

theorem window_forward (P : Platform) (noPwritev : Bool) (off : ℤ) (n : ℕ) :
    window P noPwritev (forward off n) = window P noPwritev off := by
  have hiff : forward off n < 0 ↔ off < 0 := by
    unfold forward
    split
    · omega
    · rfl
  unfold window
  simp [hiff]

/-- A call of `n` bytes out of `bytes`, and those that the kernel does not have before it. -/
structure Offered (k : Kernel α) (y y' : Sys α) (off : ℤ) (bytes : List α) (n : ℕ) : Prop where
  log : ∃ es, y'.log = y.log ++ es ∧ es.flatMap taken = bytes.take n ∧ Consecutive off es
  kernel : ∃ i c, c.bytes = bytes ∧ k i c = .ok n ∧ Takes c (k i c)

theorem offered_call (hk : Accepts P k) (y : Sys α) {c : Call α}
    (hop : ¬(c.op = .pwritev ∧ P.vectored = .syscall false)) (hoff : c.off = if 0 ≤ off then some off else none) :
    ∃ n, call k y c = (⟨y.noPwritev, y.log ++ [(c, .ok n)]⟩, .ok n) ∧
      Offered k y ⟨y.noPwritev, y.log ++ [(c, .ok n)]⟩ off c.bytes n := by
  have htakes := (hk y.log.length c).2 hop
  obtain ⟨n, hn, -⟩ := id htakes
  refine ⟨n, ?_, ⟨[(c, .ok n)], rfl, ?_, hoff, trivial⟩, y.log.length, c, rfl, hn, htakes⟩
  · rw [call, hn]
  · exact append_nil _

theorem take_window {m : ℕ} (hm : 0 < m) (hone : (bufs.take m).length = 1) :
    bufs.take m = bufs.take 1 := by
  rw [length_take] at hone
  by_cases h1 : m = 1
  · rw [h1]
  · rw [take_of_length_le (by omega), take_of_length_le (by omega)]

/-- **One call of `uv__fs_write`** is for the first buffers, up to the platform's window. -/
theorem fsWrite_spec (hk : Accepts P k) (off : ℤ) (bufs : List (List α)) (y : Sys α) :
    ∃ n y', fsWrite P k off (bufs.take P.iovmax) y = (y', .ok n) ∧
      window P y'.noPwritev off = window P y.noPwritev off ∧
      Offered k y y' off (bufs.take (window P y.noPwritev off)).flatten n := by
  have hpos := P.iovmax_pos
  have hfirst : (bufs.take P.iovmax).take 1 = bufs.take 1 := by rw [take_take, Nat.min_eq_left hpos]
  have hother {op : Op} (h : op ≠ .pwritev) : ¬(op = .pwritev ∧ P.vectored = .syscall false) := fun hop => h hop.1
  -- the calls that cannot be missing, for `w` buffers
  have hcall (op : Op) (w : ℕ) (hop : ¬(op = .pwritev ∧ P.vectored = .syscall false))
      (hw : bufs.take w = bufs.take (window P y.noPwritev off)) :
      ∃ n y', call k y ⟨op, if 0 ≤ off then some off else none, bufs.take w⟩ = (y', .ok n) ∧
        window P y'.noPwritev off = window P y.noPwritev off ∧
        Offered k y y' off (bufs.take (window P y.noPwritev off)).flatten n := by
    obtain ⟨n, hn, hoff⟩ := offered_call (c := ⟨op, if 0 ≤ off then some off else none, bufs.take w⟩) hk y hop rfl
    rw [← hw]
    exact ⟨n, _, hn, rfl, hoff⟩
  unfold fsWrite
  by_cases hoff : off < 0
  · have hw : window P y.noPwritev off = P.iovmax := if_pos hoff
    have hnone : (if 0 ≤ off then some off else none) = none := if_neg (by omega)
    rw [hnone] at hcall
    rw [if_pos hoff]
    split
    · next hone =>
      rw [hfirst]
      apply hcall
      · exact hother (by decide)
      · rw [hw, take_window hpos hone]
    · apply hcall
      · exact hother (by decide)
      · rw [hw]
  have hsome : (if 0 ≤ off then some off else none) = some off := if_pos (by omega)
  rw [hsome] at hcall
  rw [if_neg hoff, hfirst]
  split
  · next hone =>
    apply hcall
    · exact hother (by decide)
    · have hw : window P y.noPwritev off = P.iovmax ∨ window P y.noPwritev off = 1 := by
        unfold window
        rw [if_neg hoff]
        split
        · exact .inl rfl
        · exact .inr rfl
        split
        · exact .inl rfl
        · exact .inr rfl
      rcases hw with hw | hw
      · rw [hw, take_window hpos hone]
      · rw [hw]
  have hwin (b : Bool) : window P b off = match P.vectored with
      | .libc => P.iovmax
      | .absent => 1
      | .syscall implemented => if implemented && !b then P.iovmax else 1 := if_neg hoff
  cases hP : P.vectored with
  | libc =>
    apply hcall
    · intro h
      obtain ⟨-, h⟩ := h
      rw [hP] at h
      cases h
    · rw [hwin, hP]
  | absent =>
    apply hcall
    · exact hother (by decide)
    · rw [hwin, hP]
  | syscall implemented =>
    have hw : window P y.noPwritev off = if implemented && !y.noPwritev then P.iovmax else 1 := by rw [hwin, hP]
    cases hflag : y.noPwritev with
    | true =>
      rw [hflag] at hcall
      apply hcall
      · exact hother (by decide)
      · rw [← hflag, hw, hflag, Bool.not_true, Bool.and_false]
        rfl
    | false =>
      cases implemented with
      | true =>
        obtain ⟨n, y', hn, hwy, hoffered⟩ := hcall .pwritev P.iovmax (by rintro ⟨-, h⟩; rw [hP] at h; cases h)
          (by rw [hw, hflag]; rfl)
        rw [hflag] at hwy hoffered
        simp only [hn, if_false, reduceCtorEq, Bool.false_eq_true]
        exact ⟨n, y', rfl, hwy, hoffered⟩
      | false =>
        -- the kernel does not know the call: the flag is set, and the first buffer goes by itself
        have hmiss := (hk y.log.length ⟨.pwritev, some off, bufs.take P.iovmax⟩).1 rfl hP
        have hplain : ¬(Op.pwrite = .pwritev ∧ P.vectored = .syscall false) := hother (by decide)
        obtain ⟨n, hn, hoffered⟩ := offered_call (c := ⟨.pwrite, some off, bufs.take 1⟩) hk
          ⟨true, y.log ++ [(⟨.pwritev, some off, bufs.take P.iovmax⟩, .error .enosys)]⟩ hplain hsome.symm
        refine ⟨n, ⟨true, y.log ++ [(⟨.pwritev, some off, bufs.take P.iovmax⟩, .error .enosys)] ++
          [(⟨.pwrite, some off, bufs.take 1⟩, .ok n)]⟩, ?_, ?_, ?_⟩
        · simp only [call, hmiss, if_true, if_false, Bool.false_eq_true]
          exact hn
        · rw [hwin, hwin, hP]
          rfl
        · have h1 : window P false off = 1 := by rw [hwin, hP]; rfl
          rw [h1]
          obtain ⟨⟨es, hlog, htaken, hcons⟩, hkernel⟩ := hoffered
          refine ⟨⟨(⟨.pwritev, some off, bufs.take P.iovmax⟩, .error .enosys) :: es, ?_, ?_, ?_⟩, hkernel⟩
          · rw [hlog, append_assoc]
            rfl
          · exact htaken
          · refine ⟨hsome.symm, ?_⟩
            have h0 : forward off ([] : List α).length = off := forward_zero off
            exact h0.symm ▸ hcons

/-! ## The loop -/

theorem writeAll_eq (P : Platform) (k : Kernel α) : writeAll P k = Loop.run (step P k) := by
  funext fuel s
  induction fuel generalizing s with
  | zero => rfl
  | succ fuel ih =>
    unfold writeAll Loop.run
    cases (step P k s).2 with
    | some r => rfl
    | none => exact ih _

theorem step_spec (hk : Accepts P k) {s : State α} (hne : s.bufs ≠ []) :
    ∃ n y', window P y'.noPwritev s.off = window P s.sys.noPwritev s.off ∧
      Offered k s.sys y' s.off (s.bufs.take (window P s.sys.noPwritev s.off)).flatten n ∧
      step P k s = if n = 0 then ({ s with sys := y' }, some (.ok s.total))
        else (⟨forward s.off n, advance s.bufs n, s.total + n, y'⟩, none) := by
  obtain ⟨n, y', hr, hw, hoffered⟩ := fsWrite_spec hk s.off s.bufs s.sys
  refine ⟨n, y', hw, hoffered, ?_⟩
  have hlen : s.bufs.length ≠ 0 := fun h => hne (length_eq_zero_iff.1 h)
  unfold step
  rw [if_neg hlen, hr]
  cases n with
  | zero => rfl
  | succ n =>
    rfl

theorem Offered.zero (h : Offered k y y' off bytes 0) : bytes = [] := by
  obtain ⟨i, c, hc, hn, m, hm, -, hpos⟩ := h.kernel
  by_contra hne
  rw [hn] at hm
  cases hm
  exact absurd (hpos (hc ▸ hne)) (lt_irrefl 0)

theorem Offered.le (h : Offered k y y' off bytes n) :
    n ≤ bytes.length := by
  obtain ⟨i, c, hc, hn, m, hm, hle, -⟩ := h.kernel
  rw [hn] at hm
  cases hm
  rwa [← hc]

theorem flatten_take_le (bufs : List (List α)) (w : ℕ) (hn : n ≤ (bufs.take w).flatten.length) :
    n ≤ bufs.flatten.length ∧ (bufs.take w).flatten.take n = bufs.flatten.take n := by
  have hsplit : bufs.flatten = (bufs.take w).flatten ++ (bufs.drop w).flatten := by
    rw [← flatten_append, take_append_drop]
  rw [hsplit, length_append, take_append_of_le_length hn]
  exact ⟨by omega, rfl⟩

/-- The loop ends with the number of the bytes that were left; each of them was written once, in order and where it belongs. -/
def Rest (s s' : State α) (r : Answer) : Prop :=
  r = .ok (s.total + s.bufs.flatten.length) ∧
    ∃ es, s'.sys.log = s.sys.log ++ es ∧ es.flatMap taken = s.bufs.flatten ∧ Consecutive s.off es

theorem step_rest (hk : Accepts P k) (s : State α)
    (hstuck : ¬Stuck (window P s.sys.noPwritev s.off) s.bufs) :
    Loop.Round (step P k) (fun s₁ => ¬Stuck (window P s₁.sys.noPwritev s₁.off) s₁.bufs ∧
      s₁.bufs.flatten.length < s.bufs.flatten.length) Rest s := by
  by_cases hne : s.bufs = []
  · have hdone : step P k s = (s, some (.ok s.total)) := if_pos (length_eq_zero_iff.2 hne)
    refine .inl ⟨s, _, hdone, ?_, [], (append_nil _).symm, ?_, trivial⟩
    · rw [hne]
      rfl
    · rw [hne]
      rfl
  obtain ⟨n, y', hw, hoffered, hstep⟩ := step_spec hk hne
  obtain ⟨es, hlog, htaken, hcons⟩ := hoffered.log
  by_cases hn : n = 0
  · -- nothing was offered: the rest is empty
    subst hn
    have hnil : s.bufs.flatten = [] := by
      by_contra hrest
      exact hstuck (Stuck.of_take hoffered.zero hrest)
    refine .inl ⟨_, _, hstep, ?_, es, hlog, ?_, hcons⟩
    · rw [hnil]
      rfl
    · rw [htaken, take_zero, hnil]
  rw [if_neg hn] at hstep
  obtain ⟨hle, htake⟩ := flatten_take_le s.bufs _ hoffered.le
  have hrest : (advance s.bufs n).flatten.length = s.bufs.flatten.length - n := by rw [bufOffset_flatten, length_drop]
  refine .inr ⟨_, hstep, ⟨?_, ?_⟩, ?_⟩
  · rw [window_forward, hw]
    exact fun h => hstuck (h.of_advance (window_pos P _ _))
  · dsimp only
    omega
  · intro s' r h
    obtain ⟨hr, es', hlog', htaken', hcons'⟩ := h
    refine ⟨?_, es ++ es', ?_, ?_, ?_⟩
    · have hlen : s.total + n + (advance s.bufs n).flatten.length = s.total + s.bufs.flatten.length := by omega
      rw [hr, hlen]
    · rw [hlog', hlog, append_assoc]
    · rw [flatMap_append, htaken, htaken', htake, bufOffset_flatten, take_append_drop]
    · refine (consecutive_append s.off es es').2 ⟨hcons, ?_⟩
      rw [htaken, htake, length_take_of_le hle]
      exact hcons'

theorem writeAll_run (hk : Accepts P k) (s : State α)
    (hstuck : ¬Stuck (window P s.sys.noPwritev s.off) s.bufs) :
    ∃ fuel s' r, writeAll P k fuel s = (s', some r) ∧ Rest s s' r := by
  obtain ⟨fuel, s', r, hrun, hrest⟩ := Loop.run_total (fun s : State α => s.bufs.flatten.length) (step_rest hk) hstuck
  exact ⟨fuel, s', r, writeAll_eq P k ▸ hrun, hrest⟩

/-! ## Where it stops short -/

def oneByte (P : Platform) : Kernel α := fun _ c =>
  if c.op = .pwritev ∧ P.vectored = .syscall false then .error .enosys else .ok (min 1 c.bytes.length)

theorem oneByte_accepts (P : Platform) : Accepts P (oneByte P : Kernel α) := by
  intro i c
  refine ⟨fun hop hP => if_pos ⟨hop, hP⟩, fun hop => ⟨min 1 c.bytes.length, if_neg hop, Nat.min_le_right _ _, fun hne => ?_⟩⟩
  have hpos := length_pos_of_ne_nil hne
  omega

theorem oneByte_offered
    (h : Offered (oneByte P) y y' off bytes n) : n ≤ 1 := by
  obtain ⟨i, c, -, hn, -⟩ := h.kernel
  unfold oneByte at hn
  split at hn
  · cases hn
  · cases hn
    omega

theorem Stuck.advance_one (h : Stuck w bufs) (hoffer : (bufs.take w).flatten ≠ []) :
    Stuck w (advance bufs 1) := by
  obtain ⟨pre, gap, post, rfl, hlen, hgap, hpost⟩ := h
  -- over the empty buffers of `pre`, of which there are fewer than `w`
  have key (pre : List (List α)) (m : ℕ) (hm : m ≤ gap.length) (hoffer : ((pre ++ gap ++ post).take m).flatten ≠ []) :
      Stuck w (advance (pre ++ gap ++ post) 1) := by
    induction pre generalizing m with
    | nil =>
      rw [nil_append, take_append_of_le_length hm] at hoffer
      exact absurd (flatten_eq_nil_iff.2 fun b hb => hgap b (mem_of_mem_take hb)) hoffer
    | cons b pre ih =>
      rw [cons_append, cons_append, advance_cons, if_neg Nat.one_ne_zero]
      split
      · next hb =>
        by_cases hnil : b = []
        · subst hnil
          cases m with
          | zero => exact absurd rfl hoffer
          | succ m => exact ih m (by omega) hoffer
        · have h1 : 1 - b.length = 0 := by
            have := length_pos_of_ne_nil hnil
            omega
          have h0 (bufs : List (List α)) : advance bufs 0 = bufs := by
            cases bufs with
            | nil => rfl
            | cons b bufs => exact (advance_cons b bufs 0).trans (if_pos rfl)
          rw [h1, h0]
          exact ⟨pre, gap, post, rfl, hlen, hgap, hpost⟩
      · exact ⟨b.drop 1 :: pre, gap, post, rfl, hlen, hgap, hpost⟩
  exact key pre w hlen.ge hoffer

/-- The loop ends with fewer bytes than were left. -/
def Short (s : State α) (_ : State α) (r : Answer) : Prop := ∃ n, r = .ok (s.total + n) ∧ n < s.bufs.flatten.length

theorem step_short (s : State α) (hstuck : Stuck (window P s.sys.noPwritev s.off) s.bufs) :
    Loop.Round (step P (oneByte P)) (fun s₁ => Stuck (window P s₁.sys.noPwritev s₁.off) s₁.bufs ∧
      s₁.bufs.flatten.length < s.bufs.flatten.length) Short s := by
  have hpos : 0 < s.bufs.flatten.length := length_pos_of_ne_nil hstuck.exists_ne_nil
  have hne : s.bufs ≠ [] := by
    intro h
    rw [h] at hpos
    exact absurd hpos (lt_irrefl 0)
  obtain ⟨n, y', hw, hoffered, hstep⟩ := step_spec (oneByte_accepts P) hne
  by_cases hn : n = 0
  · rw [if_pos hn] at hstep
    exact .inl ⟨_, _, hstep, 0, rfl, hpos⟩
  obtain rfl : n = 1 := by
    have := oneByte_offered hoffered
    omega
  have hoffer : (s.bufs.take (window P s.sys.noPwritev s.off)).flatten ≠ [] := by
    have hle := hoffered.le
    exact ne_nil_of_length_pos (by omega)
  have hrest : (advance s.bufs 1).flatten.length = s.bufs.flatten.length - 1 := by rw [bufOffset_flatten, length_drop]
  refine .inr ⟨_, hstep, ⟨?_, ?_⟩, ?_⟩
  · rw [window_forward, hw]
    exact hstuck.advance_one hoffer
  · dsimp only
    omega
  · intro s' r h
    obtain ⟨m, hr, hlt⟩ := h
    dsimp only at hr hlt
    refine ⟨1 + m, ?_, by omega⟩
    rw [hr, Nat.add_assoc]

theorem not_writesAll_of_stuck {noPwritev : Bool}
    (h : Stuck (window P noPwritev off) bufs) : ¬WritesAll P (oneByte P) noPwritev off bufs := by
  intro hall
  obtain ⟨fuel, s, hrun, -⟩ := hall
  obtain ⟨fuel', s', r, hrun', n, hr, hlt⟩ :=
    Loop.run_total (s := start noPwritev off bufs) (fun s => s.bufs.flatten.length) (step_short (P := P)) h
  rw [writeAll_eq] at hrun
  obtain ⟨-, heq⟩ := Loop.run_unique hrun hrun'
  have hn : bufs.flatten.length = 0 + n := Except.ok.inj (heq.trans hr)
  have hlt : n < bufs.flatten.length := hlt
  omega

theorem writesAll_of_accepts (hk : Accepts P k) {noPwritev : Bool} {off : ℤ} (hstuck : ¬Stuck (window P noPwritev off) bufs) :
    WritesAll P k noPwritev off bufs := by
  obtain ⟨fuel, s, r, hrun, hr, es, hlog, htaken, hcons⟩ := writeAll_run hk (start noPwritev off bufs) hstuck
  have hes : s.sys.log = es := hlog
  have hr : r = .ok bufs.flatten.length := hr.trans (congrArg _ (Nat.zero_add _))
  exact ⟨fuel, s, hr ▸ hrun, hes ▸ htaken, hes ▸ hcons⟩

/-- **`uv__fs_write_all` writes everything**, whatever the kernel takes of each call, exactly where no window full of empty
buffers stands before one with bytes. -/
theorem writeAll_iff (P : Platform) (noPwritev : Bool) (off : ℤ) (bufs : List (List α)) :
    (∀ k, Accepts P k → WritesAll P k noPwritev off bufs) ↔ ¬Stuck (window P noPwritev off) bufs := by
  constructor
  · intro hall hstuck
    exact not_writesAll_of_stuck hstuck (hall (oneByte P) (oneByte_accepts P))
  · exact fun hstuck k hk => writesAll_of_accepts hk hstuck

/-- The fallback stops at an empty buffer: of `1`, nothing and `2, 3` only the `1` is written. `writev` stops behind `IOV_MAX`
of them. -/
theorem writeAll_short :
    ¬(∀ k, Accepts ⟨.absent, 1024, by decide⟩ k → WritesAll ⟨.absent, 1024, by decide⟩ k false 0 [[1], [], [2, 3]]) ∧
    ¬(∀ k, Accepts ⟨.libc, 1024, by decide⟩ k →
      WritesAll ⟨.libc, 1024, by decide⟩ k false (-1) (List.replicate 1024 [] ++ [[1]])) := by
  constructor
  · intro hall
    have hgap : Stuck (window ⟨.absent, 1024, by decide⟩ false 0) ([[1], [], [2, 3]] : List (List ℕ)) :=
      ⟨[[1]], [[]], [[2, 3]], rfl, rfl, by simp, by simp⟩
    exact not_writesAll_of_stuck hgap (hall _ (oneByte_accepts _))
  · intro hall
    have hgap : Stuck (window ⟨.libc, 1024, by decide⟩ false (-1)) (List.replicate 1024 [] ++ [[1]] : List (List ℕ)) :=
      ⟨[], List.replicate 1024 [], [[1]], rfl, length_replicate.trans rfl, fun b hb => (mem_replicate.1 hb).2, by simp⟩
    exact not_writesAll_of_stuck hgap (hall _ (oneByte_accepts _))

/-! ## The file -/

/-- What a call does to the file: a call of no bytes does not extend it. -/
def store (z : α) (file : List α) (e : Call α × Answer) : List α :=
  if taken e = [] then file else FlatFile.write z file (e.1.off.getD 0).toNat (taken e)

theorem store_consecutive (z : α) {log : List (Call α × Answer)} {pos : ℕ} (h : Consecutive pos log) (file : List α) :
    log.foldl (store z) file =
      if log.flatMap taken = [] then file else FlatFile.write z file pos (log.flatMap taken) := by
  induction log generalizing pos file with
  | nil => rfl
  | cons e log ih =>
    obtain ⟨hoff, hlog⟩ := h
    have hpos : forward (pos : ℤ) (taken e).length = ((pos + (taken e).length : ℕ) : ℤ) := by
      rw [forward, if_pos (Int.natCast_nonneg pos), Int.natCast_add]
    rw [foldl_cons, ih hlog, flatMap_cons, store, hoff]
    by_cases he : taken e = []
    · rw [if_pos he, he, nil_append, length_nil, Nat.add_zero]
    · rw [if_neg he, if_neg (fun h => he (append_eq_nil_iff.1 h).1)]
      by_cases hrest : log.flatMap taken = []
      · rw [hrest, append_nil]
        rfl
      · rw [if_neg hrest]
        exact FlatFile.write_write z file pos (taken e) (log.flatMap taken)

/-- **The file behind `uv__fs_write_all`** of at least one byte is that behind one write of all the bytes at the offset. -/
theorem file_of_writeAll (z : α) {noPwritev : Bool} {pos : ℕ} (hk : Accepts P k)
    (hstuck : ¬Stuck (window P noPwritev pos) bufs) (hne : bufs.flatten ≠ []) (file : List α) :
    ∃ fuel s, writeAll P k fuel (start noPwritev pos bufs) = (s, some (.ok bufs.flatten.length)) ∧
      s.sys.log.foldl (store z) file = FlatFile.write z file pos bufs.flatten := by
  obtain ⟨fuel, s, hrun, htaken, hcons⟩ := writesAll_of_accepts hk hstuck
  refine ⟨fuel, s, hrun, ?_⟩
  rw [store_consecutive z hcons, htaken, if_neg hne]

/-- Two bytes, in as many calls, behind the end of a file of one. -/
theorem file_of_writeAll_two : ∃ fuel s, writeAll ⟨.absent, 1024, by decide⟩ (oneByte ⟨.absent, 1024, by decide⟩) fuel
      (start false (2 : ℕ) [[8, 9]]) = (s, some (.ok 2)) ∧ s.sys.log.foldl (store 0) [7] = [7, 0, 8, 9] := by
  refine file_of_writeAll 0 (oneByte_accepts _) ?_ (by decide) [7]
  rintro ⟨pre, gap, post, hbufs, hlen, hgap, -⟩
  have hmem : [] ∈ ([[8, 9]] : List (List ℕ)) := by
    obtain ⟨b, hb⟩ := length_eq_one_iff.1 hlen
    rw [hbufs, hb, ← hgap b (hb ▸ mem_cons_self)]
    simp
  simp at hmem

end Libuv.L6.FsWrite
