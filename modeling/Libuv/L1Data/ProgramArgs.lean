import Mathlib.Data.List.Forall2
import Libuv.Core.CInt
import Libuv.Core.CommandLine

/-!
# The command line of a Windows process (`win/process.c`)

`make_program_args` turns the arguments of `uv_spawn` into the one string a Windows process gets; `quote_cmd_arg`
quotes an argument so that the runtime of the new process splits it off as it was. Both write through a pointer into
a buffer of `dst_len` characters; here a write behind the end of a buffer is `none`.

`MultiByteToWideChar` is a parameter, `wide`: the wide string it makes of an argument, if it makes one. It is told the size of
its buffer, what is left of `dst`, as an `int`; `dst_len` and `arg_count` are natural numbers.

* `never_exceeds`: with `dst_len` below 2^31, `make_program_args` never writes behind the end of a buffer.
* `command_line_round_trip`: what it makes is split into the arguments again.
-/
namespace Libuv.L1.ProgramArgs
open CommandLine List

abbrev WCHAR := UInt16

def space : WCHAR := 0x20
def tab : WCHAR := 0x09
def quote : WCHAR := 0x22
def backslash : WCHAR := 0x5C

/-- The characters in front of the terminating zero. -/
structure WString where
  chars : List WCHAR
  noNul : 0 ∉ chars
  deriving DecidableEq

def msvc : Marks WCHAR where
  blank c := decide (c = space ∨ c = tab)
  quote := quote
  slash := backslash
  quote_ne_slash := by decide
  blank_quote := by decide
  blank_slash := by decide

/-- `dst`, of `cap` characters, with what has been written in front of `pos`. -/
structure Buffer (cap : ℕ) where
  text : List WCHAR
  fits : text.length ≤ cap

namespace Buffer
variable {cap : ℕ} (b : Buffer cap)

/-- `*(target++) = c` -/
def put (c : WCHAR) : Option (Buffer cap) :=
  if h : b.text.length < cap then some { text := b.text ++ [c], fits := by simpa [Nat.succ_le_iff] using h } else none

/-- `wcsncpy(target, s, len); target += len` -/
def puts (s : List WCHAR) : Option (Buffer cap) := s.foldlM put b

/-- `target[0] = L'\0'` -/
def terminate : Option (Buffer cap) := if b.text.length < cap then some b else none

/-- `wcsrev(start)`, on a string that ends at `pos`. -/
def wcsrev (start : ℕ) : Buffer cap where
  text := b.text.take start ++ (b.text.drop start).reverse
  fits := by
    rw [length_append, length_reverse, ← length_append, take_append_drop]
    exact b.fits

end Buffer

def wcspbrk (source accept : List WCHAR) : Option WCHAR := source.find? (· ∈ accept)

variable {cap : ℕ}

/-- The loop of `quote_cmd_arg`, over the rest of the source from its end.
mirrors win/process.c:511-522 -/
def escapeLoop : List WCHAR → Bool → Buffer cap → Option (Buffer cap)
  | [], _, target => some target
  | c :: rest, quoteHit, target => do
    let target ← target.put c
    if quoteHit = true ∧ c = backslash then
      let target ← target.put backslash
      escapeLoop rest quoteHit target
    else if c = quote then
      let target ← target.put backslash
      escapeLoop rest true target
    else escapeLoop rest false target

/-- mirrors win/process.c:455-525 -/
def quoteCmdArg (source : List WCHAR) (target : Buffer cap) : Option (Buffer cap) := do
  if source.length = 0 then
    let target ← target.put quote
    target.put quote
  else if wcspbrk source [space, tab, quote] = none then
    target.puts source
  else if wcspbrk source [quote, backslash] = none then
    let target ← target.put quote
    let target ← target.puts source
    target.put quote
  else
    let target ← target.put quote
    let start := target.text.length
    let target ← escapeLoop source.reverse true target
    let target ← target.terminate
    (target.wcsrev start).put quote

/-- What `make_program_args` returns instead of 0: `GetLastError()` or `ERROR_OUTOFMEMORY`. -/
inductive WinError
  | lastError | outOfMemory
  deriving DecidableEq

structure Sizes where
  dstLen : ℕ
  tempBufferLen : ℕ
  argCount : ℕ

variable {C : Type*} (wide : C → Option WString)

/-- mirrors win/process.c:539-559 -/
def countArgs : List C → Sizes → Except WinError Sizes
  | [], sz => .ok sz
  | arg :: args, sz =>
    match wide arg with
    | none => .error .lastError
    | some w =>
      let argLen := w.chars.length + 1
      countArgs args
        { dstLen := sz.dstLen + argLen
          tempBufferLen := if argLen > sz.tempBufferLen then argLen else sz.tempBufferLen
          argCount := sz.argCount + 1 }

/-- mirrors win/process.c:594-602 -/
def writeArg (verbatim : Bool) (w : List WCHAR) (pos : Buffer cap) : Option (Buffer cap) := do
  if verbatim then
    let pos ← pos.puts w
    pos.terminate
  else quoteCmdArg w pos

/-- The second loop. `MultiByteToWideChar` fails if the size it is given is too small or negative; else it writes to
`temp_buffer`, or, if the size is 0, to nothing, and `temp_buffer` is read as it was.
mirrors win/process.c:580-604 -/
def copyArgs (verbatim : Bool) (tempBufferLen : ℕ) : List C → Buffer cap → Option (Except WinError (Buffer cap))
  | [], pos => some (.ok pos)
  | arg :: args, pos =>
    match wide arg with
    | none => some (.error .lastError)
    | some w =>
      let argLen := w.chars.length + 1
      let size := CInt.ofNat (cap - pos.text.length)
      if size ≠ 0 ∧ size < argLen then some (.error .lastError)
      else if size = 0 ∨ tempBufferLen < argLen then none
      else do
        let pos ← writeArg verbatim w.chars pos
        let pos ← pos.put (if args.isEmpty then 0 else space)
        copyArgs verbatim tempBufferLen args pos

/-- `mem`: the two allocations succeed.
mirrors win/process.c:528-615 -/
def makeProgramArgs (args : List C) (verbatim mem : Bool) : Option (Except WinError (List WCHAR)) :=
  match countArgs wide args { dstLen := 0, tempBufferLen := 0, argCount := 0 } with
  | .error err => some (.error err)
  | .ok sz =>
    let dstLen := sz.dstLen * 2 + sz.argCount * 2
    if !mem then some (.error .outOfMemory)
    else do
      let dst ← copyArgs wide verbatim sz.tempBufferLen args ({ text := [], fits := Nat.zero_le _ } : Buffer dstLen)
      some (dst.map Buffer.text)

/-! ## One argument -/

section Buffer
variable {b : Buffer cap}

theorem put_spec (c : WCHAR) (h : b.text.length < cap) : ∃ b', b.put c = some b' ∧ b'.text = b.text ++ [c] :=
  ⟨_, dif_pos h, rfl⟩

theorem puts_spec {s : List WCHAR} (h : b.text.length + s.length ≤ cap) :
    ∃ b', b.puts s = some b' ∧ b'.text = b.text ++ s := by
  induction s generalizing b with
  | nil => exact ⟨b, rfl, (append_nil _).symm⟩
  | cons c s ih =>
    rw [length_cons] at h
    obtain ⟨b1, h1, e1⟩ := put_spec (b := b) c (by omega)
    obtain ⟨b2, h2, e2⟩ := ih (b := b1) (by simp only [e1, length_append, length_singleton]; omega)
    refine ⟨b2, ?_, by simp [e2, e1]⟩
    rw [Buffer.puts, foldlM_cons, h1]
    exact h2

theorem terminate_spec (h : b.text.length < cap) : b.terminate = some b := if_pos h

theorem escapeLoop_spec (s : List WCHAR) (hit : Bool) (h : b.text.length + (msvc.emit hit s).length ≤ cap) :
    ∃ b', escapeLoop s hit b = some b' ∧ b'.text = b.text ++ msvc.emit hit s := by
  induction s generalizing b hit with
  | nil => exact ⟨b, rfl, (append_nil _).symm⟩
  | cons c s ih =>
    rw [Marks.emit] at h ⊢
    have hpos : b.text.length < cap := by
      split at h
      · rw [length_cons] at h
        omega
      · split at h <;> rw [length_cons] at h <;> omega
    obtain ⟨b1, h1, e1⟩ := put_spec c hpos
    have hlen : b1.text.length = b.text.length + 1 := by simp [e1]
    rw [escapeLoop, h1]
    simp only [Option.bind_eq_bind, Option.bind_some]
    by_cases hs : hit = true ∧ c = backslash
    · rw [if_pos (show hit = true ∧ c = msvc.slash from hs)] at h ⊢
      simp only [length_cons] at h
      obtain ⟨b2, h2, e2⟩ := put_spec (b := b1) backslash (by omega)
      obtain ⟨b3, h3, e3⟩ := ih (b := b2) hit (by simp only [e2, length_append, length_singleton]; omega)
      refine ⟨b3, by rw [if_pos hs, h2, Option.bind_some, h3], ?_⟩
      simp [e3, e2, e1, msvc]
    · rw [if_neg (show ¬(hit = true ∧ c = msvc.slash) from hs)] at h ⊢
      by_cases hq : c = quote
      · rw [if_pos (show c = msvc.quote from hq)] at h ⊢
        simp only [length_cons] at h
        obtain ⟨b2, h2, e2⟩ := put_spec (b := b1) backslash (by omega)
        obtain ⟨b3, h3, e3⟩ := ih (b := b2) true (by simp only [e2, length_append, length_singleton]; omega)
        refine ⟨b3, by rw [if_neg hs, if_pos hq, h2, Option.bind_some, h3], ?_⟩
        simp [e3, e2, e1, msvc]
      · rw [if_neg (show ¬c = msvc.quote from hq)] at h ⊢
        simp only [length_cons] at h
        obtain ⟨b2, h2, e2⟩ := ih (b := b1) false (by omega)
        refine ⟨b2, by rw [if_neg hs, if_neg hq, h2], ?_⟩
        simp [e2, e1]

theorem wcspbrk_bare {s : List WCHAR} : wcspbrk s [space, tab, quote] = none ↔ msvc.bare s = true := by
  have hblank (c : WCHAR) : msvc.blank c = false ↔ ¬(c = space ∨ c = tab) := decide_eq_false_iff_not
  simp only [wcspbrk, find?_eq_none, Marks.bare, all_eq_true, Bool.and_eq_true, Bool.not_eq_true', hblank,
    decide_eq_true_eq, mem_cons, not_mem_nil, or_false]
  refine forall₂_congr fun c _ => ?_
  show _ ↔ _ ∧ ¬c = quote
  rw [← or_assoc, not_or]

theorem wcspbrk_plain {s : List WCHAR} (h : wcspbrk s [quote, backslash] = none) : msvc.escape s = s := by
  simp only [wcspbrk, find?_eq_none, mem_cons, not_mem_nil, or_false, decide_eq_true_eq] at h
  exact msvc.escape_plain (fun hq => h _ hq (.inl rfl)) fun hs => h _ hs (.inr rfl)

/-- **All four branches write `quoteArg`**, if the buffer has room for it. -/
theorem quoteCmdArg_spec {s : List WCHAR} (h : b.text.length + (msvc.quoteArg s).length ≤ cap) :
    ∃ b', quoteCmdArg s b = some b' ∧ b'.text = b.text ++ msvc.quoteArg s := by
  unfold quoteCmdArg
  by_cases hnil : s.length = 0
  · obtain rfl := length_eq_zero_iff.1 hnil
    have hq : msvc.quoteArg ([] : List WCHAR) = [quote, quote] := rfl
    rw [hq, length_cons, length_singleton] at h
    obtain ⟨b1, h1, e1⟩ := put_spec (b := b) quote (by omega)
    obtain ⟨b2, h2, e2⟩ := put_spec (b := b1) quote (by simp only [e1, length_append, length_singleton]; omega)
    refine ⟨b2, by rw [if_pos hnil, h1]; exact h2, ?_⟩
    simp [e2, e1, hq]
  rw [if_neg hnil]
  have hne : s ≠ [] := fun e => hnil (length_eq_zero_iff.2 e)
  by_cases hbare : wcspbrk s [space, tab, quote] = none
  · rw [if_pos hbare]
    have hq : msvc.quoteArg s = s := if_pos ⟨hne, wcspbrk_bare.1 hbare⟩
    rw [hq] at h ⊢
    exact puts_spec h
  rw [if_neg hbare]
  have hq : msvc.quoteArg s = quote :: (msvc.escape s ++ [quote]) := if_neg fun e => hbare (wcspbrk_bare.2 e.2)
  rw [hq, length_cons, length_append, length_singleton] at h
  obtain ⟨b1, h1, e1⟩ := put_spec (b := b) quote (by omega)
  have l1 : b1.text.length = b.text.length + 1 := by simp [e1]
  by_cases hplain : wcspbrk s [quote, backslash] = none
  · rw [wcspbrk_plain hplain] at h
    obtain ⟨b2, h2, e2⟩ := puts_spec (b := b1) (s := s) (by omega)
    have l2 : b2.text.length = b1.text.length + s.length := by simp [e2]
    obtain ⟨b3, h3, e3⟩ := put_spec (b := b2) quote (by omega)
    refine ⟨b3, by simp [if_pos hplain, h1, h2, h3], ?_⟩
    simp [e3, e2, e1, hq, wcspbrk_plain hplain]
  · have hemit := msvc.emit_reverse s
    obtain ⟨b2, h2, e2⟩ := escapeLoop_spec (b := b1) s.reverse true
      (by rw [hemit, length_reverse]; omega)
    rw [hemit] at e2
    have l2 : b2.text.length = b1.text.length + (msvc.escape s).length := by simp [e2]
    have hrev : (b2.wcsrev b1.text.length).text = b1.text ++ msvc.escape s := by simp [Buffer.wcsrev, e2]
    obtain ⟨b3, h3, e3⟩ := put_spec (b := b2.wcsrev b1.text.length) quote
      (by rw [hrev, length_append]; omega)
    refine ⟨b3, ?_, by rw [e3, hrev, e1, hq]; simp⟩
    simp [if_neg hplain, h1, h2, h3, terminate_spec (b := b2) (by omega)]

end Buffer

/-! ## The command line -/

def piece (verbatim : Bool) (w : WString) : List WCHAR := if verbatim then w.chars else msvc.quoteArg w.chars

theorem length_piece_le (verbatim : Bool) (w : WString) : (piece verbatim w).length ≤ 2 * w.chars.length + 2 := by
  cases verbatim with
  | false => exact msvc.length_quoteArg_le _
  | true =>
    show w.chars.length ≤ _
    omega

theorem writeArg_spec (verbatim : Bool) (w : WString) {b : Buffer cap} (h : b.text.length + (2 * w.chars.length + 2) ≤ cap) :
    ∃ b', writeArg verbatim w.chars b = some b' ∧ b'.text = b.text ++ piece verbatim w := by
  have hlen := length_piece_le verbatim w
  cases verbatim with
  | false => exact quoteCmdArg_spec (Nat.le_trans (Nat.add_le_add_left hlen _) h)
  | true =>
    obtain ⟨b', h1, e1⟩ := puts_spec (b := b) (s := w.chars) (by omega)
    have l1 : b'.text.length = b.text.length + w.chars.length := by simp [e1]
    exact ⟨b', by simp [writeArg, h1, terminate_spec (b := b') (by omega)], e1⟩

/-- The pieces, each with a blank behind it or, the last one, the terminating zero. -/
def join (verbatim : Bool) : List WString → List WCHAR
  | [] => []
  | w :: ws => piece verbatim w ++ (if ws.isEmpty then 0 else space) :: join verbatim ws

/-- The sum of `arg_len`. -/
def argLens : List WString → ℕ
  | [] => 0
  | w :: ws => w.chars.length + 1 + argLens ws

/-- `dst_len` for these arguments. -/
def dstLen (ws : List WString) : ℕ := argLens ws * 2 + ws.length * 2

/-- Each argument is converted, to these wide strings. -/
abbrev Converts (args : List C) (ws : List WString) : Prop := List.Forall₂ (fun arg w => wide arg = some w) args ws

variable {wide}

variable {args : List C} {ws : List WString}

theorem countArgs_spec (h : Converts wide args ws) (sz : Sizes) :
    ∃ sz', countArgs wide args sz = .ok sz' ∧ sz'.dstLen = sz.dstLen + argLens ws ∧
      sz'.argCount = sz.argCount + ws.length ∧ sz.tempBufferLen ≤ sz'.tempBufferLen ∧
      ∀ w ∈ ws, w.chars.length + 1 ≤ sz'.tempBufferLen := by
  induction h generalizing sz with
  | nil => exact ⟨sz, rfl, rfl, rfl, Nat.le_refl _, nofun⟩
  | @cons arg w args ws hw _ ih =>
    obtain ⟨sz', h1, h2, h3, h4, h5⟩ := ih
      { dstLen := sz.dstLen + (w.chars.length + 1)
        tempBufferLen := if w.chars.length + 1 > sz.tempBufferLen then w.chars.length + 1 else sz.tempBufferLen
        argCount := sz.argCount + 1 }
    have hmax : w.chars.length + 1 ≤ sz'.tempBufferLen ∧ sz.tempBufferLen ≤ sz'.tempBufferLen := by
      dsimp only at h4
      split at h4 <;> omega
    refine ⟨sz', by rw [countArgs, hw]; exact h1, ?_, ?_, hmax.2, ?_⟩
    · rw [h2, argLens, Nat.add_assoc]
    · rw [h3, length_cons, Nat.add_assoc, Nat.add_comm 1]
    · rintro v (_ | ⟨_, hv⟩)
      · exact hmax.1
      · exact h5 v hv

theorem converts_of_count {sz sz' : Sizes} (h : countArgs wide args sz = .ok sz') :
    ∃ ws, Converts wide args ws := by
  induction args generalizing sz with
  | nil => exact ⟨[], .nil⟩
  | cons arg args ih =>
    rw [countArgs] at h
    split at h
    · cases h
    · next w hw =>
      obtain ⟨ws, hws⟩ := ih h
      exact ⟨w :: ws, .cons hw hws⟩

theorem copyArgs_spec (verbatim : Bool) {temp : ℕ} (h : Converts wide args ws)
    (htemp : ∀ w ∈ ws, w.chars.length + 1 ≤ temp) {b : Buffer cap} (hroom : b.text.length + dstLen ws ≤ cap)
    (hcap : cap < 2 ^ 31) :
    ∃ b', copyArgs wide verbatim temp args b = some (.ok b') ∧ b'.text = b.text ++ join verbatim ws := by
  induction h generalizing b with
  | nil => exact ⟨b, rfl, (append_nil _).symm⟩
  | @cons arg w args ws hw hws ih =>
    have hlen := length_piece_le verbatim w
    have hw1 := htemp w (mem_cons_self ..)
    simp only [dstLen, argLens, length_cons] at hroom
    obtain ⟨b1, h1, e1⟩ := writeArg_spec verbatim w (b := b) (by omega)
    have l1 : b1.text.length = b.text.length + (piece verbatim w).length := by simp [e1]
    obtain ⟨b2, h2, e2⟩ := put_spec (b := b1) (if args.isEmpty then 0 else space) (by omega)
    have l2 : b2.text.length = b1.text.length + 1 := by simp [e2]
    obtain ⟨b3, h3, e3⟩ := ih (fun v hv => htemp v (mem_cons_of_mem _ hv)) (b := b2) (by rw [dstLen]; omega)
    refine ⟨b3, ?_, ?_⟩
    · rw [copyArgs, hw]
      dsimp only
      have hsize := CInt.ofNat_of_lt (n := cap - b.text.length) (by omega)
      rw [if_neg (by omega), if_neg (by omega), h1]
      simp only [Option.bind_eq_bind, Option.bind_some, h2, h3]
    · have hempty : args.isEmpty = ws.isEmpty := by cases hws <;> rfl
      rw [e3, e2, e1, join, hempty]
      simp

theorem makeProgramArgs_spec (h : Converts wide args ws) (hlen : dstLen ws < 2 ^ 31) (verbatim : Bool) :
    makeProgramArgs wide args verbatim true = some (.ok (join verbatim ws)) ∧ (join verbatim ws).length ≤ dstLen ws := by
  obtain ⟨sz, h1, h2, h3, -, h5⟩ := countArgs_spec h { dstLen := 0, tempBufferLen := 0, argCount := 0 }
  have hcap : sz.dstLen * 2 + sz.argCount * 2 = dstLen ws := by
    rw [h2, h3, dstLen, Nat.zero_add, Nat.zero_add]
  obtain ⟨b, h4, e⟩ := copyArgs_spec verbatim h h5
    (b := ({ text := [], fits := Nat.zero_le _ } : Buffer (sz.dstLen * 2 + sz.argCount * 2)))
    (by rw [length_nil, Nat.zero_add]; exact Nat.le_of_eq hcap.symm) (hcap ▸ hlen)
  rw [nil_append] at e
  refine ⟨?_, by rw [← e, ← hcap]; exact b.fits⟩
  unfold makeProgramArgs
  rw [h1]
  simp only [Bool.not_true, Bool.false_eq_true, if_false, h4, Option.bind_eq_bind, Option.bind_some]
  exact congrArg (fun t => some (Except.ok t)) e

/-- **No write goes behind the end of a buffer**, whatever fails, if the size of `dst` is an `int`. -/
theorem never_exceeds {args : List C} (hlen : ∀ ws, Converts wide args ws → dstLen ws < 2 ^ 31) (verbatim mem : Bool) :
    makeProgramArgs wide args verbatim mem ≠ none := by
  cases hc : countArgs wide args { dstLen := 0, tempBufferLen := 0, argCount := 0 } with
  | error err => simp [makeProgramArgs, hc]
  | ok sz =>
    obtain ⟨ws, hws⟩ := converts_of_count hc
    cases mem with
    | false => simp [makeProgramArgs, hc]
    | true => simp [(makeProgramArgs_spec hws (hlen ws hws) verbatim).1]

theorem join_quoted (w : WString) (ws : List WString) :
    join false (w :: ws) = msvc.render space ((w :: ws).map WString.chars) ++ [0] := by
  induction ws generalizing w with
  | nil => simp [join, piece, Marks.render]
  | cons v vs ih =>
    rw [join, ih v]
    simp [piece, Marks.render]

theorem noNul_render (ws : List WString) : 0 ∉ msvc.render space (ws.map WString.chars) := by
  have hquote (w : WString) : 0 ∉ msvc.quoteArg w.chars := by
    intro h
    rcases msvc.mem_quoteArg h with h | h | h
    · exact w.noNul h
    · exact absurd h (by decide)
    · exact absurd h (by decide)
  induction ws with
  | nil => exact not_mem_nil
  | cons w ws ih =>
    cases ws with
    | nil => exact hquote w
    | cons v vs =>
      have hspace : (0 : WCHAR) ≠ space := by decide
      simpa [Marks.render, hquote w, hspace] using ih

/-- **What `make_program_args` makes is split into the arguments again**, if `dst_len` is below 2^31. It fits into `dst`, and
the runtime's rules give back every argument; also where the first one is read as a program name, in which backslashes do
nothing, those behind it are given back, if there is no quote in it. -/
theorem command_line_round_trip (wide : C → Option WString) {arg : C} {args : List C} {w : WString} {ws : List WString}
    (h : Converts wide (arg :: args) (w :: ws)) (hlen : dstLen (w :: ws) < 2 ^ 31) :
    ∃ line, makeProgramArgs wide (arg :: args) false true = some (.ok (line ++ [0])) ∧ 0 ∉ line ∧
      (line ++ [0]).length ≤ dstLen (w :: ws) ∧ msvc.split line = w.chars :: ws.map WString.chars ∧
      (quote ∉ w.chars → msvc.split (msvc.skipName false line) = ws.map WString.chars) := by
  obtain ⟨hmake, hfits⟩ := makeProgramArgs_spec h hlen false
  rw [join_quoted] at hmake hfits
  have hblank : msvc.blank space = true := by decide
  exact ⟨_, hmake, noNul_render _, hfits, msvc.split_render hblank _, fun hq => msvc.split_skipName hblank hq _⟩

/-- `MultiByteToWideChar` on ASCII. -/
def ascii (s : List UInt8) : Option WString :=
  if h : 0 ∉ s.map UInt8.toUInt16 then some { chars := s.map UInt8.toUInt16, noNul := h } else none

/-- `a` and `b "\`: a blank, a quote and a backslash at the end. -/
theorem command_line_round_trip_two : ∃ line,
    makeProgramArgs ascii [[0x61], [0x62, 0x20, 0x22, 0x5C]] false true = some (.ok (line ++ [0])) ∧
      msvc.split line = [[0x61], [0x62, 0x20, 0x22, 0x5C]] := by
  have h : Converts ascii [[0x61], [0x62, 0x20, 0x22, 0x5C]] [⟨[0x61], by decide⟩, ⟨[0x62, 0x20, 0x22, 0x5C], by decide⟩] :=
    .cons (by decide +kernel) (.cons (by decide +kernel) .nil)
  obtain ⟨line, h1, -, -, h2, -⟩ := command_line_round_trip ascii h (by decide +kernel)
  exact ⟨line, h1, h2⟩

/-- An argument with a blank. -/
theorem never_exceeds_one : makeProgramArgs ascii [[0x61, 0x20]] false true ≠ none := by
  refine never_exceeds (fun ws h => ?_) _ _
  rcases h with - | @⟨_, w, _, _, hw, - | _⟩
  have hascii : ascii [0x61, 0x20] = some ⟨[0x61, 0x20], by decide⟩ := by decide +kernel
  obtain rfl := Option.some_injective _ (hascii.symm.trans hw)
  decide

theorem copyArgs_long (verbatim : Bool) (temp : ℕ) {w : WString} (hw : wide arg = some w) (h : cap = 2 ^ 31) :
    copyArgs wide verbatim temp (arg :: args) ({ text := [], fits := Nat.zero_le _ } : Buffer cap) =
      some (.error .lastError) := by
  have hsize : CInt.ofNat (2 ^ 31) = -2 ^ 31 := by decide
  rw [copyArgs, hw]
  dsimp only [length_nil]
  rw [Nat.sub_zero, h, if_pos]
  omega

/-- For an argument of 2^30 - 2 letters `dst_len` is 2^31, and as an `int` it is negative. -/
theorem makeProgramArgs_long : ∃ w : WString, w.chars = replicate (2 ^ 30 - 2) 0x61 ∧
    makeProgramArgs some [w] false true = some (.error .lastError) := by
  have hnul : (0 : WCHAR) ∉ replicate (2 ^ 30 - 2) 0x61 := fun h => absurd (eq_of_mem_replicate h) (by decide)
  refine ⟨⟨_, hnul⟩, rfl, ?_⟩
  generalize hw : (⟨_, hnul⟩ : WString) = w
  have hlen : w.chars.length = 2 ^ 30 - 2 := by
    rw [← hw]
    exact length_replicate
  clear hw
  unfold makeProgramArgs
  simp only [countArgs]
  rw [copyArgs_long _ _ rfl (by omega)]
  rfl

/-- A quote in the program name: the argument behind it is not given back. -/
example : msvc.split (msvc.skipName false (msvc.render space [[quote], [0x61]])) = [] := by decide +kernel

end Libuv.L1.ProgramArgs
