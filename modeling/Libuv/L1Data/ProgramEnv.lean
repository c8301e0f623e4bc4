import Libuv.Core.Merge
import Libuv.L1Data.OsEnviron
import Libuv.L1Data.ProgramArgs

/-!
# The environment of a Windows process (`win/process.c`)

`make_program_env` turns the strings given to `uv_spawn` into the environment block of a Windows process: it
converts those that have a `'='`, sorts them by name, and inserts the variables a process cannot do without, with the values
they have in the parent, where the strings do not name them. One loop adds up how long the block will be, a second one, with
the same comparisons, writes it; the table of the sizes of values holds something only
where the first loop has put it.

The functions of Windows and `qsort` are the fields of `Win32`, with what the code relies on. An assertion that fails, a
write outside of a buffer and the use of what was not stored are `none`.

* `makeProgramEnv_block`: the block that comes out, or the error.
-/
namespace Libuv.L1.ProgramEnv

open List
open ProgramArgs (WCHAR WString Buffer WinError put_spec puts_spec terminate_spec)
open OsEnviron (CString)

def equals : WCHAR := 0x3D

/-- `env_var_t`; `len` counts the `'='`. -/
structure EnvVar where
  wide : List WCHAR
  wideEq : List WCHAR
  len : ℕ
  deriving DecidableEq

def E_V (str : List Char) : EnvVar :=
  let s := str.map fun c => UInt16.ofNat c.toNat
  ⟨s, s ++ [equals], str.length + 1⟩

/-- mirrors win/process.c:46-60 -/
def requiredVars : List EnvVar :=
  [E_V ['H', 'O', 'M', 'E', 'D', 'R', 'I', 'V', 'E'],
   E_V ['H', 'O', 'M', 'E', 'P', 'A', 'T', 'H'],
   E_V ['L', 'O', 'G', 'O', 'N', 'S', 'E', 'R', 'V', 'E', 'R'],
   E_V ['P', 'A', 'T', 'H'],
   E_V ['S', 'Y', 'S', 'T', 'E', 'M', 'D', 'R', 'I', 'V', 'E'],
   E_V ['S', 'Y', 'S', 'T', 'E', 'M', 'R', 'O', 'O', 'T'],
   E_V ['T', 'E', 'M', 'P'],
   E_V ['U', 'S', 'E', 'R', 'D', 'O', 'M', 'A', 'I', 'N'],
   E_V ['U', 'S', 'E', 'R', 'N', 'A', 'M', 'E'],
   E_V ['U', 'S', 'E', 'R', 'P', 'R', 'O', 'F', 'I', 'L', 'E'],
   E_V ['W', 'I', 'N', 'D', 'I', 'R']]

def le (cmp : WString → WString → Option ℤ) (a b : WString) : Prop := ∃ r ≤ 0, cmp a b = some r

/-- What the code uses of Windows and the C library: `MultiByteToWideChar` for UTF-8, which returns an `int`;
`LCMapStringW` with `LCMAP_UPPERCASE`; `GetEnvironmentVariableW`, whose values have less than 32767 characters; `qsort`. -/
structure Win32 where
  wide : CString → Option WString
  wide_length : ∀ s t, wide s = some t → t.chars.length + 1 < 2 ^ 31
  wide_equals : ∀ s t, wide s = some t → OsEnviron.equals ∈ s.chars → equals ∈ t.chars
  upper : List WCHAR → List WCHAR
  upper_length : ∀ s, (upper s).length = s.length
  upper_noNul : ∀ s, 0 ∉ s → 0 ∉ upper s
  upper_capitals : ∀ s : List WCHAR, (∀ c ∈ s, 0x41 ≤ c ∧ c ≤ 0x5A) → upper s = s
  getenv : List WCHAR → Option WString
  getenv_length : ∀ s t, getenv s = some t → t.chars.length < 32767
  qsort : (WString → WString → Option ℤ) → List WString → Option (List WString)
  qsort_sorts : ∀ cmp l, (∀ a ∈ l, ∀ b ∈ l, (cmp a b).isSome = true) → (∀ a ∈ l, ∀ b ∈ l, le cmp a b ∨ le cmp b a) →
    (∀ a ∈ l, ∀ b ∈ l, ∀ c ∈ l, le cmp a b → le cmp b c → le cmp a c) →
    ∃ l', qsort cmp l = some l' ∧ l'.Perm l ∧ l'.Pairwise (le cmp)

variable (w : Win32)

def wcschr (s : List WCHAR) (c : WCHAR) : Option ℕ := s.findIdx? (· = c)

/-- The loop of `env_strncmp`, over what is left of `A` and `B` with their zeros.
mirrors win/process.c:647-657 -/
def compare : List WCHAR → List WCHAR → Option ℤ
  | AA :: A, BB :: B =>
    if AA < BB then some (-1)
    else if BB < AA then some 1
    else if AA = 0 ∧ BB = 0 then some 0
    else compare A B
  | _, _ => none

/-- mirrors win/process.c:618-658 -/
def envStrncmp (a : List WCHAR) (na : ℤ) (b : List WCHAR) : Option ℤ := do
  let na ← (if na < 0 then wcschr a equals else some (na - 1).toNat)
  let nb ← wcschr b equals
  let A := w.upper (a.take na)
  let B := w.upper (b.take nb)
  if A.length = na ∧ B.length = nb then compare (A ++ [0]) (B ++ [0]) else none

/-- mirrors win/process.c:661-665 -/
def qsortWcscmp (a b : WString) : Option ℤ := envStrncmp w a.chars (-1) b.chars

/-- The length, if the conversion succeeds, and what is stored: nothing if the size is 0. -/
def multiByteToWideChar (s : CString) (size : ℤ) : Option (ℕ × Option WString) :=
  match w.wide s with
  | none => none
  | some t =>
    if size = 0 then some (t.chars.length + 1, none)
    else if size < t.chars.length + 1 then none
    else some (t.chars.length + 1, some t)

/-- The first pass; it returns `env_len` and `env_block_count`.
mirrors win/process.c:698-714 -/
def firstPass : List CString → ℕ → ℕ → Except WinError (ℕ × ℕ)
  | [], envLen, count => .ok (envLen, count)
  | env :: envs, envLen, count =>
    if OsEnviron.equals ∈ env.chars then
      match multiByteToWideChar w env 0 with
      | none => .error .lastError
      | some (len, _) => firstPass envs (envLen + len) (count + 1)
    else firstPass envs envLen count

/-- The second pass; it returns `ptr - dst_copy` and the strings behind the pointers. The size given to
`MultiByteToWideChar` is cast to `int`.
mirrors win/process.c:724-741 -/
def secondPass (envLen : ℕ) : List CString → ℕ → List (Option WString) → Except WinError (ℕ × List (Option WString))
  | [], ptr, copies => .ok (ptr, copies)
  | env :: envs, ptr, copies =>
    if OsEnviron.equals ∈ env.chars then
      match multiByteToWideChar w env (Int.bmod (envLen - ptr) (2 ^ 32)) with
      | none => .error .lastError
      | some (len, s) => secondPass envLen envs (ptr + len) (copies ++ [s])
    else secondPass envLen envs ptr copies

/-- `env_len` and `required_vars_value_len`, which is not initialised. -/
structure Sizes where
  envLen : ℕ
  valueLen : ℕ → Option ℕ

/-- What `GetEnvironmentVariableW` returns when it is given no buffer. -/
def varSize (v : EnvVar) : ℕ :=
  match w.getenv v.wide with
  | none => 0
  | some t => t.chars.length + 1

def Sizes.missing (sz : Sizes) (i : ℕ) (v : EnvVar) : Sizes where
  envLen := if varSize w v ≠ 0 then sz.envLen + v.len + varSize w v else sz.envLen
  valueLen := Function.update sz.valueLen i (some (varSize w v))

/-- The third pass, with the variables from number `i` on and the strings from `*ptr_copy` on.
mirrors win/process.c:748-772 -/
def sizePass : ℕ → List EnvVar → List WString → Sizes → Option Sizes
  | _, [], _, sz => some sz
  | i, v :: vs, [], sz => sizePass (i + 1) vs [] (sz.missing w i v)
  | i, v :: vs, s :: ss, sz => do
    let cmp ← envStrncmp w v.wideEq v.len s.chars
    if cmp < 0 then sizePass (i + 1) vs (s :: ss) (sz.missing w i v)
    else if cmp = 0 then sizePass (i + 1) vs ss sz
    else sizePass i (v :: vs) ss sz
termination_by _ vs ss _ => vs.length + ss.length

variable {cap : ℕ}

/-- `GetEnvironmentVariableW` with a buffer of `size` characters at `ptr`: the result and the buffer, with `ptr` behind
the value and its zero if they fit. -/
def getEnvironmentVariableW (name : List WCHAR) (ptr : Buffer cap) (size : ℕ) : Option (ℕ × Buffer cap) :=
  match w.getenv name with
  | none => some (0, ptr)
  | some t =>
    if t.chars.length + 1 ≤ size then do
      let ptr ← ptr.puts t.chars
      let ptr ← ptr.put 0
      return (t.chars.length, ptr)
    else some (t.chars.length + 1, ptr)

/-- A missing variable, in the final pass. `wcscpy` writes a zero behind the `'='`.
mirrors win/process.c:794-807 -/
def insertVar (sz : Sizes) (i : ℕ) (v : EnvVar) (ptr : Buffer cap) : Option (Buffer cap) := do
  let len ← sz.valueLen i
  if len = 0 then return ptr
  let ptr ← ptr.puts v.wideEq
  let ptr ← ptr.terminate
  let (size, ptr) ← getEnvironmentVariableW w v.wide ptr ((sz.envLen - ptr.text.length) % 2 ^ 32)
  if size = len - 1 then return ptr else none

/-- mirrors win/process.c:809-812 -/
def copyVar (s : WString) (ptr : Buffer cap) : Option (Buffer cap) := do
  let ptr ← ptr.puts s.chars
  ptr.put 0

/-- The final pass.
mirrors win/process.c:781-816 -/
def finalPass (sz : Sizes) : ℕ → List EnvVar → List WString → Buffer cap → Option (Buffer cap)
  | _, [], [], ptr => some ptr
  | i, [], s :: ss, ptr => do
    let ptr ← copyVar s ptr
    finalPass sz i [] ss ptr
  | i, v :: vs, [], ptr => do
    let ptr ← insertVar w sz i v ptr
    finalPass sz (i + 1) vs [] ptr
  | i, v :: vs, s :: ss, ptr => do
    let cmp ← envStrncmp w v.wideEq v.len s.chars
    if cmp < 0 then
      let ptr ← insertVar w sz i v ptr
      finalPass sz (i + 1) vs (s :: ss) ptr
    else
      let ptr ← copyVar s ptr
      if cmp = 0 then finalPass sz (i + 1) vs ss ptr
      else finalPass sz i (v :: vs) ss ptr
termination_by _ vs ss _ => vs.length + ss.length

/-- `copyOk` and `dstOk`: the two allocations succeed.
mirrors win/process.c:684-825 -/
def makeProgramEnv (envBlock : List CString) (copyOk dstOk : Bool) : Option (Except WinError (List WCHAR)) :=
  match firstPass w envBlock 0 1 with
  | .error err => some (.error err)
  | .ok (envLen, count) =>
    if copyOk = false ∧ envLen > 0 then some (.error .outOfMemory)
    else
      match secondPass w envLen envBlock 0 [] with
      | .error err => some (.error err)
      | .ok (ptr, copies) => do
        guard (envLen = 0 ∨ envLen = ptr)
        let copies ← copies.mapM id
        let copies ← w.qsort (qsortWcscmp w) (copies.take (count - 1))
        let sz ← sizePass w 0 requiredVars copies ⟨envLen, fun _ => none⟩
        if dstOk = false then return .error .outOfMemory
        let ptr ← finalPass w sz 0 requiredVars copies ({ text := [], fits := Nat.zero_le _ } : Buffer (1 + sz.envLen))
        guard (sz.envLen = ptr.text.length)
        let dst ← ptr.put 0
        return .ok dst.text

/-! ## Comparing names -/

/-- The name in front of the first `'='`. -/
def nameOf (s : List WCHAR) : List WCHAR := s.takeWhile (· ≠ equals)

def nameKey (s : List WCHAR) : List ℕ := (w.upper (nameOf s)).map UInt16.toNat

variable {w}

theorem compare_spec {A B : List WCHAR} (hA : 0 ∉ A) (hB : 0 ∉ B) : ∃ r, compare (A ++ [0]) (B ++ [0]) = some r ∧
    (r < 0 ↔ A.map UInt16.toNat < B.map UInt16.toNat) ∧ (r = 0 ↔ A.map UInt16.toNat = B.map UInt16.toNat) := by
  have pos : ∀ {c : WCHAR} {l : List WCHAR}, 0 ∉ c :: l → 0 < c := fun h =>
    UInt16.pos_iff_ne_zero.2 fun e => h (by simp [e])
  induction A generalizing B with
  | nil =>
    cases B with
    | nil => exact ⟨0, rfl, by simp, by simp⟩
    | cons b B => exact ⟨-1, by simp [compare, pos hB], by simp, by simp⟩
  | cons a A ih =>
    cases B with
    | nil =>
      have : ¬a < 0 := by simp
      exact ⟨1, by simp [compare, this, pos hA], by simp, by simp⟩
    | cons b B =>
      obtain ⟨r, hr, h1, h2⟩ := ih (fun h => hA (.tail _ h)) fun h => hB (.tail _ h)
      simp only [cons_append, compare, map_cons, cons_lt_cons_iff, List.cons.injEq]
      rcases lt_trichotomy a.toNat b.toNat with h | h | h
      · refine ⟨-1, by rw [if_pos (UInt16.lt_iff_toNat_lt.2 h)], by simp [h], by simp [h.ne]⟩
      · obtain rfl := UInt16.toNat_inj.1 h
        have hne : a ≠ 0 := fun e => hA (by simp [e])
        exact ⟨r, by simp [hne, hr], by simp [h1], by simp [h2]⟩
      · have hba : b < a := UInt16.lt_iff_toNat_lt.2 h
        have hab : ¬a < b := fun hlt => (UInt16.lt_iff_toNat_lt.1 hlt).not_gt h
        exact ⟨1, by rw [if_neg hab, if_pos hba], by simp [h.not_gt, h.ne'], by simp [h.ne']⟩

theorem wcschr_equals {s : List WCHAR} (h : equals ∈ s) :
    wcschr s equals = some (nameOf s).length ∧ s.take (nameOf s).length = nameOf s := by
  obtain ⟨a, b, rfl, ha⟩ := eq_append_cons_of_mem h
  have hall : ∀ x ∈ a, decide (x ≠ equals) = true := fun x hx => by simpa using fun e : x = equals => ha (e ▸ hx)
  have hname : nameOf (a ++ equals :: b) = a := by
    rw [nameOf, takeWhile_append_of_pos hall]
    simp
  rw [hname]
  refine ⟨?_, take_left⟩
  rw [wcschr, findIdx?_append, findIdx?_eq_none_iff.2]
  · simp [findIdx?_cons]
  · exact fun x hx => by simpa using fun e : x = equals => ha (e ▸ hx)

theorem noNul_name {s : List WCHAR} (h : 0 ∉ s) : 0 ∉ nameOf s := fun hm => h (takeWhile_subset _ hm)

theorem envStrncmp_spec {a b : List WCHAR} {n : ℤ} (hna : n < 0 ∨ n = (nameOf a).length + 1) (ha : equals ∈ a)
    (hb : equals ∈ b) (ha0 : 0 ∉ a) (hb0 : 0 ∉ b) : ∃ r, envStrncmp w a n b = some r ∧
      (r < 0 ↔ nameKey w a < nameKey w b) ∧ (r = 0 ↔ nameKey w a = nameKey w b) := by
  obtain ⟨h1, h2⟩ := wcschr_equals ha
  obtain ⟨h3, h4⟩ := wcschr_equals hb
  obtain ⟨r, hr, hcmp⟩ := compare_spec (w.upper_noNul _ (noNul_name ha0)) (w.upper_noNul _ (noNul_name hb0))
  refine ⟨r, ?_, hcmp⟩
  have hlen : (if n < 0 then wcschr a equals else some (n - 1).toNat) = some (nameOf a).length := by
    rcases hna with h | rfl
    · rw [if_pos h, h1]
    · rw [if_neg (by omega)]
      congr 1
      omega
  simp only [envStrncmp, hlen, h3, Option.bind_eq_bind, Option.bind_some, h2, h4, w.upper_length, and_self, if_true, hr]

/-! ## The two loops -/

/-- What the table promises of its entries: the name in capitals, the name with the `'='`, the length of that. -/
structure EnvVar.Wf (v : EnvVar) : Prop where
  capitals : ∀ c ∈ v.wide, 0x41 ≤ c ∧ c ≤ 0x5A
  wideEq : v.wideEq = v.wide ++ [equals]
  len : v.len = v.wide.length + 1

theorem requiredVars_wf : ∀ v ∈ requiredVars, v.Wf := by
  have h : ∀ v ∈ requiredVars, (v.wide.all fun c => decide (0x41 ≤ c ∧ c ≤ 0x5A)) = true ∧ v.wideEq = v.wide ++ [equals] ∧
    v.len = v.wide.length + 1 := by decide
  exact fun v hv => ⟨fun c hc => of_decide_eq_true (all_eq_true.1 (h v hv).1 c hc), (h v hv).2.1, (h v hv).2.2⟩

theorem requiredVars_sorted : requiredVars.Pairwise fun v v' => v.wide.map UInt16.toNat < v'.wide.map UInt16.toNat := by
  decide

section Wf
variable {v : EnvVar}

theorem EnvVar.Wf.nameOf_value (hv : v.Wf) (t : List WCHAR) : ProgramEnv.nameOf (v.wideEq ++ t) = v.wide := by
  rw [hv.wideEq, append_assoc, ProgramEnv.nameOf, takeWhile_append_of_pos]
  · simp
  · intro c hc
    have hle := (hv.capitals c hc).1
    simp only [decide_eq_true_eq]
    rintro rfl
    exact absurd hle (by decide)

theorem EnvVar.Wf.nameOf (hv : v.Wf) : ProgramEnv.nameOf v.wideEq = v.wide := by
  rw [← hv.nameOf_value [], append_nil]

theorem EnvVar.Wf.nameKey (hv : v.Wf) : nameKey w v.wideEq = v.wide.map UInt16.toNat := by
  rw [ProgramEnv.nameKey, hv.nameOf, w.upper_capitals _ hv.capitals]

theorem EnvVar.Wf.noNul (hv : v.Wf) : 0 ∉ v.wideEq := by
  rw [hv.wideEq, mem_append, not_or]
  exact ⟨fun h => absurd (hv.capitals 0 h).1 (by decide), by decide⟩

theorem EnvVar.Wf.cmp (hv : v.Wf) {s : WString} (hs : equals ∈ s.chars) :
    ∃ r, envStrncmp w v.wideEq v.len s.chars = some r ∧ (r < 0 ↔ ProgramEnv.nameKey w v.wideEq < ProgramEnv.nameKey w s.chars) ∧
      (r = 0 ↔ ProgramEnv.nameKey w v.wideEq = ProgramEnv.nameKey w s.chars) := by
  refine envStrncmp_spec (.inr ?_) ?_ hs hv.noNul s.noNul
  · rw [hv.nameOf, hv.len, Nat.cast_add, Nat.cast_one]
  · simp [hv.wideEq]

end Wf

variable (w)

def varKey (v : EnvVar) : List ℕ := nameKey w v.wideEq

def strKey (s : WString) : List ℕ := nameKey w s.chars

/-- The variables `make_program_env` has to look up. -/
abbrev missing (vs : List EnvVar) (ss : List WString) : List EnvVar := Merge.missing (varKey w) (strKey w) vs ss

/-- The characters that variables with a value take. -/
def needed (vs : List EnvVar) : ℕ := (vs.map fun v => if varSize w v ≠ 0 then v.len + varSize w v else 0).sum

variable {w}

/-- The table, or the rest of it, and the sorted strings. -/
structure Merging (w : Win32) (vs : List EnvVar) (ss : List WString) : Prop where
  wf : ∀ v ∈ vs, v.Wf
  vars : vs.Pairwise fun v v' => varKey w v < varKey w v'
  equals : ∀ s ∈ ss, equals ∈ s.chars
  strings : ss.Pairwise fun s s' => strKey w s ≤ strKey w s'

section Merging
variable {v : EnvVar} {vs : List EnvVar} {s : WString} {ss : List WString}

theorem Merging.left (h : Merging w (v :: vs) ss) : Merging w vs ss :=
  ⟨fun x hx => h.wf x (.tail _ hx), (pairwise_cons.1 h.vars).2, h.equals, h.strings⟩

theorem Merging.right (h : Merging w vs (s :: ss)) : Merging w vs ss :=
  ⟨h.wf, h.vars, fun x hx => h.equals x (.tail _ hx), (pairwise_cons.1 h.strings).2⟩

theorem Merging.cmp (h : Merging w (v :: vs) (s :: ss)) : ∃ r, envStrncmp w v.wideEq v.len s.chars = some r ∧
    (r < 0 ↔ varKey w v < strKey w s) ∧ (r = 0 ↔ varKey w v = strKey w s) :=
  (h.wf v (by simp)).cmp (h.equals s (by simp))

/-! What one round of the two loops does, by the names of the variable and the string. -/

theorem Merging.sizePass_of_lt (h : Merging w (v :: vs) (s :: ss)) (hlt : varKey w v < strKey w s) (i : ℕ) (sz : Sizes) :
    sizePass w i (v :: vs) (s :: ss) sz = sizePass w (i + 1) vs (s :: ss) (sz.missing w i v) := by
  obtain ⟨r, hr, hneg, -⟩ := h.cmp
  rw [sizePass, hr, Option.bind_eq_bind, Option.bind_some, if_pos (hneg.2 hlt)]

theorem Merging.sizePass_of_eq (h : Merging w (v :: vs) (s :: ss)) (heq : varKey w v = strKey w s) (i : ℕ) (sz : Sizes) :
    sizePass w i (v :: vs) (s :: ss) sz = sizePass w (i + 1) vs ss sz := by
  obtain ⟨r, hr, hneg, hzero⟩ := h.cmp
  rw [sizePass, hr, Option.bind_eq_bind, Option.bind_some, if_neg (mt hneg.1 heq.not_lt), if_pos (hzero.2 heq)]

theorem Merging.sizePass_of_gt (h : Merging w (v :: vs) (s :: ss)) (hgt : strKey w s < varKey w v) (i : ℕ) (sz : Sizes) :
    sizePass w i (v :: vs) (s :: ss) sz = sizePass w i (v :: vs) ss sz := by
  obtain ⟨r, hr, hneg, hzero⟩ := h.cmp
  rw [sizePass, hr, Option.bind_eq_bind, Option.bind_some, if_neg (mt hneg.1 hgt.not_gt), if_neg (mt hzero.1 hgt.ne')]

theorem Merging.finalPass_of_lt (h : Merging w (v :: vs) (s :: ss)) (hlt : varKey w v < strKey w s) (sz : Sizes) (i : ℕ)
    (b : Buffer cap) : finalPass w sz i (v :: vs) (s :: ss) b =
      (insertVar w sz i v b).bind fun b => finalPass w sz (i + 1) vs (s :: ss) b := by
  obtain ⟨r, hr, hneg, -⟩ := h.cmp
  rw [finalPass, hr, Option.bind_eq_bind, Option.bind_some, if_pos (hneg.2 hlt)]
  rfl

theorem Merging.finalPass_of_eq (h : Merging w (v :: vs) (s :: ss)) (heq : varKey w v = strKey w s) (sz : Sizes) (i : ℕ)
    (b : Buffer cap) : finalPass w sz i (v :: vs) (s :: ss) b = (copyVar s b).bind fun b => finalPass w sz (i + 1) vs ss b := by
  obtain ⟨r, hr, hneg, hzero⟩ := h.cmp
  simp [finalPass, hr, if_neg (mt hneg.1 heq.not_lt), if_pos (hzero.2 heq)]

theorem Merging.finalPass_of_gt (h : Merging w (v :: vs) (s :: ss)) (hgt : strKey w s < varKey w v) (sz : Sizes) (i : ℕ)
    (b : Buffer cap) : finalPass w sz i (v :: vs) (s :: ss) b = (copyVar s b).bind fun b => finalPass w sz i (v :: vs) ss b := by
  obtain ⟨r, hr, hneg, hzero⟩ := h.cmp
  simp [finalPass, hr, if_neg (mt hneg.1 hgt.not_gt), if_neg (mt hzero.1 hgt.ne')]

theorem Sizes.missing_envLen (sz : Sizes) (i : ℕ) :
    (sz.missing w i v).envLen + needed w vs = sz.envLen + needed w (v :: vs) := by
  simp only [Sizes.missing, needed, map_cons, sum_cons]
  split <;> omega

/-- The sizes of the missing variables are at hand, each at its number. -/
def Sizes.Has (sz : Sizes) (w : Win32) (i : ℕ) (vs : List EnvVar) (ss : List WString) : Prop :=
  ∀ k v, vs[k]? = some v → (∀ s ∈ ss, strKey w s ≠ varKey w v) → sz.valueLen (i + k) = some (varSize w v)

variable {sz : Sizes} {i : ℕ}

theorem Sizes.Has.cons (h : sz.Has w (i + 1) vs ss)
    (hi : (∀ s ∈ ss, strKey w s ≠ varKey w v) → sz.valueLen i = some (varSize w v)) : sz.Has w i (v :: vs) ss := by
  intro k v' hk hm
  cases k with
  | zero =>
    cases hk
    exact hi hm
  | succ k =>
    have := h k v' (by simpa using hk) hm
    rwa [Nat.succ_add_eq_add_succ] at this

theorem Sizes.Has.tail (h : sz.Has w i (v :: vs) ss) : sz.Has w (i + 1) vs ss := by
  intro k v' hk hm
  rw [Nat.succ_add_eq_add_succ]
  exact h (k + 1) v' (by simpa using hk) hm

theorem Sizes.Has.drop (h : sz.Has w i vs ss) : sz.Has w i vs (s :: ss) :=
  fun k v' hk hm => h k v' hk fun x hx => hm x (.tail _ hx)

theorem Sizes.Has.of_lt (h : sz.Has w i vs (s :: ss)) (hs : ∀ v ∈ vs, strKey w s < varKey w v) :
    sz.Has w i vs ss := by
  intro k v' hk hm
  refine h k v' hk fun x hx => ?_
  rcases mem_cons.1 hx with rfl | hx
  · exact (hs v' (mem_of_getElem? hk)).ne
  · exact hm x hx

theorem Sizes.Has.missing {sz' : Sizes} (h : sz'.Has w (i + 1) vs ss)
    (hold : ∀ j < i + 1, sz'.valueLen j = (sz.missing w i v).valueLen j) :
    (∀ j < i, sz'.valueLen j = sz.valueLen j) ∧ sz'.Has w i (v :: vs) ss := by
  refine ⟨fun j hj => ?_, h.cons fun _ => ?_⟩
  · rw [hold j (by omega)]
    exact Function.update_of_ne hj.ne _ _
  · rw [hold i (by omega)]
    exact Function.update_self _ _ _

theorem sizePass_spec (h : Merging w vs ss) (i : ℕ) (sz : Sizes) : ∃ sz', sizePass w i vs ss sz = some sz' ∧
    sz'.envLen = sz.envLen + needed w (missing w vs ss) ∧ (∀ j < i, sz'.valueLen j = sz.valueLen j) ∧
    sz'.Has w i vs ss := by
  induction vs, ss using Merge.fill.induct (varKey w) (strKey w) generalizing i sz with
  | case1 ss =>
    rw [sizePass]
    exact ⟨sz, rfl, by simp [missing, Merge.missing, needed], fun _ _ => rfl, fun k v hk => by simp at hk⟩
  | case2 v vs ih =>
    obtain ⟨sz', h1, h2, h3, h4⟩ := ih h.left (i + 1) (sz.missing w i v)
    obtain ⟨h3, h4⟩ := h4.missing h3
    rw [sizePass]
    refine ⟨sz', h1, ?_, h3, h4⟩
    rw [h2, Sizes.missing_envLen, missing, missing, Merge.missing_nil, Merge.missing_nil]
  | case3 v vs s ss hlt ih =>
    obtain ⟨sz', h1, h2, h3, h4⟩ := ih h.left (i + 1) (sz.missing w i v)
    obtain ⟨h3, h4⟩ := h4.missing h3
    rw [h.sizePass_of_lt hlt]
    refine ⟨sz', h1, ?_, h3, h4⟩
    rw [h2, Sizes.missing_envLen, missing, missing, Merge.missing_of_lt h.strings hlt]
  | case4 v vs s ss hlt heq ih =>
    obtain ⟨sz', h1, h2, h3, h4⟩ := ih h.left.right (i + 1) sz
    rw [h.sizePass_of_eq heq]
    refine ⟨sz', h1, ?_, fun j hj => h3 j (by omega), h4.drop.cons fun hm => ?_⟩
    · rw [h2, missing, missing, Merge.missing_of_eq h.vars heq]
    · exact absurd heq.symm (hm s (by simp))
  | case5 v vs s ss hlt hne ih =>
    have hgt : strKey w s < varKey w v := lt_of_le_of_ne (not_lt.1 hlt) fun e => hne e.symm
    obtain ⟨sz', h1, h2, h3, h4⟩ := ih h.right i sz
    rw [h.sizePass_of_gt hgt]
    refine ⟨sz', h1, ?_, h3, h4.drop⟩
    rw [h2, missing, missing, Merge.missing_of_gt h.vars hgt]

/-! ## Writing -/

/-- What the final pass writes for a variable without a string, or for a string. -/
def entryText (w : Win32) : EnvVar ⊕ WString → List WCHAR
  | .inl v =>
    match w.getenv v.wide with
    | none => []
    | some t => v.wideEq ++ t.chars ++ [0]
  | .inr s => s.chars ++ [0]

/-- The characters of these strings, with their zeros. -/
def total (ss : List WString) : ℕ := (ss.map fun s => s.chars.length + 1).sum

theorem copyVar_spec {b : Buffer cap} (hroom : b.text.length + (s.chars.length + 1) ≤ cap) :
    ∃ b', copyVar s b = some b' ∧ b'.text = b.text ++ entryText w (.inr s) := by
  obtain ⟨p1, h1, e1⟩ := puts_spec (b := b) (s := s.chars) (by omega)
  obtain ⟨p2, h2, e2⟩ := put_spec (b := p1) 0 (by rw [e1, length_append]; omega)
  refine ⟨p2, by simp [copyVar, h1, h2], ?_⟩
  rw [e2, e1, append_assoc]
  rfl

section Unset
variable (h : w.getenv v.wide = none)
include h

theorem varSize_none : varSize w v = 0 := by rw [varSize, h]
theorem entryText_none : entryText w (.inl v) = [] := by rw [entryText, h]

end Unset

section Set
variable {t : WString} (h : w.getenv v.wide = some t)
include h

theorem varSize_some : varSize w v = t.chars.length + 1 := by rw [varSize, h]
theorem entryText_some : entryText w (.inl v) = v.wideEq ++ t.chars ++ [0] := by rw [entryText, h]

end Set

theorem length_inl (hv : v.Wf) :
    (entryText w (.inl v)).length = if varSize w v ≠ 0 then v.len + varSize w v else 0 := by
  cases h : w.getenv v.wide with
  | none => simp [entryText_none h, varSize_none h]
  | some t =>
    simp only [entryText_some h, varSize_some h, hv.wideEq, hv.len, length_append, length_singleton]
    rw [if_pos (by omega)]
    omega

theorem insertVar_spec {sz : Sizes} {i : ℕ} {b : Buffer (1 + sz.envLen)} (hsz : sz.valueLen i = some (varSize w v))
    (h32 : sz.envLen < 2 ^ 32) (hroom : b.text.length + (entryText w (.inl v)).length ≤ sz.envLen) :
    ∃ b', insertVar w sz i v b = some b' ∧ b'.text = b.text ++ entryText w (.inl v) := by
  unfold insertVar
  rw [hsz]
  cases hget : w.getenv v.wide with
  | none => exact ⟨b, by simp [varSize_none hget], by simp [entryText_none hget]⟩
  | some t =>
    simp only [entryText_some hget, length_append, length_singleton] at hroom
    obtain ⟨p1, h1, e1⟩ := puts_spec (b := b) (s := v.wideEq) (by omega)
    have l1 : p1.text.length = b.text.length + v.wideEq.length := by simp [e1]
    obtain ⟨p2, h2, e2⟩ := puts_spec (b := p1) (s := t.chars) (by omega)
    have l2 : p2.text.length = p1.text.length + t.chars.length := by simp [e2]
    obtain ⟨p3, h3, e3⟩ := put_spec (b := p2) 0 (by omega)
    have hmod : (sz.envLen - p1.text.length) % 2 ^ 32 = sz.envLen - p1.text.length := Nat.mod_eq_of_lt (by omega)
    have hfit : t.chars.length + 1 ≤ sz.envLen - p1.text.length := by omega
    have hquery : getEnvironmentVariableW w v.wide p1 ((sz.envLen - p1.text.length) % 2 ^ 32) =
        some (t.chars.length, p3) := by
      simp only [getEnvironmentVariableW, hget, hmod, if_pos hfit, h2, h3, Option.bind_eq_bind, Option.bind_some]
      rfl
    refine ⟨p3, ?_, by simp [e3, e2, e1, entryText_some hget]⟩
    simp only [varSize_some hget, Option.bind_eq_bind, Option.bind_some, h1, terminate_spec (b := p1) (by omega), hquery]
    simp

/-- What the final pass writes for the whole table and all strings. -/
def blockText (w : Win32) (vs : List EnvVar) (ss : List WString) : List WCHAR :=
  (Merge.fill (varKey w) (strKey w) vs ss).flatMap (entryText w)

theorem finalPass_spec (h : Merging w vs ss) {sz : Sizes} {i : ℕ} {b : Buffer (1 + sz.envLen)} (hsz : sz.Has w i vs ss)
    (h32 : sz.envLen < 2 ^ 32) (hroom : b.text.length + (blockText w vs ss).length ≤ sz.envLen) :
    ∃ b', finalPass w sz i vs ss b = some b' ∧ b'.text = b.text ++ blockText w vs ss := by
  unfold blockText at hroom ⊢
  induction vs, ss using Merge.fill.induct (varKey w) (strKey w) generalizing i b with
  | case1 ss =>
    induction ss generalizing b with
    | nil => exact ⟨b, by rw [finalPass], by simp [Merge.fill]⟩
    | cons s ss ih =>
      simp only [Merge.fill, map_cons, flatMap_cons, length_append] at hroom ih ⊢
      obtain ⟨p1, h1, e1⟩ := copyVar_spec (w := w) (s := s) (b := b) (by simp [entryText] at hroom; omega)
      obtain ⟨p2, h2, e2⟩ := ih h.right (fun k v hk => by simp at hk) (b := p1)
        (by rw [e1, length_append]; omega)
      exact ⟨p2, by rw [finalPass, h1, Option.bind_eq_bind, Option.bind_some, h2], by rw [e2, e1, append_assoc]⟩
  | case2 v vs ih =>
    simp only [Merge.fill, flatMap_cons, length_append] at hroom ⊢
    obtain ⟨p1, h1, e1⟩ := insertVar_spec (hsz 0 v rfl (by simp)) h32 (b := b) (by omega)
    obtain ⟨p2, h2, e2⟩ := ih h.left hsz.tail (b := p1) (by rw [e1, length_append]; omega)
    rw [Nat.add_zero] at h1
    exact ⟨p2, by rw [finalPass, h1, Option.bind_eq_bind, Option.bind_some, h2], by rw [e2, e1, append_assoc]⟩
  | case3 v vs s ss hlt ih =>
    have hm : ∀ x ∈ s :: ss, strKey w x ≠ varKey w v := by
      intro x hx
      rcases mem_cons.1 hx with rfl | hx
      · exact hlt.ne'
      · exact (hlt.trans_le ((pairwise_cons.1 h.strings).1 x hx)).ne'
    simp only [Merge.fill, if_pos hlt, flatMap_cons, length_append] at hroom ⊢
    obtain ⟨p1, h1, e1⟩ := insertVar_spec (hsz 0 v rfl hm) h32 (b := b) (by omega)
    obtain ⟨p2, h2, e2⟩ := ih h.left hsz.tail (b := p1) (by rw [e1, length_append]; omega)
    refine ⟨p2, ?_, by rw [e2, e1, append_assoc]⟩
    rw [Nat.add_zero] at h1
    rw [h.finalPass_of_lt hlt, h1, Option.bind_some, h2]
  | case4 v vs s ss hlt heq ih =>
    simp only [Merge.fill, if_neg hlt, if_pos heq, flatMap_cons, length_append] at hroom ⊢
    obtain ⟨p1, h1, e1⟩ := copyVar_spec (w := w) (s := s) (b := b) (by simp [entryText] at hroom; omega)
    have hsz' : sz.Has w (i + 1) vs ss := hsz.tail.of_lt fun v' hv' => heq ▸ (pairwise_cons.1 h.vars).1 v' hv'
    obtain ⟨p2, h2, e2⟩ := ih h.left.right hsz' (b := p1) (by rw [e1, length_append]; omega)
    exact ⟨p2, by rw [h.finalPass_of_eq heq, h1, Option.bind_some, h2], by rw [e2, e1, append_assoc]⟩
  | case5 v vs s ss hlt hne ih =>
    have hgt : strKey w s < varKey w v := lt_of_le_of_ne (not_lt.1 hlt) fun e => hne e.symm
    simp only [Merge.fill, if_neg hlt, if_neg hne, flatMap_cons, length_append] at hroom ⊢
    obtain ⟨p1, h1, e1⟩ := copyVar_spec (w := w) (s := s) (b := b) (by simp [entryText] at hroom; omega)
    have hsz' : sz.Has w i (v :: vs) ss := hsz.of_lt fun v' hv' => by
      rcases mem_cons.1 hv' with rfl | hv'
      · exact hgt
      · exact hgt.trans ((pairwise_cons.1 h.vars).1 v' hv')
    obtain ⟨p2, h2, e2⟩ := ih h.right hsz' (b := p1) (by rw [e1, length_append]; omega)
    exact ⟨p2, by rw [h.finalPass_of_gt hgt, h1, Option.bind_some, h2], by rw [e2, e1, append_assoc]⟩

end Merging

/-! ## Converting and sorting -/

/-- The strings with a `'='` are converted to these. -/
def Converted (w : Win32) (envBlock : List CString) (ss : List WString) : Prop :=
  List.Forall₂ (fun e s => w.wide e = some s) (envBlock.filter fun e => decide (OsEnviron.equals ∈ e.chars)) ss

section Convert
variable {env : CString} {envs : List CString} {s : WString} {ss : List WString} {envLen ptr count : ℕ}
  {copies : List (Option WString)}

theorem converted_skip (h : OsEnviron.equals ∉ env.chars) : Converted w (env :: envs) ss ↔ Converted w envs ss := by
  simp [Converted, h]

theorem converted_cons (h : OsEnviron.equals ∈ env.chars) :
    Converted w (env :: envs) ss ↔ ∃ s ss', w.wide env = some s ∧ Converted w envs ss' ∧ ss = s :: ss' := by
  simp [Converted, h, forall₂_cons_left_iff]

theorem Converted.equals (h : Converted w envs ss) : ∀ s ∈ ss, equals ∈ s.chars := by
  induction envs generalizing ss with
  | nil =>
    cases h
    simp
  | cons env envs ih =>
    by_cases he : OsEnviron.equals ∈ env.chars
    · obtain ⟨s, ss', hs, h', rfl⟩ := (converted_cons he).1 h
      intro x hx
      rcases mem_cons.1 hx with rfl | hx
      · exact w.wide_equals _ _ hs he
      · exact ih h' x hx
    · exact ih ((converted_skip he).1 h)

@[simp] theorem total_cons : total (s :: ss) = s.chars.length + 1 + total ss := rfl

theorem total_eq_zero : total ss = 0 ↔ ss = [] := by
  cases ss with
  | nil => simp [total]
  | cons s ss => simp

theorem firstPass_spec (envs : List CString) (envLen count : ℕ) : (∃ ss, Converted w envs ss ∧
      firstPass w envs envLen count = .ok (envLen + total ss, count + ss.length)) ∨
    (¬∃ ss, Converted w envs ss) ∧ firstPass w envs envLen count = .error .lastError := by
  induction envs generalizing envLen count with
  | nil => exact .inl ⟨[], .nil, rfl⟩
  | cons env envs ih =>
    unfold firstPass
    by_cases he : OsEnviron.equals ∈ env.chars
    · rw [if_pos he]
      cases hw : w.wide env with
      | none =>
        refine .inr ⟨?_, by simp [multiByteToWideChar, hw]⟩
        rintro ⟨ss, h⟩
        obtain ⟨s, -, hs, -⟩ := (converted_cons he).1 h
        rw [hw] at hs
        cases hs
      | some s =>
        have hmb : multiByteToWideChar w env 0 = some (s.chars.length + 1, none) := by simp [multiByteToWideChar, hw]
        simp only [hmb]
        rcases ih (envLen + (s.chars.length + 1)) (count + 1) with ⟨ss, h, hp⟩ | ⟨h, hp⟩
        · refine .inl ⟨s :: ss, (converted_cons he).2 ⟨s, ss, hw, h, rfl⟩, ?_⟩
          rw [hp, total_cons, length_cons]
          congr 2
          · omega
          · omega
        · refine .inr ⟨?_, hp⟩
          rintro ⟨ss, h'⟩
          obtain ⟨-, ss', -, h', -⟩ := (converted_cons he).1 h'
          exact h ⟨ss', h'⟩
    · simp only [if_neg he, converted_skip he]
      exact ih envLen count

theorem secondPass_short (copies : List (Option WString)) (h : Converted w envs ss) (hlen : ptr + total ss = envLen)
    (hshort : total ss < 2 ^ 31) :
    secondPass w envLen envs ptr copies = .ok (envLen, copies ++ ss.map some) := by
  induction envs generalizing ptr copies ss with
  | nil =>
    cases h
    simp [secondPass, ← hlen, total]
  | cons env envs ih =>
    unfold secondPass
    by_cases he : OsEnviron.equals ∈ env.chars
    · rw [if_pos he]
      obtain ⟨s, ss', hs, h', rfl⟩ := (converted_cons he).1 h
      rw [total_cons] at hlen hshort
      have hcast : Int.bmod (envLen - ptr) (2 ^ 32) = s.chars.length + 1 + total ss' := by
        rw [Int.bmod]
        omega
      have hmb : multiByteToWideChar w env (Int.bmod (envLen - ptr) (2 ^ 32)) = some (s.chars.length + 1, some s) := by
        rw [multiByteToWideChar, hs]
        simp only
        rw [if_neg (by omega), if_neg (by omega)]
      simp only [hmb]
      rw [ih _ h' (by omega) (by omega), append_assoc]
      rfl
    · rw [if_neg he]
      exact ih _ ((converted_skip he).1 h) hlen hshort

/-- With 2^31 characters before it, the second pass meets a size that is negative as an `int`. -/
theorem secondPass_long (h : Converted w envs ss) (hlen : ptr + total ss = envLen) (hlong : 2 ^ 31 ≤ total ss) :
    secondPass w envLen envs ptr copies = .error .lastError := by
  induction envs generalizing ptr copies ss with
  | nil =>
    cases h
    simp [total] at hlong
  | cons env envs ih =>
    unfold secondPass
    by_cases he : OsEnviron.equals ∈ env.chars
    · rw [if_pos he]
      obtain ⟨s, ss', hs, h', rfl⟩ := (converted_cons he).1 h
      rw [total_cons] at hlen hlong
      have hone := w.wide_length _ _ hs
      by_cases h32 : s.chars.length + 1 + total ss' < 2 ^ 32
      · have hcast : Int.bmod (envLen - ptr) (2 ^ 32) < 0 := by
          rw [Int.bmod]
          omega
        have hmb : multiByteToWideChar w env (Int.bmod (envLen - ptr) (2 ^ 32)) = none := by
          rw [multiByteToWideChar, hs]
          simp only
          rw [if_neg (by omega), if_pos (by omega)]
        simp only [hmb]
      · -- whatever this call does, as many are left
        cases hmb : multiByteToWideChar w env (Int.bmod (envLen - ptr) (2 ^ 32)) with
        | none => rfl
        | some r =>
          have hr : r.1 = s.chars.length + 1 := by
            rw [multiByteToWideChar, hs] at hmb
            simp only at hmb
            split at hmb
            · cases hmb
              rfl
            · split at hmb
              · cases hmb
              · cases hmb
                rfl
          simp only
          exact ih h' (by omega) (by omega)
    · rw [if_neg he]
      exact ih ((converted_skip he).1 h) hlen hlong

theorem le_qsortWcscmp {a b : WString} (ha : equals ∈ a.chars) (hb : equals ∈ b.chars) :
    (qsortWcscmp w a b).isSome = true ∧ (le (qsortWcscmp w) a b ↔ strKey w a ≤ strKey w b) := by
  obtain ⟨r, hr, h1, h2⟩ := envStrncmp_spec (w := w) (n := -1) (.inl (by decide)) ha hb a.noNul b.noNul
  have hr' : qsortWcscmp w a b = some r := hr
  refine ⟨by rw [hr']; rfl, ?_⟩
  simp only [le, hr', Option.some.injEq]
  rw [strKey, strKey, le_iff_lt_or_eq, ← h1, ← h2]
  constructor
  · rintro ⟨r', hle, rfl⟩
    omega
  · exact fun h => ⟨r, by omega, rfl⟩

theorem qsort_spec (hs : ∀ s ∈ ss, equals ∈ s.chars) : ∃ l, w.qsort (qsortWcscmp w) ss = some l ∧ l.Perm ss ∧
    l.Pairwise fun a b => strKey w a ≤ strKey w b := by
  obtain ⟨l, h1, h2, h3⟩ := w.qsort_sorts (qsortWcscmp w) ss (fun a ha b hb => (le_qsortWcscmp (hs a ha) (hs b hb)).1)
    (fun a ha b hb => by
      rw [(le_qsortWcscmp (hs a ha) (hs b hb)).2, (le_qsortWcscmp (hs b hb) (hs a ha)).2]
      exact le_total _ _)
    fun a ha b hb c hc => by
      rw [(le_qsortWcscmp (hs a ha) (hs b hb)).2, (le_qsortWcscmp (hs b hb) (hs c hc)).2, (le_qsortWcscmp (hs a ha) (hs c hc)).2]
      exact le_trans
  refine ⟨l, h1, h2, h3.imp_of_mem fun {a b} ha hb hab => ?_⟩
  exact (le_qsortWcscmp (hs a (h2.mem_iff.1 ha)) (hs b (h2.mem_iff.1 hb))).2.1 hab

end Convert

/-! ## The block -/

section Block
variable {v : EnvVar} {vs : List EnvVar} {s : WString} {ss ss' : List WString} {env : List CString} {copyOk dstOk : Bool}

/-- The string of the block that a variable or a string becomes. -/
def entryOf (w : Win32) : EnvVar ⊕ WString → Option (List WCHAR)
  | .inl v => (w.getenv v.wide).map fun t => v.wideEq ++ t.chars
  | .inr s => some s.chars

def entries (w : Win32) (vs : List EnvVar) (ss : List WString) : List (List WCHAR) :=
  (Merge.fill (varKey w) (strKey w) vs ss).filterMap (entryOf w)

/-- `NAME=value` for each required variable that no string names and that has a value. -/
def additions (w : Win32) (ss : List WString) : List (List WCHAR) :=
  (missing w requiredVars ss).filterMap fun v => (w.getenv v.wide).map fun t => v.wideEq ++ t.chars

theorem entryText_eq (x : EnvVar ⊕ WString) : entryText w x = ((entryOf w x).map (· ++ [0])).getD [] := by
  cases x with
  | inl v => cases h : w.getenv v.wide <;> simp [entryText, entryOf, h]
  | inr s => rfl

theorem blockText_eq : blockText w vs ss = (entries w vs ss).flatMap (· ++ [0]) := by
  unfold blockText entries
  generalize Merge.fill (varKey w) (strKey w) vs ss = l
  induction l with
  | nil => rfl
  | cons x l ih =>
    rw [flatMap_cons, ih, entryText_eq, filterMap_cons]
    cases entryOf w x <;> simp

theorem merging_required (hs : ∀ s ∈ ss, equals ∈ s.chars) (hsort : ss.Pairwise fun s s' => strKey w s ≤ strKey w s') :
    Merging w requiredVars ss where
  wf := requiredVars_wf
  vars := by
    refine requiredVars_sorted.imp_of_mem fun {a b} ha hb hab => ?_
    rwa [varKey, varKey, (requiredVars_wf a ha).nameKey, (requiredVars_wf b hb).nameKey]
  equals := hs
  strings := hsort

theorem missing_perm (hp : ss.Perm ss') : missing w vs ss = missing w vs ss' := by
  refine filter_congr fun v _ => ?_
  rw [Bool.eq_iff_iff, all_eq_true, all_eq_true]
  exact ⟨fun h x hx => h x (hp.mem_iff.2 hx), fun h x hx => h x (hp.mem_iff.1 hx)⟩

theorem entries_perm (h : Merging w vs ss) : (entries w vs ss).Perm
    ((missing w vs ss).filterMap (fun v => (w.getenv v.wide).map fun t => v.wideEq ++ t.chars) ++ ss.map WString.chars) := by
  have := (Merge.fill_perm h.vars h.strings).filterMap (entryOf w)
  rw [filterMap_append, filterMap_map, filterMap_map] at this
  have hr : ss.filterMap (entryOf w ∘ Sum.inr) = ss.map WString.chars := by
    rw [← filterMap_eq_map]
    rfl
  rw [hr] at this
  exact this

theorem EnvVar.Wf.nameKey_value (hv : v.Wf) (t : List WCHAR) : ProgramEnv.nameKey w (v.wideEq ++ t) = varKey w v := by
  rw [varKey, ProgramEnv.nameKey, ProgramEnv.nameKey, hv.nameOf_value, hv.nameOf]

theorem entries_sorted (h : Merging w vs ss) : (entries w vs ss).Pairwise fun a b => nameKey w a ≤ nameKey w b := by
  have hkey : ∀ x ∈ Merge.fill (varKey w) (strKey w) vs ss, ∀ e ∈ entryOf w x,
      nameKey w e = Merge.key (varKey w) (strKey w) x := by
    intro x hx e he
    rcases Merge.mem_fill h.vars h.strings hx with ⟨v, hv, rfl⟩ | ⟨s, -, rfl⟩
    · obtain ⟨t, -, rfl⟩ := Option.map_eq_some_iff.1 he
      exact (h.wf v hv).nameKey_value _
    · cases he
      rfl
  rw [entries, pairwise_filterMap]
  refine (Merge.fill_sorted h.vars h.strings).imp_of_mem fun {x y} hx hy hxy a ha b hb => ?_
  rw [hkey x hx a ha, hkey y hy b hb]
  exact hxy

theorem entries_wf (h : Merging w vs ss) {e : List WCHAR} (he : e ∈ entries w vs ss) : e ≠ [] ∧ 0 ∉ e := by
  rcases mem_append.1 ((entries_perm h).mem_iff.1 he) with he | he
  · obtain ⟨v, hv, he⟩ := mem_filterMap.1 he
    obtain ⟨t, -, rfl⟩ := Option.map_eq_some_iff.1 he
    have hwf := h.wf v (Merge.mem_missing.1 hv).1
    refine ⟨by simp [hwf.wideEq], ?_⟩
    rw [mem_append, not_or]
    exact ⟨hwf.noNul, t.noNul⟩
  · obtain ⟨s, hs, rfl⟩ := mem_map.1 he
    exact ⟨ne_nil_of_mem (h.equals s hs), s.noNul⟩

theorem blockText_length (h : Merging w vs ss) : (blockText w vs ss).length = needed w (missing w vs ss) + total ss := by
  have hp := (Merge.fill_perm h.vars h.strings).flatMap_right (entryText w)
  have hl : ∀ l : List EnvVar, (∀ v ∈ l, v.Wf) → ((l.map Sum.inl).flatMap (entryText w)).length = needed w l := by
    intro l hl
    induction l with
    | nil => rfl
    | cons v l ih =>
      rw [map_cons, flatMap_cons, length_append, length_inl (hl v (by simp)), ih fun x hx => hl x (.tail _ hx)]
      rfl
  have hr : ∀ l : List WString, ((l.map Sum.inr).flatMap (entryText w)).length = total l := by
    intro l
    induction l with
    | nil => rfl
    | cons s l ih =>
      rw [map_cons, flatMap_cons, length_append, ih]
      simp [entryText]
  rw [blockText, hp.length_eq, flatMap_append, length_append, hr, hl]
  exact fun v hv => h.wf v (Merge.mem_missing.1 hv).1

theorem needed_lt (w : Win32) (ss : List WString) : needed w (missing w requiredVars ss) < 2 ^ 31 := by
  have hone : ∀ v ∈ requiredVars, v.len ≤ 12 := by decide
  have hle : ∀ l : List EnvVar, (∀ v ∈ l, v ∈ requiredVars) → needed w l ≤ l.length * 32779 := by
    intro l hl
    induction l with
    | nil => simp [needed]
    | cons v l ih =>
      have h1 := ih fun x hx => hl x (.tail _ hx)
      have h2 := hone v (hl v (by simp))
      have h3 : varSize w v ≤ 32767 := by
        cases h : w.getenv v.wide with
        | none => simp [varSize_none h]
        | some t =>
          rw [varSize_some h]
          exact w.getenv_length _ _ h
      simp only [needed, map_cons, sum_cons, length_cons] at h1 ⊢
      split <;> omega
  have h1 := hle (missing w requiredVars ss) fun v hv => (Merge.mem_missing.1 hv).1
  have h2 : (missing w requiredVars ss).length ≤ 11 := length_filter_le _ _
  omega

theorem mapM_id_some {α : Type} (l : List α) : (l.map some).mapM id = some l := by
  induction l with
  | nil => rfl
  | cons a l ih => simp [ih]

theorem makeProgramEnv_ok (w : Win32) (env : List CString) (copyOk dstOk : Bool) (h : Converted w env ss)
    (hlt : total ss < 2 ^ 31) (hcopy : copyOk = true ∨ ss = []) (hdst : dstOk = true) : ∃ l, l.Perm ss ∧ Merging w requiredVars l ∧
      makeProgramEnv w env copyOk dstOk = some (.ok ((entries w requiredVars l).flatMap (· ++ [0]) ++ [0])) := by
  obtain ⟨l, hl, hperm, hsort⟩ := qsort_spec h.equals
  have hm : Merging w requiredVars l := merging_required (fun s hs => h.equals s (hperm.mem_iff.1 hs)) hsort
  refine ⟨l, hperm, hm, ?_⟩
  have hfirst : firstPass w env 0 1 = .ok (total ss, ss.length + 1) := by
    rcases firstPass_spec (w := w) env 0 1 with ⟨ss', h', hp⟩ | ⟨hno, -⟩
    · obtain rfl : ss' = ss :=
        right_unique_forall₂' (fun a b c hb hc => Option.some.inj (hb.symm.trans hc)) h' h
      rw [hp, Nat.zero_add, Nat.add_comm]
    · exact absurd ⟨ss, h⟩ hno
  have hsecond := secondPass_short [] h (Nat.zero_add _) hlt
  obtain ⟨sz, hsz, hlen, -, hhas⟩ := sizePass_spec hm 0 ⟨total ss, fun _ => none⟩
  simp only at hlen
  have htotal : total l = total ss := (hperm.map _).sum_eq
  have hblock := blockText_length hm
  have hneed := needed_lt w l
  obtain ⟨ptr, hptr, htext⟩ := finalPass_spec hm hhas (b := { text := [], fits := Nat.zero_le _ }) (by omega)
    (by simp only [length_nil]; omega)
  rw [nil_append] at htext
  obtain ⟨dst, hd, hdtext⟩ := put_spec (b := ptr) 0 (by rw [htext]; omega)
  have hassert : sz.envLen = ptr.text.length := by
    rw [htext]
    omega
  have hmalloc : ¬(copyOk = false ∧ total ss > 0) := by
    rintro ⟨hc, hpos⟩
    rcases hcopy with hcopy | rfl
    · rw [hcopy] at hc
      cases hc
    · exact absurd hpos (by decide)
  unfold makeProgramEnv
  simp only [hfirst, if_neg hmalloc, hsecond, nil_append, mapM_id_some, Nat.add_sub_cancel, take_length, hl, hsz,
    hdst, hptr, hassert, hd, hdtext, Option.bind_eq_bind, Option.bind_some, or_true, guard_true]
  rw [htext, blockText_eq]
  rfl

theorem makeProgramEnv_error (w : Win32) (env : List CString) (copyOk dstOk : Bool)
    (h : ∀ ss, Converted w env ss → 2 ^ 31 ≤ total ss ∨ copyOk = false ∧ ss ≠ [] ∨ dstOk = false) :
    ∃ err, makeProgramEnv w env copyOk dstOk = some (.error err) := by
  unfold makeProgramEnv
  rcases firstPass_spec (w := w) env 0 1 with ⟨ss, hss, hp⟩ | ⟨-, hp⟩
  · rw [hp]
    simp only [Nat.zero_add]
    split
    · exact ⟨_, rfl⟩
    · next hmalloc =>
      by_cases hlong : 2 ^ 31 ≤ total ss
      · rw [secondPass_long hss (Nat.zero_add _) hlong]
        exact ⟨_, rfl⟩
      · have hdst : dstOk = false := by
          rcases h ss hss with h | ⟨h1, h2⟩ | h
          · exact absurd h hlong
          · refine absurd ⟨h1, ?_⟩ hmalloc
            exact Nat.pos_of_ne_zero fun e => h2 (total_eq_zero.1 e)
          · exact h
        obtain ⟨l, hl, hperm, hsort⟩ := qsort_spec hss.equals
        have hm : Merging w requiredVars l :=
          merging_required (fun s hs => hss.equals s (hperm.mem_iff.1 hs)) hsort
        obtain ⟨sz, hsz, -⟩ := sizePass_spec hm 0 ⟨total ss, fun _ => none⟩
        refine ⟨.outOfMemory, ?_⟩
        simp only [secondPass_short [] hss (Nat.zero_add _) (not_le.1 hlong), nil_append, mapM_id_some,
          Nat.add_sub_cancel_left, take_length, hl, hsz, hdst, Option.bind_eq_bind, Option.bind_some, or_true, guard_true]
        rfl
  · rw [hp]
    exact ⟨_, rfl⟩

/-- **The environment block.** If the strings with a `'='` can be converted, to less than 2^31 characters, and there is memory,
the block consists of these strings and `NAME=value` for each required variable none of them names and that has a value in the
parent, sorted by name, each with its zero, and a zero behind them. No assertion fails, and no write is outside of a buffer.
Otherwise an error is returned. -/
theorem makeProgramEnv_block (w : Win32) (env : List CString) (copyOk dstOk : Bool) :
    (∀ ss, Converted w env ss → total ss < 2 ^ 31 → (copyOk = true ∨ ss = []) → dstOk = true →
      ∃ entries : List (List WCHAR),
        makeProgramEnv w env copyOk dstOk = some (.ok (entries.flatMap (· ++ [0]) ++ [0])) ∧
        entries.Perm (ss.map WString.chars ++ additions w ss) ∧
        entries.Pairwise (fun a b => nameKey w a ≤ nameKey w b) ∧ ∀ e ∈ entries, e ≠ [] ∧ 0 ∉ e) ∧
    ((∀ ss, Converted w env ss → 2 ^ 31 ≤ total ss ∨ copyOk = false ∧ ss ≠ [] ∨ dstOk = false) →
      ∃ err, makeProgramEnv w env copyOk dstOk = some (.error err)) := by
  refine ⟨fun ss h hlt hcopy hdst => ?_, makeProgramEnv_error w env copyOk dstOk⟩
  obtain ⟨l, hp, hm, hrun⟩ := makeProgramEnv_ok w env copyOk dstOk h hlt hcopy hdst
  refine ⟨_, hrun, ?_, entries_sorted hm, fun e => entries_wf hm⟩
  refine (entries_perm hm).trans ?_
  rw [missing_perm hp]
  exact perm_append_comm.trans ((hp.map WString.chars).append_right _)

end Block

/-! ## A parent process -/

def widen (s : CString) : WString where
  chars := s.chars.map UInt8.toUInt16
  noNul := by
    simp only [mem_map, not_exists, not_and]
    intro c hc h
    refine s.noNul ?_
    have : c = 0 := UInt8.toNat_inj.1 (by simpa using congrArg UInt16.toNat h)
    rwa [← this]

def capital (c : WCHAR) : WCHAR := if 0x61 ≤ c ∧ c ≤ 0x7A then c - 0x20 else c

theorem capital_ne_zero {c : WCHAR} (h : c ≠ 0) : capital c ≠ 0 := by
  unfold capital
  split
  · next hc =>
    intro e
    have h1 : c = 0x20 := by
      rw [← UInt16.sub_add_cancel c 0x20, e]
      rfl
    rw [h1] at hc
    exact absurd hc.1 (by decide)
  · exact h

/-- Windows with these variables, for strings of ASCII. -/
def ascii (getenv : List WCHAR → Option WString) (hget : ∀ s t, getenv s = some t → t.chars.length < 32767) : Win32 where
  wide s := if s.chars.length + 1 < 2 ^ 31 then some (widen s) else none
  wide_length s t h := by
    obtain ⟨hlt, h⟩ := Option.ite_none_right_eq_some.1 h
    cases h
    simpa [widen] using hlt
  wide_equals s t h he := by
    obtain ⟨-, h⟩ := Option.ite_none_right_eq_some.1 h
    cases h
    exact mem_map.2 ⟨_, he, rfl⟩
  upper := List.map capital
  upper_length s := length_map _
  upper_noNul s h := by
    simp only [mem_map, not_exists, not_and]
    exact fun c hc => capital_ne_zero fun e => h (e ▸ hc)
  upper_capitals s h := by
    refine (map_congr_left fun c hc => ?_).trans (map_id s)
    refine if_neg fun hc' => ?_
    exact absurd (UInt16.le_trans hc'.1 (h c hc).2) (by decide)
  getenv := getenv
  getenv_length := hget
  qsort cmp l := some ((l.attach.mergeSort fun a b => decide ((cmp a.1 b.1).getD 0 ≤ 0)).map Subtype.val)
  qsort_sorts cmp l hsome htotal htrans := by
    have hle : ∀ a b : {x // x ∈ l}, decide ((cmp a.1 b.1).getD 0 ≤ 0) = true ↔ le cmp a.1 b.1 := by
      intro a b
      obtain ⟨r, hr⟩ := Option.isSome_iff_exists.1 (hsome a.1 a.2 b.1 b.2)
      simp [le, hr]
    refine ⟨_, rfl, ?_, ?_⟩
    · refine ((mergeSort_perm _ _).map _).trans ?_
      rw [attach_map_subtype_val]
    · rw [pairwise_map]
      refine (pairwise_mergeSort (fun a b c hab hbc => ?_) (fun a b => ?_) l.attach).imp fun {a b} h => (hle a b).1 h
      · rw [hle] at hab hbc ⊢
        exact htrans _ a.2 _ b.2 _ c.2 hab hbc
      · rw [Bool.or_eq_true, hle, hle]
        exact htotal _ a.2 _ b.2

def bare : Win32 := ascii (fun _ => none) (by simp)

/-- A parent with `PATH=C`. -/
def withPath : Win32 :=
  ascii (fun s => if s = [0x50, 0x41, 0x54, 0x48] then some ⟨[0x43], by decide⟩ else none) (fun s t h => by
    obtain ⟨-, h⟩ := Option.ite_none_right_eq_some.1 h
    cases h
    decide)

/-- `b=1` and `A=` in a parent with `PATH=C`. -/
theorem makeProgramEnv_three : ∃ entries : List (List WCHAR),
    makeProgramEnv withPath [⟨[0x62, 0x3D, 0x31], by decide⟩, ⟨[0x41, 0x3D], by decide⟩] true true =
      some (.ok (entries.flatMap (· ++ [0]) ++ [0])) ∧
    entries.Perm [[0x62, 0x3D, 0x31], [0x41, 0x3D], [0x50, 0x41, 0x54, 0x48, 0x3D, 0x43]] := by
  obtain ⟨entries, h1, h2, -⟩ := (makeProgramEnv_block withPath
    [⟨[0x62, 0x3D, 0x31], by decide⟩, ⟨[0x41, 0x3D], by decide⟩] true true).1
    [⟨[0x62, 0x3D, 0x31], by decide⟩, ⟨[0x41, 0x3D], by decide⟩] (.cons rfl (.cons rfl .nil)) (by decide) (.inl rfl) rfl
  exact ⟨entries, h1, h2⟩

/-- `=AA...A` -/
def long (n : ℕ) : CString := ⟨0x3D :: List.replicate n 0x41, by simp⟩

theorem total_long {n : ℕ} {ss : List WString} (h : Converted bare [long n, long n] ss) : total ss = 2 * (n + 2) := by
  have he : OsEnviron.equals ∈ (long n).chars := by simp [long, OsEnviron.equals]
  have hlen : ∀ s, bare.wide (long n) = some s → s.chars.length = n + 1 := by
    intro s hs
    obtain ⟨-, h⟩ := Option.ite_none_right_eq_some.1 hs
    cases h
    simp [widen, long]
  obtain ⟨s, ss', hs, h', rfl⟩ := (converted_cons he).1 h
  obtain ⟨s', ss'', hs', h'', rfl⟩ := (converted_cons he).1 h'
  obtain rfl : ss'' = [] := by simpa [Converted] using h''
  simp only [total_cons, hlen s hs, hlen s' hs']
  simp only [total, map_nil, sum_nil]
  omega

/-- Two strings of 2^30 characters make the second pass fail; and without strings, in a parent without variables, the
block is one zero. -/
theorem makeProgramEnv_short :
    (¬ ∀ (w : Win32) (env : List CString), ∃ block, makeProgramEnv w env true true = some (.ok block)) ∧
    ¬ ∀ (w : Win32) (env : List CString) (block : List WCHAR),
      makeProgramEnv w env true true = some (.ok block) → [0, 0] <:+ block := by
  constructor
  · intro h
    obtain ⟨block, h⟩ := h bare [long (2 ^ 30 - 2), long (2 ^ 30 - 2)]
    obtain ⟨err, herr⟩ := makeProgramEnv_error bare [long (2 ^ 30 - 2), long (2 ^ 30 - 2)] true true
      fun ss hss => .inl (by rw [total_long hss]; decide)
    rw [herr] at h
    cases h
  · intro h
    obtain ⟨l, hp, hm, hrun⟩ := makeProgramEnv_ok bare [] true true .nil (by decide)
      (.inl rfl) rfl
    obtain rfl := hp.eq_nil
    have hnone : entries bare requiredVars [] = [] := by
      have := entries_perm hm
      simpa [bare, ascii] using this
    have := h bare [] _ hrun
    rw [hnone] at this
    exact absurd this.length_le (by decide)

end Libuv.L1.ProgramEnv
