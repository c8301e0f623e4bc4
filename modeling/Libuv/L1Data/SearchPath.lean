import Libuv.Core.Pieces
import Libuv.L1Data.ProgramArgs
import Mathlib.Data.List.TakeWhile

/-!
# Searching the path for a program (`win/process.c`)

`search_path` looks for the file of `uv_spawn` in the current directory and in the directories of `PATH`, which it walks
with pointers: `dir_start` and `dir_end` around a slice, `dir_path` and `dir_len` around the directory without its quotes.
Pointers into `PATH` are positions here, and `dir_len` is unsigned: below zero it is `SIZE_MAX`. What exists is a parameter;
memory is there when it is asked for. The slices the walk has been through are written down (`Visit`).

* `searchPath_iff`: the walk is right for every file system and current directory, unless a slice is a single quote.
-/
namespace Libuv.L1.SearchPath

open List Option
open ProgramArgs (WCHAR WString Buffer put_spec puts_spec terminate_spec)
open Pieces (pieces pieces_of_le pieces_of_lt)

def semicolon : WCHAR := 0x3B
def dot : WCHAR := 0x2E
def colon : WCHAR := 0x3A
def slash : WCHAR := 0x2F
def backslash : WCHAR := 0x5C

def isQuote (c : WCHAR) : Bool := c == 0x22 || c == 0x27

def isSlash (c : WCHAR) : Bool := c == backslash || c == slash

/-- `SIZE_MAX` -/
def sizeMax : ℕ := 2 ^ 64 - 1

/-- What is there: `GetFileAttributesW` finds a file that is no directory; `_wcsnicmp` finds the first two characters equal. -/
structure System where
  isFile : List WCHAR → Bool
  sameDrive : List WCHAR → List WCHAR → Bool

variable (sys : System)

/-! ## A candidate -/

def wcsncpy (s : List WCHAR) (n : ℕ) : List WCHAR := s.take n ++ List.replicate (n - s.length) 0

/-- What of the current directory and of `dir` goes into the candidate.
mirrors win/process.c:171-197 -/
def joinParts (dir cwd : List WCHAR) : List WCHAR × List WCHAR :=
  if dir.length > 2 ∧ dir[0]?.any isSlash = true ∧ dir[1]?.any isSlash = true then ([], dir)
  else if dir.length ≥ 1 ∧ dir[0]?.any isSlash = true then (wcsncpy cwd 2, dir)
  else if dir.length ≥ 2 ∧ dir[1]? = some colon ∧ (dir.length < 3 ∨ dir[2]?.any isSlash = false) then
    if cwd.length < 2 ∨ sys.sameDrive cwd dir = false then ([], dir) else (cwd, dir.drop 2)
  else if dir.length > 2 ∧ dir[1]? = some colon then ([], dir)
  else (cwd, dir)

variable {cap : ℕ}

/-- `wcsrchr(L"\\/:", result_pos[-1]) == NULL`, which a zero is not. -/
def separate (result : Buffer cap) (len : ℕ) : Option (Buffer cap) :=
  if len ≠ 0 ∧ result.text.getLast?.any (fun c => isSlash c || c == colon || c == 0) = false then result.put backslash
  else some result

/-- `result_pos[-1] != '.'` and the dot. -/
def addDot (result : Buffer cap) (len : ℕ) : Option (Buffer cap) :=
  if len ≠ 0 ∧ result.text.getLast? ≠ some dot then result.put dot else some result

/-- mirrors win/process.c:162-251 -/
def searchPathJoinTest (dir name ext cwd : List WCHAR) : Option (Option (List WCHAR)) := do
  let (cwd, dir) := joinParts sys dir cwd
  let result : Buffer (cwd.length + 1 + dir.length + 1 + name.length + 1 + ext.length + 1) :=
    { text := [], fits := Nat.zero_le _ }
  let result ← result.puts cwd
  let result ← separate result cwd.length
  let result ← result.puts dir
  let result ← separate result dir.length
  let result ← result.puts name
  let result ← (if ext.length ≠ 0 then (addDot result name.length).bind fun r => r.puts ext else some result)
  let result ← result.terminate
  let path := result.text.takeWhile (· ≠ 0)
  return if sys.isFile path then some path else none

/-- mirrors win/process.c:257-296 -/
def pathSearchWalkExt (dir name cwd : List WCHAR) (nameHasExt : Bool) : Option (Option (List WCHAR)) := do
  let result ← (if nameHasExt then searchPathJoinTest sys dir name [] cwd else some none)
  if result ≠ none then return result
  let result ← searchPathJoinTest sys dir name [0x63, 0x6F, 0x6D] cwd
  if result ≠ none then return result
  searchPathJoinTest sys dir name [0x65, 0x78, 0x65] cwd

/-! ## The walk -/

/-- `wcschr(path + i, c)`, or the end of the string. -/
def wcschrFrom (path : List WCHAR) (i : ℕ) (c : WCHAR) : ℕ := (((path.drop i).findIdx? (· = c)).map (i + ·)).getD path.length

/-- From `dir_end` to the new `dir_start` and `dir_end`.
mirrors win/process.c:401-420 -/
def nextSlice (path : List WCHAR) (dirEnd : ℕ) : ℕ × ℕ :=
  let dirStart := if dirEnd ≠ 0 ∨ path[0]? = some semicolon then dirEnd + 1 else dirEnd
  let dirEnd :=
    match path[dirStart]? with
    | some q => if isQuote q then wcschrFrom path (dirStart + 1) q else dirStart
    | none => dirStart
  (dirStart, wcschrFrom path dirEnd semicolon)

/-- A slice and the directory in it; `readLen` is what `dir_len` is when `dir_path[dir_len - 1]` is read. -/
structure Visit where
  start : ℕ
  stop : ℕ
  dirPath : ℕ
  dirLen : ℕ
  readLen : ℕ
  deriving DecidableEq

/-- mirrors win/process.c:427-438 -/
def adjust (path : List WCHAR) (start stop : ℕ) : Visit :=
  let dirPath := if path[start]?.any isQuote then start + 1 else start
  let dirLen := if path[start]?.any isQuote then stop - start - 1 else stop - start
  -- a `dir_len` of 0 makes this the character in front of `dir_path`
  let last := path[dirPath + dirLen - 1]?
  { start := start
    stop := stop
    dirPath := dirPath
    dirLen := if last.any isQuote then (if dirLen = 0 then sizeMax else dirLen - 1) else dirLen
    readLen := dirLen }

/-- The `dir_len` characters from `dir_path` on, which have to be there. -/
def Visit.dir (path : List WCHAR) (v : Visit) : Option (List WCHAR) :=
  if v.dirPath + v.dirLen ≤ path.length then some ((path.drop v.dirPath).take v.dirLen) else none

inductive Outcome
  | found (result : List WCHAR)
  | notFound
  | outOfBounds
  deriving DecidableEq

/-! ### The slices -/

/-- Where the first slice ends: at a semicolon, behind the closing quote if it begins with a quote. -/
def sliceLen : List WCHAR → ℕ
  | [] => 0
  | q :: rest =>
    let quoted := if isQuote q then (rest.takeWhile (· ≠ q)).length + 1 else 0
    quoted + (((q :: rest).drop quoted).takeWhile (· ≠ semicolon)).length

def slices (path : List WCHAR) : List (List WCHAR) := pieces sliceLen path

variable {sys} {path s : List WCHAR} {i : ℕ} {c : WCHAR}

theorem getD_findIdx? (s : List WCHAR) (c : WCHAR) :
    (s.findIdx? (· = c)).getD s.length = (s.takeWhile (· ≠ c)).length := by
  induction s with
  | nil => rfl
  | cons x s ih =>
    rw [findIdx?_cons]
    by_cases h : x = c
    · simp [h]
    · simp only [h, decide_false, Bool.false_eq_true, if_false, ne_eq, not_false_eq_true, decide_true,
        takeWhile_cons_of_pos, length_cons] at ih ⊢
      rw [← ih]
      exact Option.getD_map (· + 1) s.length _

theorem wcschrFrom_eq (h : i ≤ path.length) : wcschrFrom path i c = i + ((path.drop i).takeWhile (· ≠ c)).length := by
  have hlen : path.length = i + (path.drop i).length := by
    rw [length_drop]
    omega
  have := Option.getD_map (i + ·) (path.drop i).length ((path.drop i).findIdx? (· = c))
  rw [← getD_findIdx?, wcschrFrom, ← this, ← hlen]

theorem takeWhile_le (s : List WCHAR) (c : WCHAR) : (s.takeWhile (· ≠ c)).length ≤ s.length :=
  (List.takeWhile_prefix _).length_le

/-- Where the quoted part ends: at the closing quote, or the end. -/
def quotedLen : List WCHAR → ℕ
  | [] => 0
  | q :: rest => if isQuote q then (rest.takeWhile (· ≠ q)).length + 1 else 0

theorem quotedLen_le : quotedLen s ≤ s.length := by
  cases s with
  | nil => exact le_rfl
  | cons q rest =>
    have := takeWhile_le rest q
    rw [quotedLen, length_cons]
    split
    · omega
    · omega

theorem sliceLen_eq : sliceLen s = quotedLen s + ((s.drop (quotedLen s)).takeWhile (· ≠ semicolon)).length := by
  cases s <;> rfl

theorem sliceLen_le : sliceLen s ≤ s.length := by
  have h1 := quotedLen_le (s := s)
  have h2 := takeWhile_le (s.drop (quotedLen s)) semicolon
  rw [length_drop] at h2
  rw [sliceLen_eq]
  omega

theorem nextSlice_eq (h : (nextSlice path i).1 ≤ path.length) :
    (nextSlice path i).2 = (nextSlice path i).1 + sliceLen (path.drop (nextSlice path i).1) := by
  unfold nextSlice at h ⊢
  dsimp only at h ⊢
  generalize (if i ≠ 0 ∨ path[0]? = some semicolon then i + 1 else i) = st at h ⊢
  have hq : (match path[st]? with
      | some q => if isQuote q then wcschrFrom path (st + 1) q else st
      | none => st) = st + quotedLen (path.drop st) := by
    cases hget : path[st]? with
    | none => simp [drop_eq_nil_of_le (List.getElem?_eq_none_iff.1 hget), quotedLen]
    | some q =>
      obtain ⟨hlt, rfl⟩ := List.getElem?_eq_some_iff.1 hget
      rw [drop_eq_getElem_cons hlt, quotedLen]
      dsimp only
      split
      · rw [wcschrFrom_eq hlt]
        exact Nat.succ_add_eq_add_succ _ _
      · rfl
  have hle := quotedLen_le (s := path.drop st)
  rw [length_drop] at hle
  rw [hq, wcschrFrom_eq (by omega), sliceLen_eq, drop_drop, Nat.add_assoc]

theorem nextSlice_start_le (h : i < path.length) : i ≤ (nextSlice path i).1 ∧ (nextSlice path i).1 ≤ path.length := by
  unfold nextSlice
  dsimp only
  split <;> omega

theorem sliceLen_pos (h : i < path.length) (hi : path[i]? ≠ some semicolon) : 0 < sliceLen (path.drop i) := by
  rw [sliceLen_eq, drop_eq_getElem_cons h, quotedLen]
  split
  · omega
  · have : path[i] ≠ semicolon := fun e => hi (by rw [getElem?_eq_getElem h, e])
    rw [drop_zero, takeWhile_cons_of_pos (by simpa using this)]
    simp

theorem lt_nextSlice (h : i < path.length) : i < (nextSlice path i).2 := by
  obtain ⟨h1, h2⟩ := nextSlice_start_le h
  rw [nextSlice_eq h2]
  by_cases hi : i ≠ 0 ∨ path[0]? = some semicolon
  · have : (nextSlice path i).1 = i + 1 := by rw [nextSlice, if_pos hi]
    omega
  · have hst : (nextSlice path i).1 = i := by rw [nextSlice, if_neg hi]
    rw [not_or, not_not] at hi
    obtain ⟨rfl, hi⟩ := hi
    have := sliceLen_pos h hi
    rw [hst]
    omega

variable (sys)

/-- The loop over `PATH`.
mirrors win/process.c:396-446 -/
def walk (path name cwd : List WCHAR) (nameHasExt : Bool) (dirEnd : ℕ) (visited : List Visit) : List Visit × Outcome :=
  if path.length ≤ dirEnd then (visited, .notFound)
  else
    let slice := nextSlice path dirEnd
    if slice.2 - slice.1 = 0 then walk path name cwd nameHasExt slice.2 visited
    else
      let v := adjust path slice.1 slice.2
      match (v.dir path).bind fun dir => pathSearchWalkExt sys dir name cwd nameHasExt with
      | none => (visited ++ [v], .outOfBounds)
      | some (some result) => (visited ++ [v], .found result)
      | some none => walk path name cwd nameHasExt slice.2 (visited ++ [v])
termination_by path.length - dirEnd
decreasing_by
  all_goals
    have := lt_nextSlice (not_le.1 ‹¬path.length ≤ dirEnd›)
    omega

/-- `file_name_start - file` -/
def fileNameStart (file : List WCHAR) : ℕ :=
  file.length - (file.reverse.takeWhile fun c => !(isSlash c || c == colon)).length

/-- mirrors win/process.c:342-448 -/
def searchPath (file cwd path : WString) : List Visit × Outcome :=
  if file.chars = [] ∨ file.chars = [dot] then ([], .notFound)
  else
    let name := file.chars.drop (fileNameStart file.chars)
    let nameHasExt := decide ((name.dropWhile (· ≠ dot)).length ≥ 2)
    if fileNameStart file.chars ≠ 0 then
      match pathSearchWalkExt sys (file.chars.take (fileNameStart file.chars)) name cwd.chars nameHasExt with
      | none => ([], .outOfBounds)
      | some (some result) => ([], .found result)
      | some none => ([], .notFound)
    else
      match pathSearchWalkExt sys [] file.chars cwd.chars nameHasExt with
      | none => ([], .outOfBounds)
      | some (some result) => ([], .found result)
      | some none => walk sys path.chars file.chars cwd.chars nameHasExt 0 []

variable {sys}

/-! ## Candidates fit -/

theorem separate_spec {b : Buffer cap} (n : ℕ) (h : b.text.length < cap) :
    ∃ b', separate b n = some b' ∧ b.text.length ≤ b'.text.length ∧ b'.text.length ≤ b.text.length + 1 := by
  unfold separate
  split
  · obtain ⟨b', h1, h2⟩ := put_spec backslash h
    exact ⟨b', h1, by simp [h2], by simp [h2]⟩
  · exact ⟨b, rfl, le_rfl, Nat.le_succ _⟩

theorem addDot_spec {b : Buffer cap} (n : ℕ) (h : b.text.length < cap) :
    ∃ b', addDot b n = some b' ∧ b'.text.length ≤ b.text.length + 1 := by
  unfold addDot
  split
  · obtain ⟨b', h1, h2⟩ := put_spec dot h
    exact ⟨b', h1, by simp [h2]⟩
  · exact ⟨b, rfl, Nat.le_succ _⟩

theorem joinTest_spec (sys : System) (dir name ext cwd : List WCHAR) : ∃ r, searchPathJoinTest sys dir name ext cwd = some r := by
  unfold searchPathJoinTest
  generalize joinParts sys dir cwd = parts
  obtain ⟨cwd, dir⟩ := parts
  obtain ⟨b1, h1, e1⟩ := puts_spec (b := (⟨[], Nat.zero_le _⟩ : Buffer (cwd.length + 1 + dir.length + 1 + name.length + 1 +
    ext.length + 1))) (s := cwd) (by simp only [length_nil]; omega)
  have l1 : b1.text.length = cwd.length := by simp [e1]
  obtain ⟨b2, h2, -, l2⟩ := separate_spec (b := b1) cwd.length (by omega)
  obtain ⟨b3, h3, e3⟩ := puts_spec (b := b2) (s := dir) (by omega)
  have l3 : b3.text.length = b2.text.length + dir.length := by simp [e3]
  obtain ⟨b4, h4, -, l4⟩ := separate_spec (b := b3) dir.length (by omega)
  obtain ⟨b5, h5, e5⟩ := puts_spec (b := b4) (s := name) (by omega)
  have l5 : b5.text.length = b4.text.length + name.length := by simp [e5]
  obtain ⟨b6, h6, l6⟩ := addDot_spec (b := b5) name.length (by omega)
  obtain ⟨b7, h7, e7⟩ := puts_spec (b := b6) (s := ext) (by omega)
  have l7 : b7.text.length = b6.text.length + ext.length := by simp [e7]
  simp only [h1, h2, h3, h4, h5, h6, h7, bind_eq_bind, bind_some]
  split
  · rw [bind_some, terminate_spec (b := b7) (by omega)]
    exact ⟨_, rfl⟩
  · rw [bind_some, terminate_spec (b := b5) (by omega)]
    exact ⟨_, rfl⟩

theorem walkExt_spec (sys : System) (dir name cwd : List WCHAR) (nameHasExt : Bool) :
    ∃ r, pathSearchWalkExt sys dir name cwd nameHasExt = some r := by
  obtain ⟨r1, h1⟩ := joinTest_spec sys dir name [] cwd
  obtain ⟨r2, h2⟩ := joinTest_spec sys dir name [0x63, 0x6F, 0x6D] cwd
  obtain ⟨r3, h3⟩ := joinTest_spec sys dir name [0x65, 0x78, 0x65] cwd
  have hfirst : ∃ r, (if nameHasExt then searchPathJoinTest sys dir name [] cwd else some none) = some r := by
    cases nameHasExt
    · exact ⟨_, rfl⟩
    · exact ⟨_, h1⟩
  obtain ⟨r, hr⟩ := hfirst
  unfold pathSearchWalkExt
  rw [hr, h2, h3]
  simp only [bind_eq_bind, bind_some]
  split
  · exact ⟨_, rfl⟩
  · split
    · exact ⟨_, rfl⟩
    · exact ⟨_, rfl⟩

def nothing : System := ⟨fun _ => false, fun _ _ => false⟩

theorem joinTest_nothing {dir name ext cwd : List WCHAR} : searchPathJoinTest nothing dir name ext cwd = some none := by
  obtain ⟨r, hr⟩ := joinTest_spec nothing dir name ext cwd
  have : ∀ r, searchPathJoinTest nothing dir name ext cwd = some r → r = none := by
    intro r h
    unfold searchPathJoinTest at h
    simp only [bind_eq_bind, bind_eq_some_iff] at h
    obtain ⟨_, -, _, -, _, -, _, -, _, -, _, -, _, -, h⟩ := h
    simpa [nothing, eq_comm] using h
  rw [hr, this r hr]

theorem walkExt_nothing {dir name cwd : List WCHAR} {nameHasExt : Bool} :
    pathSearchWalkExt nothing dir name cwd nameHasExt = some none := by
  unfold pathSearchWalkExt
  cases nameHasExt <;> simp [joinTest_nothing]

/-! ## The slices -/

def Visit.slice (path : List WCHAR) (v : Visit) : List WCHAR := (path.drop v.start).take (v.stop - v.start)

/-- The directory is a part of the slice, and it was not empty when its last character was read. -/
def Visit.Inside (v : Visit) : Prop := v.start ≤ v.dirPath ∧ v.dirPath + v.dirLen ≤ v.stop ∧ 0 < v.readLen

def pending (path : List WCHAR) (dirEnd : ℕ) : List (List WCHAR) :=
  if path.length ≤ dirEnd then [] else slices (path.drop (nextSlice path dirEnd).1)

theorem pending_cons {dirEnd : ℕ} (h : dirEnd < path.length) : pending path dirEnd =
    (path.drop (nextSlice path dirEnd).1).take ((nextSlice path dirEnd).2 - (nextSlice path dirEnd).1) ::
      pending path (nextSlice path dirEnd).2 := by
  obtain ⟨-, h2⟩ := nextSlice_start_le h
  have hlt := lt_nextSlice h
  have heq := nextSlice_eq h2
  rw [pending, if_neg (not_le.2 h), slices, pending]
  generalize hst : (nextSlice path dirEnd).1 = st at h2 heq ⊢
  generalize hen : (nextSlice path dirEnd).2 = en at hlt heq ⊢
  have hlen : (path.drop st).length = path.length - st := length_drop
  by_cases hend : path.length ≤ en
  · rw [if_pos hend, pieces_of_le (by omega), take_of_length_le (by omega)]
  · have hnext : (nextSlice path en).1 = en + 1 := by
      exact if_pos (.inl (by omega))
    rw [if_neg hend, pieces_of_lt (by omega), drop_drop]
    congr 2
    · omega
    · congr 1
      omega

theorem pending_zero : (pending path 0).filter (· ≠ []) = (slices path).filter (· ≠ []) := by
  cases path with
  | nil => simp [pending, slices, pieces_of_le]
  | cons c rest =>
    rw [pending, if_neg (by simp)]
    by_cases hc : c = semicolon
    · have hst : (nextSlice (c :: rest) 0).1 = 1 := by simp [nextSlice, hc]
      have hlen : sliceLen (c :: rest) = 0 := by
        have hq : isQuote semicolon = false := by decide
        simp [sliceLen_eq, quotedLen, hc, hq]
      have hcons : slices (c :: rest) = [] :: slices rest := by
        rw [slices, pieces_of_lt (by simp [hlen]), hlen]
        rfl
      rw [hst, hcons]
      rfl
    · have hst : (nextSlice (c :: rest) 0).1 = 0 := by simp [nextSlice, hc]
      rw [hst, drop_zero]

variable {st en : ℕ} {q : WCHAR} {l : List (List WCHAR)} {file : WString}

theorem adjust_slice : (adjust path st en).slice path = (path.drop st).take (en - st) := rfl

theorem getElem_slice (hlt : st < en) (hle : en ≤ path.length) :
    (path.drop st).take (en - st) = path[st] :: (path.drop (st + 1)).take (en - st - 1) := by
  rw [drop_eq_getElem_cons (by omega), take_cons (by omega)]

theorem adjust_inside (hlt : st < en) (hle : en ≤ path.length)
    (hq : ∀ q, isQuote q = true → (path.drop st).take (en - st) ≠ [q]) :
    (adjust path st en).Inside ∧ ∃ dir, (adjust path st en).dir path = some dir := by
  have hget : path[st]? = some path[st] := getElem?_eq_getElem (by omega)
  have hslice := getElem_slice hlt hle
  have hin : (adjust path st en).Inside := by
    unfold adjust Visit.Inside
    rw [hget]
    dsimp only [any_some]
    by_cases hquote : isQuote path[st] = true
    · have htwo : st + 1 < en := by
        by_contra h
        refine hq _ hquote ?_
        rw [hslice, show en - st - 1 = 0 by omega, take_zero]
      simp only [hquote, if_true]
      refine ⟨by omega, ?_, by omega⟩
      split
      · rw [if_neg (by omega)]
        omega
      · omega
    · simp only [hquote, Bool.false_eq_true, if_false]
      refine ⟨le_rfl, ?_, by omega⟩
      split
      · rw [if_neg (by omega)]
        omega
      · omega
  refine ⟨hin, _, if_pos ?_⟩
  have : (adjust path st en).stop = en := rfl
  have := hin.2.1
  omega

theorem adjust_quote (hquote : isQuote q = true) (hlt : st < en) (hle : en ≤ path.length)
    (hq : (path.drop st).take (en - st) = [q]) : ¬(adjust path st en).Inside := by
  rw [getElem_slice hlt hle, List.cons.injEq, take_eq_nil_iff, drop_eq_nil_iff] at hq
  obtain ⟨rfl, hone⟩ := hq
  have hget : path[st]? = some path[st] := getElem?_eq_getElem (by omega)
  rintro ⟨-, -, h⟩
  unfold adjust at h
  simp only [hget, any_some, hquote, if_true] at h
  omega

/-! ## The walk is right -/

variable {name cwd : List WCHAR} {nameHasExt : Bool} {dirEnd : ℕ} {visited : List Visit}

/-- The walk behind `visited` has been through slices of `l`, through all if it has found nothing, and has kept
inside each. -/
structure Right (path : List WCHAR) (l : List (List WCHAR)) (visited : List Visit) (r : List Visit × Outcome) : Prop where
  inBounds : r.2 ≠ .outOfBounds
  inside : ∀ v ∈ r.1, v ∈ visited ∨ v.Inside
  slices : r.1.map (Visit.slice path) <+: visited.map (Visit.slice path) ++ l.filter (· ≠ [])
  all : r.2 = .notFound → r.1.map (Visit.slice path) = visited.map (Visit.slice path) ++ l.filter (· ≠ [])

theorem nextSlice_le (h : dirEnd < path.length) :
    (nextSlice path dirEnd).1 ≤ (nextSlice path dirEnd).2 ∧ (nextSlice path dirEnd).2 ≤ path.length := by
  obtain ⟨-, h2⟩ := nextSlice_start_le h
  have hle := sliceLen_le (s := path.drop (nextSlice path dirEnd).1)
  rw [length_drop] at hle
  rw [nextSlice_eq h2]
  omega

theorem Right.skip {r : List Visit × Outcome} (h : Right path l visited r) :
    Right path ([] :: l) visited r := by
  obtain ⟨h1, h2, h3, h4⟩ := h
  exact ⟨h1, h2, by simpa using h3, by simpa using h4⟩

theorem Right.visit {r : List Visit × Outcome} {v : Visit} (hv : v.Inside)
    (hne : v.slice path ≠ []) (h : Right path l (visited ++ [v]) r) : Right path (v.slice path :: l) visited r := by
  obtain ⟨h1, h2, h3, h4⟩ := h
  have e : (visited ++ [v]).map (Visit.slice path) ++ l.filter (· ≠ []) =
      visited.map (Visit.slice path) ++ (v.slice path :: l).filter (· ≠ []) := by
    rw [filter_cons_of_pos (by simpa using hne), map_append, append_assoc]
    rfl
  refine ⟨h1, fun x hx => ?_, e ▸ h3, fun hr => e ▸ h4 hr⟩
  rcases h2 x hx with hx | hx
  · rcases mem_append.1 hx with hx | hx
    · exact .inl hx
    · exact .inr (mem_singleton.1 hx ▸ hv)
  · exact .inr hx

theorem right_found {result : List WCHAR} :
    Right path l visited (visited, .found result) :=
  ⟨by simp, fun _ hx => .inl hx, List.prefix_append _ _, by simp⟩

theorem walk_right (sys : System) (name cwd : List WCHAR) (nameHasExt : Bool) (visited : List Visit)
    (hq : ∀ q, isQuote q = true → [q] ∉ pending path dirEnd) :
    Right path (pending path dirEnd) visited (walk sys path name cwd nameHasExt dirEnd visited) := by
  have slice_spec : ∀ {i}, ¬path.length ≤ i → (∀ q, isQuote q = true → [q] ∉ pending path i) →
      (nextSlice path i).2 - (nextSlice path i).1 ≠ 0 →
      (adjust path (nextSlice path i).1 (nextSlice path i).2).Inside ∧
      (adjust path (nextSlice path i).1 (nextSlice path i).2).slice path ≠ [] ∧
      ∃ dir, (adjust path (nextSlice path i).1 (nextSlice path i).2).dir path = some dir := by
    intro i h hq hne
    obtain ⟨h1, h2⟩ := nextSlice_le (not_le.1 h)
    have hlt : (nextSlice path i).1 < (nextSlice path i).2 := by omega
    obtain ⟨hin, hdir⟩ := adjust_inside hlt h2 fun q hquote e => hq q hquote (by
      rw [pending_cons (not_le.1 h), e]
      exact mem_cons_self)
    refine ⟨hin, ?_, hdir⟩
    rw [adjust_slice, getElem_slice hlt h2]
    simp
  induction dirEnd, visited using walk.induct sys path name cwd nameHasExt with
  | case1 dirEnd visited h =>
    rw [walk, if_pos h]
    have hp : pending path dirEnd = [] := if_pos h
    exact ⟨by simp, fun v hv => .inl hv, by simp [hp], by simp [hp]⟩
  | case2 dirEnd visited h slice hzero ih =>
    rw [walk, if_neg h, if_pos hzero]
    rw [pending_cons (not_le.1 h)] at hq ⊢
    rw [show (nextSlice path dirEnd).2 - (nextSlice path dirEnd).1 = 0 from hzero] at hq ⊢
    exact (ih fun q hquote hm => hq q hquote (.tail _ hm)).skip
  | case3 dirEnd visited h slice hzero v hnone =>
    obtain ⟨-, -, dir, hdir⟩ := slice_spec h hq hzero
    obtain ⟨r, hr⟩ := walkExt_spec sys dir name cwd nameHasExt
    rw [show v.dir path = some dir from hdir, bind_some, hr] at hnone
    cases hnone
  | case4 dirEnd visited h slice hzero v result hsome =>
    obtain ⟨hin, hne, -⟩ := slice_spec h hq hzero
    rw [walk, if_neg h, if_neg hzero]
    simp only [slice, v] at hsome
    simp only [hsome]
    rw [pending_cons (not_le.1 h)]
    exact Right.visit hin hne right_found
  | case5 dirEnd visited h slice hzero v hsome ih =>
    obtain ⟨hin, hne, -⟩ := slice_spec h hq hzero
    rw [walk, if_neg h, if_neg hzero]
    simp only [slice, v] at hsome
    simp only [hsome]
    rw [pending_cons (not_le.1 h)] at hq ⊢
    exact Right.visit hin hne (ih fun q hquote hm => hq q hquote (.tail _ hm))

/-! ## A quote alone -/

theorem walk_prefix : visited <+: (walk sys path name cwd nameHasExt dirEnd visited).1 := by
  induction dirEnd, visited using walk.induct sys path name cwd nameHasExt with
  | case1 dirEnd visited h => rw [walk, if_pos h]
  | case2 dirEnd visited h slice hzero ih =>
    rw [walk, if_neg h, if_pos hzero]
    exact ih
  | case3 dirEnd visited h slice hzero v hnone =>
    rw [walk, if_neg h, if_neg hzero]
    simp only [slice, v] at hnone
    simp [hnone]
  | case4 dirEnd visited h slice hzero v result hsome =>
    rw [walk, if_neg h, if_neg hzero]
    simp only [slice, v] at hsome
    simp [hsome]
  | case5 dirEnd visited h slice hzero v hsome ih =>
    rw [walk, if_neg h, if_neg hzero]
    simp only [slice, v] at hsome
    simp only [hsome]
    exact (List.prefix_append _ _).trans ih

theorem walk_wrong (hquote : isQuote q = true) (hq : [q] ∈ pending path dirEnd) :
    (walk nothing path name cwd nameHasExt dirEnd visited).2 = .outOfBounds ∨
      ∃ v ∈ (walk nothing path name cwd nameHasExt dirEnd visited).1, ¬v.Inside := by
  induction dirEnd, visited using walk.induct nothing path name cwd nameHasExt with
  | case1 dirEnd visited h =>
    rw [pending, if_pos h] at hq
    cases hq
  | case2 dirEnd visited h slice hzero ih =>
    rw [walk, if_neg h, if_pos hzero]
    rw [pending_cons (not_le.1 h), show (nextSlice path dirEnd).2 - (nextSlice path dirEnd).1 = 0 from hzero,
      take_zero] at hq
    exact ih (by simpa using hq)
  | case3 dirEnd visited h slice hzero v hnone =>
    rw [walk, if_neg h, if_neg hzero]
    simp only [slice, v] at hnone
    exact .inl (by simp [hnone])
  | case4 dirEnd visited h slice hzero v result hsome =>
    obtain ⟨dir, -, hdir⟩ := bind_eq_some_iff.1 hsome
    rw [walkExt_nothing] at hdir
    cases hdir
  | case5 dirEnd visited h slice hzero v hsome ih =>
    obtain ⟨h1, h2⟩ := nextSlice_le (not_le.1 h)
    rw [walk, if_neg h, if_neg hzero]
    simp only [slice, v] at hsome hzero
    simp only [hsome]
    rw [pending_cons (not_le.1 h)] at hq
    rcases mem_cons.1 hq with hq | hq
    · have hlt : (nextSlice path dirEnd).1 < (nextSlice path dirEnd).2 := by omega
      exact .inr ⟨v, walk_prefix.subset (by simp [v, slice]), adjust_quote hquote hlt h2 hq.symm⟩
    · exact ih hq

/-! ## The search -/

/-- The path is searched: for a name that is not empty, not a dot, and has no directory in front. -/
def Searches (file : List WCHAR) : Prop := file ≠ [] ∧ file ≠ [dot] ∧ ∀ c ∈ file, isSlash c = false ∧ c ≠ colon

theorem fileNameStart_eq_zero {file : List WCHAR} : fileNameStart file = 0 ↔ ∀ c ∈ file, isSlash c = false ∧ c ≠ colon := by
  have hp := takeWhile_prefix (fun c => !(isSlash c || c == colon)) (l := file.reverse)
  have hall : fileNameStart file = 0 ↔ file.reverse.takeWhile (fun c => !(isSlash c || c == colon)) = file.reverse := by
    rw [fileNameStart, Nat.sub_eq_zero_iff_le]
    refine ⟨fun h => hp.eq_of_length_le (by rwa [length_reverse]), fun h => ?_⟩
    rw [h, length_reverse]
  rw [hall]
  simp

/-- The walk keeps to `PATH`: for every current directory and file system it ends, having been through slices in order,
through all if it has found nothing; and each directory it has passed on is a part of its slice and was not empty when its
last character was read. -/
def Walks (file path : WString) : Prop := ∀ (sys : System) (cwd : WString),
  (searchPath sys file cwd path).2 ≠ .outOfBounds ∧ (∀ v ∈ (searchPath sys file cwd path).1, v.Inside) ∧
  (searchPath sys file cwd path).1.map (Visit.slice path.chars) <+: (slices path.chars).filter (· ≠ []) ∧
  (Searches file.chars → (searchPath sys file cwd path).2 = .notFound →
    (searchPath sys file cwd path).1.map (Visit.slice path.chars) = (slices path.chars).filter (· ≠ []))

theorem searchPath_of_searches (sys : System) (cwd path : WString) (h : Searches file.chars) :
    ∃ nameHasExt, searchPath sys file cwd path =
      match pathSearchWalkExt sys [] file.chars cwd.chars nameHasExt with
      | none => ([], .outOfBounds)
      | some (some result) => ([], .found result)
      | some none => walk sys path.chars file.chars cwd.chars nameHasExt 0 [] := by
  obtain ⟨h1, h2, h3⟩ := h
  refine ⟨decide (((file.chars.drop (fileNameStart file.chars)).dropWhile (· ≠ dot)).length ≥ 2), ?_⟩
  unfold searchPath
  rw [if_neg (by simp [h1, h2]), if_neg (by simp [fileNameStart_eq_zero.2 h3])]

theorem searchPath_of_not (sys : System) (cwd path : WString) (h : ¬Searches file.chars) :
    (searchPath sys file cwd path).1 = [] ∧ (searchPath sys file cwd path).2 ≠ .outOfBounds := by
  unfold searchPath
  split
  · exact ⟨rfl, by simp⟩
  · next hname =>
    rw [not_or] at hname
    have hdir : fileNameStart file.chars ≠ 0 := fun e => h ⟨hname.1, hname.2, fileNameStart_eq_zero.1 e⟩
    simp only [hdir, ne_eq, not_false_eq_true, if_true]
    obtain ⟨r, hr⟩ := walkExt_spec sys (file.chars.take (fileNameStart file.chars))
      (file.chars.drop (fileNameStart file.chars)) cwd.chars
      (decide (((file.chars.drop (fileNameStart file.chars)).dropWhile (· ≠ dot)).length ≥ 2))
    rw [hr]
    cases r with
    | none | some result => exact ⟨rfl, by simp⟩

theorem mem_pending_zero : [q] ∈ pending path 0 ↔ [q] ∈ slices path := by
  have := congrArg ([q] ∈ ·) (@pending_zero path)
  simpa using this

theorem not_walks {path : WString} (hs : Searches file.chars) (hquote : isQuote q = true)
    (hq : [q] ∈ slices path.chars) : ¬Walks file path := by
  intro h
  obtain ⟨h1, h2, -⟩ := h nothing ⟨[], by simp⟩
  obtain ⟨b, hb⟩ := searchPath_of_searches nothing ⟨[], by simp⟩ path hs
  rw [walkExt_nothing] at hb
  rw [hb] at h1 h2
  rcases walk_wrong hquote (mem_pending_zero.2 hq) with h | ⟨v, hv, hin⟩
  · exact h1 h
  · exact hin (h2 v hv)

/-- **The search of the path is right** for every name and every `PATH`, unless the walk comes to a slice that is a quote
and nothing else. -/
theorem searchPath_iff (file path : WString) :
    Walks file path ↔ (Searches file.chars → ∀ q, isQuote q = true → [q] ∉ slices path.chars) := by
  refine ⟨fun h hs q hquote hq => not_walks hs hquote hq h, fun h sys cwd => ?_⟩
  by_cases hs : Searches file.chars
  · obtain ⟨b, hb⟩ := searchPath_of_searches sys cwd path hs
    obtain ⟨r, hr⟩ := walkExt_spec sys [] file.chars cwd.chars b
    rw [hr] at hb
    cases r with
    | some result => simp [hb]
    | none =>
      obtain ⟨h1, h2, h3, h4⟩ := walk_right sys file.chars cwd.chars b [] fun q hquote hm =>
        h hs q hquote (mem_pending_zero.1 hm)
      rw [pending_zero] at h3 h4
      simp only [hb]
      exact ⟨h1, fun v hv => (h2 v hv).resolve_left (by simp), h3, fun _ => h4⟩
  · obtain ⟨h1, h2⟩ := searchPath_of_not sys cwd path hs
    simp [h1, h2, hs]

/-- `PATH` is a quote. -/
theorem searchPath_quote : ¬Walks ⟨[0x61], by decide⟩ ⟨[0x22], by decide⟩ := by
  have hs : ∀ c ∈ [(0x61 : WCHAR)], isSlash c = false ∧ c ≠ colon := by
    intro c hc
    obtain rfl := mem_singleton.1 hc
    decide
  refine not_walks (q := 0x22) ⟨by decide, by decide, hs⟩ rfl ?_
  rw [slices, pieces_of_le (by decide)]
  exact mem_cons_self

end Libuv.L1.SearchPath
