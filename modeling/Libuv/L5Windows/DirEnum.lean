import Libuv.Core.Loop
import Libuv.L1Data.SearchPath
import Libuv.L1Data.WideChar

/-!
# Directories, some entries at a time (`win/fs.c`)

`uv_fs_opendir` fetches the first entry along with the search handle; `need_find_call` says that it has been used.
`uv_fs_readdir` fills the array of the caller from there, and leaves it at the entry that comes next. The entries after the
first are those that `FindNextFileW` still has (`Find`), with the error that follows the last of them. Memory does not run
out while names are converted.

The index of the array is an `unsigned int`, its length a `size_t`. An entry that is made of data that no call has filled
in is `none`.

* `readdir_iff`: the calls return all entries if and only if the search has found one. If it has not, which `uv_fs_opendir`
  lets pass, `uv_fs_readdir` refuses the handle.
-/
namespace Libuv.L5.DirEnum

open L1.WideChar List Option
open L1.ProgramArgs (WCHAR WString)
open L1.SearchPath (dot slash backslash isSlash)

inductive WinError
  | fileNotFound
  | noMoreFiles
  | invalidHandle
  | other (code : ℕ)
deriving DecidableEq

inductive Err
  | notdir
  | nomem
  | inval
  | win (e : WinError)
deriving DecidableEq

/-- `WIN32_FIND_DATAW`: `cFileName`, and of `dwFileAttributes` what is looked at. -/
structure FindData where
  fileName : WString
  directory : Bool
  reparsePoint : Bool
  device : Bool

/-- A search that has not ended: what it still finds, and its error after that. -/
structure Find where
  rest : List FindData
  last : WinError

/-- `attributes`: `GetFileAttributesW`. `findFirst`: `FindFirstFileW`, for the path. `junk`: what is in memory behind a string
that has no terminating zero. -/
structure Windows where
  attributes : List WCHAR → UInt32
  findFirst : List WCHAR → Except WinError (FindData × Find)
  mallocDir : Bool
  mallocPath : Bool
  junk : List WCHAR

def FILE_ATTRIBUTE_DIRECTORY : UInt32 := 0x10

/-- `uv_dir_t`, without the array: no handle is `INVALID_HANDLE_VALUE`. -/
structure Dir where
  handle : Option Find
  findData : Option FindData
  needFindCall : Bool

inductive DirentType
  | dir
  | link
  | char
  | file
deriving DecidableEq

structure Dirent where
  name : List UInt8
  type : DirentType
deriving DecidableEq

/-! ## `uv_fs_opendir` -/

/-- For the empty path `_snwprintf` has no room for the terminating zero.
mirrors win/fs.c:1598-1613 -/
def findPath (junk pathw : List WCHAR) : List WCHAR :=
  match pathw.getLast? with
  | none => [dot, slash, 0x2A] ++ junk
  | some c => if isSlash c then pathw ++ [0x2A] else pathw ++ [backslash, 0x2A]

/-- mirrors win/fs.c:1575-1632 -/
def fsOpendir (w : Windows) (pathw : WString) : Except Err Dir :=
  if w.attributes pathw.chars &&& FILE_ATTRIBUTE_DIRECTORY = 0 then .error .notdir
  else if w.mallocDir = false then .error .nomem
  else if w.mallocPath = false then .error .nomem
  else
    match w.findFirst (findPath w.junk pathw.chars) with
    | .error e => if e ≠ .fileNotFound then .error (.win e) else .ok ⟨none, none, false⟩
    | .ok (d, f) => .ok ⟨some f, some d, false⟩

/-! ## `uv_fs_readdir` -/

/-- `"."` or `".."` -/
def FindData.dots (d : FindData) : Bool := d.fileName.chars = [dot] ∨ d.fileName.chars = [dot, dot]

/-- mirrors win/fs.c:1666-1681 -/
def FindData.dirent (d : FindData) : Dirent where
  name := utf8 d.fileName.chars
  type := if d.directory then .dir else if d.reparsePoint then .link else if d.device then .char else .file

/-- `FindNextFileW`, if it is called. -/
def Dir.fetch (d : Dir) : Except WinError Dir :=
  if d.needFindCall then
    match d.handle with
    | none => .error .invalidHandle
    | some f =>
      match f.rest with
      | [] => .error f.last
      | x :: rest => .ok { d with handle := some ⟨rest, f.last⟩, findData := some x }
  else .ok d

/-- `dirent_idx` is of 32 bits. -/
structure Reading where
  dir : Dir
  dirents : List (Option Dirent)
  direntIdx : ℕ

def word : ℕ := 2 ^ 32

/-- A round of the loop.
mirrors win/fs.c:1650-1684 -/
def readStep (nentries : ℕ) (s : Reading) : Reading × Option (Option (Except Err ℕ)) :=
  if s.direntIdx < nentries then
    match s.dir.fetch with
    | .error e =>
      if e = .noMoreFiles then (s, some (some (.ok s.direntIdx)))
      else ({ s with dirents := (s.dirents.take s.direntIdx).map (fun _ => none) ++ s.dirents.drop s.direntIdx },
        some (some (.error (.win e))))
    | .ok dir =>
      match dir.findData with
      | none => ({ s with dir := dir }, some none)
      | some d =>
        if d.dots then ({ s with dir := { dir with needFindCall := true } }, none)
        else
          ({ dir := { dir with needFindCall := true }
             dirents := s.dirents.set s.direntIdx (some d.dirent)
             direntIdx := (s.direntIdx + 1) % word }, none)
  else (s, some (some (.ok s.direntIdx)))

structure Call where
  result : Except Err ℕ
  dirents : List (Option Dirent)

/-- Every round but the first and the last takes an entry from the search.
mirrors win/fs.c:1634-1696 -/
def fsReaddir (dir : Dir) (nentries : ℕ) : Option (Dir × Call) :=
  match Loop.run (readStep nentries) (dir.handle.elim 0 (fun f => f.rest.length) + 2) ⟨dir, List.replicate nentries none, 0⟩ with
  | (s, some (some r)) => some (s.dir, ⟨r, s.dirents⟩)
  | _ => none

/-- mirrors win/fs.c:3088-3103 -/
def uvFsReaddir (dir : Dir) (nentries : ℕ) : Option (Dir × Call) :=
  match dir.handle with
  | none => some (dir, ⟨.error .inval, List.replicate nentries none⟩)
  | some _ => fsReaddir dir nentries

/-- Calls one after the other, with arrays of these lengths. -/
def readAll : Dir → List ℕ → Option (List Call)
  | _, [] => some []
  | dir, n :: ns => do
    let (dir, c) ← uvFsReaddir dir n
    let cs ← readAll dir ns
    return c :: cs

/-! ## What is meant -/

/-- The entries but `"."` and `".."`. -/
def shown (es : List FindData) : List Dirent := (es.filter fun d => !d.dots).map FindData.dirent

def Windows.entries (w : Windows) (pathw : WString) : List FindData :=
  match w.findFirst (findPath w.junk pathw.chars) with
  | .error _ => []
  | .ok (d, f) => d :: f.rest

/-- Each call returns the next entries, as many as there are and fit. -/
def batches : List Dirent → List ℕ → List Call
  | _, [] => []
  | es, n :: ns =>
    ⟨.ok (min n es.length), (es.take n).map some ++ List.replicate (n - es.length) none⟩ :: batches (es.drop n) ns

/-- No call returns more than an `unsigned int` counts. -/
def Fits : List Dirent → List ℕ → Prop
  | _, [] => True
  | es, n :: ns => min n es.length < word ∧ Fits (es.drop n) ns

/-! ## An open directory -/

/-- The entries to come are `es`: the first of them is there, or is fetched. -/
inductive Open : Dir → List FindData → Prop
  | fresh (d : FindData) (rest : List FindData) : Open ⟨some ⟨rest, .noMoreFiles⟩, some d, false⟩ (d :: rest)
  | used (d : FindData) (rest : List FindData) : Open ⟨some ⟨rest, .noMoreFiles⟩, some d, true⟩ rest

section
variable {dir : Dir} {es : List FindData} {d : FindData} {n : ℕ}

theorem Open.end_ (h : Open dir []) : dir.fetch = .error .noMoreFiles := by
  cases h
  rfl

theorem fetch_open (h : Open dir (d :: es)) :
    ∃ dir', dir.fetch = .ok dir' ∧ dir'.findData = some d ∧ Open { dir' with needFindCall := true } es := by
  cases h with
  | fresh | used => exact ⟨_, rfl, rfl, .used d es⟩

theorem Open.length_le (h : Open dir es) : es.length ≤ dir.handle.elim 0 (fun f => f.rest.length) + 1 := by
  cases h with
  | fresh => exact Nat.le_refl _
  | used => exact Nat.le_succ _

theorem Open.readdir (h : Open dir es) : uvFsReaddir dir n = fsReaddir dir n := by
  cases h with
  | fresh | used => rfl

theorem shown_dots (h : d.dots = true) : shown (d :: es) = shown es := by
  simp [shown, h]

theorem shown_cons (h : d.dots = false) : shown (d :: es) = d.dirent :: shown es := by
  simp [shown, h]

/-- The array, once `done` are in it. -/
def filled (n : ℕ) (done : List Dirent) : List (Option Dirent) := done.map some ++ List.replicate (n - done.length) none

variable {done : List Dirent} {s : Reading} {c : Call} {ns : List ℕ}

theorem filled_set (hn : done.length < n) (e : Dirent) :
    (filled n done).set done.length (some e) = filled n (done ++ [e]) := by
  obtain ⟨k, hk⟩ : ∃ k, n - done.length = k + 1 := ⟨n - done.length - 1, by omega⟩
  have hk' : n - (done ++ [e]).length = k := by
    rw [length_append, length_singleton]
    omega
  rw [filled, filled, hk, hk', set_append_right _ _ (by rw [length_map]), length_map, Nat.sub_self,
    replicate_succ, set_cons_zero, map_append, append_assoc]
  rfl

theorem readStep_full (h : n ≤ s.direntIdx) : readStep n s = (s, some (some (.ok s.direntIdx))) :=
  if_neg (Nat.not_lt.mpr h)

theorem readStep_end (hdir : Open s.dir []) (h : s.direntIdx < n) :
    readStep n s = (s, some (some (.ok s.direntIdx))) := by
  rw [readStep, if_pos h, hdir.end_]
  exact if_pos rfl

theorem readStep_cons (hdir : Open s.dir (d :: es)) (h : s.direntIdx < n) :
    ∃ dir', Open dir' es ∧ readStep n s =
      (if d.dots then ⟨dir', s.dirents, s.direntIdx⟩
        else ⟨dir', s.dirents.set s.direntIdx (some d.dirent), (s.direntIdx + 1) % word⟩, none) := by
  obtain ⟨dir', hfetch, hdata, hopen⟩ := fetch_open hdir
  refine ⟨_, hopen, ?_⟩
  rw [readStep, hfetch]
  dsimp only
  rw [hdata]
  dsimp only
  split_ifs
  · rfl
  · rfl

/-- What the loop makes of a call in which `done` are in the array and `es` are still to come. -/
def Ends (n : ℕ) (es : List FindData) (done : List Dirent) (r : Reading × Option (Option (Except Err ℕ))) : Prop :=
  r = (⟨r.1.dir, filled n ((done ++ shown es).take n), min n (done ++ shown es).length⟩,
      some (some (.ok (min n (done ++ shown es).length)))) ∧
    ∃ es', Open r.1.dir es' ∧ shown es' = (done ++ shown es).drop n

theorem ends_full (hdir : Open dir es) (hn : done.length = n) :
    Ends n es done (⟨dir, filled n done, done.length⟩, some (some (.ok done.length))) := by
  refine ⟨?_, es, hdir, ?_⟩
  · rw [length_append, ← hn, Nat.min_eq_left (Nat.le_add_right _ _), take_left]
  · rw [← hn, drop_left]

theorem ends_nil (hdir : Open dir []) (hn : done.length ≤ n) :
    Ends n [] done (⟨dir, filled n done, done.length⟩, some (some (.ok done.length))) := by
  have hnil : done ++ shown [] = done := append_nil done
  refine ⟨?_, [], hdir, ?_⟩
  · rw [hnil, Nat.min_eq_right hn, take_of_length_le hn]
  · rw [hnil, drop_of_length_le hn]
    rfl

theorem rounds_spec (done : List Dirent) {fuel : ℕ} (hdir : Open dir es) (hn : done.length ≤ n) (hfuel : es.length < fuel)
    (hfits : min n (done ++ shown es).length < word) :
    Ends n es done (Loop.run (readStep n) fuel ⟨dir, filled n done, done.length⟩) := by
  induction es generalizing dir done fuel with
  | nil =>
    obtain ⟨fuel, rfl⟩ := Nat.exists_eq_succ_of_ne_zero (Nat.ne_zero_of_lt hfuel)
    obtain heq | hlt := Nat.eq_or_lt_of_le hn
    · rw [Loop.run_of_done (readStep_full (Nat.le_of_eq heq.symm))]
      exact ends_full hdir heq
    · rw [Loop.run_of_done (readStep_end hdir hlt)]
      exact ends_nil hdir hn
  | cons d es ih =>
    obtain ⟨fuel, rfl⟩ := Nat.exists_eq_succ_of_ne_zero (Nat.ne_zero_of_lt hfuel)
    obtain heq | hlt := Nat.eq_or_lt_of_le hn
    · rw [Loop.run_of_done (readStep_full (Nat.le_of_eq heq.symm))]
      exact ends_full hdir heq
    · obtain ⟨dir', hopen, hstep⟩ := readStep_cons (s := ⟨dir, filled n done, done.length⟩) hdir hlt
      rw [Loop.run_of_step hstep]
      have hrest : es.length < fuel := Nat.lt_of_succ_lt_succ hfuel
      cases hdots : d.dots with
      | true =>
        rw [shown_dots hdots] at hfits
        have h := ih done hopen hn hrest hfits
        rw [Ends, ← shown_dots hdots] at h
        exact h
      | false =>
        rw [shown_cons hdots, append_cons] at hfits
        have hnext : (done ++ [d.dirent]).length = done.length + 1 := by rw [length_append, length_singleton]
        have hmod : (done.length + 1) % word = (done ++ [d.dirent]).length := by
          rw [hnext]
          apply Nat.mod_eq_of_lt
          rw [length_append] at hfits
          omega
        have h := ih (done ++ [d.dirent]) hopen (by omega) hrest hfits
        rw [Ends, ← append_cons, ← shown_cons hdots] at h
        rw [filled_set hlt, hmod]
        exact h

/-- **`fs__readdir`** returns the next entries, if an `unsigned int` counts them. -/
theorem readdir_spec (hdir : Open dir es) (hfits : min n (shown es).length < word) :
    ∃ dir' es', uvFsReaddir dir n =
        some (dir', ⟨.ok (min n (shown es).length), filled n ((shown es).take n)⟩) ∧
      Open dir' es' ∧ shown es' = (shown es).drop n := by
  obtain ⟨hrun, es', hopen, hshown⟩ := rounds_spec [] hdir (Nat.zero_le n)
    (Nat.lt_succ_of_le hdir.length_le) (by rwa [nil_append])
  refine ⟨_, es', ?_, hopen, by rwa [nil_append] at hshown⟩
  rw [nil_append] at hrun
  rw [hdir.readdir, fsReaddir, show (⟨dir, List.replicate n none, 0⟩ : Reading) = ⟨dir, filled n [], ([] : List Dirent).length⟩ from rfl]
  rw [hrun]

theorem readdir_lt {dir' : Dir} {k : ℕ} (h : uvFsReaddir dir n = some (dir', c)) (hc : c.result = .ok k) : k < word := by
  have hround : ∀ s : Reading, s.direntIdx < word →
      Loop.Round (readStep n) (fun s => s.direntIdx < word) (fun _ _ r => ∀ k, r = some (.ok k) → k < word) s := by
    intro s hs
    have hidx : ∀ k, some (Except.ok s.direntIdx : Except Err ℕ) = some (.ok k) → k < word := by
      intro k hk
      cases hk
      exact hs
    rw [Loop.Round, readStep]
    split_ifs with hlt
    · cases s.dir.fetch with
      | error e =>
        dsimp only
        split_ifs
        · exact .inl ⟨_, _, rfl, hidx⟩
        · exact .inl ⟨_, _, rfl, fun k hk => by cases hk⟩
      | ok dir' =>
        dsimp only
        cases dir'.findData with
        | none => exact .inl ⟨_, _, rfl, fun k hk => by cases hk⟩
        | some d =>
          dsimp only
          split_ifs
          · exact .inr ⟨_, rfl, hs, fun _ _ h => h⟩
          · exact .inr ⟨_, rfl, Nat.mod_lt _ (Nat.two_pow_pos 32), fun _ _ h => h⟩
    · exact .inl ⟨_, _, rfl, hidx⟩
  rw [uvFsReaddir] at h
  cases hhandle : dir.handle with
  | none =>
    rw [hhandle] at h
    cases some.inj h
    cases hc
  | some f =>
    rw [hhandle, fsReaddir] at h
    dsimp only at h
    split at h
    · rename_i s r hrun
      cases some.inj h
      exact Loop.run_partial hround (Nat.two_pow_pos 32) hrun k (congrArg some hc)
    · cases h

theorem readAll_cons {dir' : Dir} {cs : List Call} (h : uvFsReaddir dir n = some (dir', c)) :
    readAll dir (n :: ns) = some (c :: cs) ↔ readAll dir' ns = some cs := by
  rw [readAll, h]
  change (readAll dir' ns).bind (fun cs => some (c :: cs)) = some (c :: cs) ↔ readAll dir' ns = some cs
  constructor
  · intro h
    obtain ⟨cs', hcs, heq⟩ := bind_eq_some_iff.mp h
    cases some.inj heq
    exact hcs
  · intro h
    exact bind_eq_some_iff.mpr ⟨cs, h, rfl⟩

theorem readAll_head {cs : List Call} (h : readAll dir (n :: ns) = some (c :: cs)) :
    ∃ dir', uvFsReaddir dir n = some (dir', c) := by
  obtain ⟨⟨dir', c'⟩, hcall, h⟩ := bind_eq_some_iff.mp h
  obtain ⟨cs', -, heq⟩ := bind_eq_some_iff.mp h
  cases some.inj heq
  exact ⟨dir', hcall⟩

theorem readAll_iff (hdir : Open dir es) : readAll dir ns = some (batches (shown es) ns) ↔ Fits (shown es) ns := by
  induction ns generalizing dir es with
  | nil => exact ⟨fun _ => trivial, fun _ => rfl⟩
  | cons n ns ih =>
    have hnext : min n (shown es).length < word →
        (readAll dir (n :: ns) = some (batches (shown es) (n :: ns)) ↔ Fits ((shown es).drop n) ns) := by
      intro hfits
      obtain ⟨dir', es', hcall, hopen, hshown⟩ := readdir_spec hdir hfits
      have harray : filled n ((shown es).take n) = ((shown es).take n).map some ++ List.replicate (n - (shown es).length) none := by
        rw [filled, length_take]
        congr 2
        omega
      rw [← hshown, ← ih hopen, batches, ← harray, hshown]
      exact readAll_cons hcall
    constructor
    · intro h
      have hfits : min n (shown es).length < word := by
        obtain ⟨dir', hcall⟩ := readAll_head h
        exact readdir_lt hcall rfl
      exact ⟨hfits, (hnext hfits).mp h⟩
    · intro h
      exact (hnext h.1).mpr h.2

end

/-! ## The calls -/

/-- The calls return the entries of the directory. -/
def Enumerates (w : Windows) (pathw : WString) (dir : Dir) (ns : List ℕ) : Prop :=
  readAll dir ns = some (batches (shown (w.entries pathw)) ns)

/-- The search of `uv_fs_opendir` has found an entry, and the counts can be returned; or there is no call. -/
def Found (w : Windows) (pathw : WString) (ns : List ℕ) : Prop :=
  ns = [] ∨ (∃ x, w.findFirst (findPath w.junk pathw.chars) = .ok x) ∧ Fits (shown (w.entries pathw)) ns

/-- `hlast`: a search ends because there is nothing more. -/
theorem readdir_iff (w : Windows) (pathw : WString) (ns : List ℕ)
    (hlast : ∀ d f, w.findFirst (findPath w.junk pathw.chars) = .ok (d, f) → f.last = .noMoreFiles) {dir : Dir}
    (hdir : fsOpendir w pathw = .ok dir) : Enumerates w pathw dir ns ↔ Found w pathw ns := by
  rw [fsOpendir] at hdir
  split_ifs at hdir
  rw [Enumerates, Found, Windows.entries]
  cases hfind : w.findFirst (findPath w.junk pathw.chars) with
  | error e =>
    rw [hfind] at hdir
    dsimp only at hdir
    split_ifs at hdir
    cases Except.ok.inj hdir
    cases ns with
    | nil => exact ⟨fun _ => .inl rfl, fun _ => rfl⟩
    | cons n ns =>
      constructor
      · intro h
        obtain ⟨dir', hcall⟩ := readAll_head h
        cases some.inj hcall
      · rintro (h | ⟨⟨x, h⟩, -⟩)
        · cases h
        · cases h
  | ok x =>
    obtain ⟨d, f⟩ := x
    obtain ⟨rest, last⟩ := f
    rw [hfind] at hdir
    cases Except.ok.inj hdir
    obtain rfl : last = .noMoreFiles := hlast d ⟨rest, last⟩ hfind
    rw [readAll_iff (.fresh d rest)]
    constructor
    · intro h
      exact .inr ⟨⟨_, rfl⟩, h⟩
    · rintro (rfl | ⟨-, h⟩)
      · trivial
      · exact h

/-- A file, and the two entries that a directory has. -/
def named (s : List WCHAR) (h : 0 ∉ s) : FindData := ⟨⟨s, h⟩, false, false, false⟩

def oneFile : Windows where
  attributes _ := FILE_ATTRIBUTE_DIRECTORY
  findFirst _ := .ok (named [dot] (by decide), ⟨[named [0x61] (by decide), named [dot, dot] (by decide)], .noMoreFiles⟩)
  mallocDir := true
  mallocPath := true
  junk := []

def emptyRoot : Windows where
  attributes _ := FILE_ATTRIBUTE_DIRECTORY
  findFirst _ := .error .fileNotFound
  mallocDir := true
  mallocPath := true
  junk := []

def root : WString := ⟨[0x43, 0x3A, backslash], by decide⟩

theorem readdir_iff_file : ∃ dir, fsOpendir oneFile root = .ok dir ∧ Enumerates oneFile root dir [0, 2, 1] :=
  ⟨_, rfl, (readdir_iff oneFile root [0, 2, 1] (fun _ _ h => by cases h; rfl) rfl).mpr
    (.inr ⟨⟨_, rfl⟩, by decide, by decide, by decide, trivial⟩)⟩

theorem readdir_root : ¬ ∀ (w : Windows) (pathw : WString) (ns : List ℕ) (dir : Dir),
    (∀ d f, w.findFirst (findPath w.junk pathw.chars) = .ok (d, f) → f.last = .noMoreFiles) →
    fsOpendir w pathw = .ok dir → Enumerates w pathw dir ns := by
  intro hall
  have h := hall emptyRoot root [1] _ (fun d f hf => by cases hf) rfl
  obtain ⟨dir, hcall⟩ := readAll_head h
  cases some.inj hcall

end Libuv.L5.DirEnum
