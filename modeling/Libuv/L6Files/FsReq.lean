import Mathlib.Tactic

/-!
# What a finished request leaves behind (`unix/fs.c`, `uv-common.c`)

`uv_fs_req_cleanup` releases the memory of a request; what `req->ptr` refers to, and whether it is to be released, depends on
the type of the request. Of the memory the model keeps how often each block was released, and whether one was read or released
again after that.

`uv_fs_scandir_next` hands out the entries of a directory. `req->nbufs` is the number of those handed out; the last of them is
released by the call after it, and the one that finds no more releases the array. `scandir` counts its entries in an `int`,
so neither count wraps.

* `scandir_iff`: everything is released once and nothing is read after that, for every number of calls but one: as many as
  there are entries.
-/
namespace Libuv.L6.FsReq

def UV_EOF : ℤ := -4095

inductive Block
  | path
  | bufs
  | statbuf
  | dents
  | dent (i : ℕ)
  | dir
  | stream
  | name (i : ℕ)
deriving DecidableEq

/-- `dirents` is the array of a `uv_dir_t`, with the names that are in it. -/
structure Mem where
  frees : Block → ℕ
  stale : Bool
  dirents : Option (ℕ → Option Block)

def Mem.free (m : Mem) (b : Block) : Mem :=
  { m with frees := Function.update m.frees b (m.frees b + 1), stale := m.stale || decide (0 < m.frees b) }

/-- `uv__free`, for which `NULL` is nothing. -/
def Mem.freePtr (m : Mem) : Option Block → Mem
  | some b => m.free b
  | none => m

def Mem.read (m : Mem) (b : Block) : Mem := { m with stale := m.stale || decide (0 < m.frees b) }

inductive FsType
  | mkdtemp
  | mkstemp
  | opendir
  | readdir
  | closedir
  | scandir
  | other
deriving DecidableEq

/-- `bufs` is none where it is `NULL` or `req->bufsml`. -/
structure Req where
  fsType : FsType
  cb : Bool
  path : Option Block
  result : ℤ
  ptr : Option Block
  bufs : Option Block
  nbufs : ℕ
deriving DecidableEq

/-- mirrors uv-common.c:745-765 -/
def readdirCleanup (x : Req × Mem) : Req × Mem :=
  match x.1.ptr with
  | none => x
  | some d =>
    let m := x.2.read d
    ({ x.1 with ptr := none }, match m.dirents with
      | none => m
      | some _ =>
        (List.range x.1.result.toNat).foldl
          (fun m i =>
            { m.freePtr ((m.dirents.getD fun _ => none) i) with
              dirents := m.dirents.map fun names => Function.update names i none }) m)

/-- mirrors uv-common.c:649-664 -/
def scandirCleanup (x : Req × Mem) : Req × Mem :=
  let n := x.1.result.toNat
  let nbufs := if 0 < x.1.nbufs ∧ x.1.nbufs ≠ n then x.1.nbufs - 1 else x.1.nbufs
  let m := (List.range' nbufs (n - nbufs)).foldl (fun m i => (m.read .dents).free (.dent i)) x.2
  ({ x.1 with nbufs := max nbufs n, ptr := none }, m.freePtr x.1.ptr)

/-- mirrors unix/fs.c:2203-2209 -/
def releasePath (x : Req × Mem) : Req × Mem :=
  ({ x.1 with path := none },
    if x.1.cb || x.1.fsType == .mkdtemp || x.1.fsType == .mkstemp then x.2.freePtr x.1.path else x.2)

/-- mirrors unix/fs.c:2217-2223 -/
def releasePtr (x : Req × Mem) : Req × Mem :=
  let m := x.2.freePtr x.1.bufs
  ({ x.1 with bufs := none, ptr := none },
    if x.1.fsType ≠ .opendir ∧ x.1.ptr ≠ some .statbuf then m.freePtr x.1.ptr else m)

/-- mirrors unix/fs.c:2194-2224 -/
def reqCleanup (x : Req × Mem) : Req × Mem :=
  let y := releasePath x
  let y := if x.1.fsType = .readdir ∧ x.1.ptr ≠ none then readdirCleanup y else y
  let y := if x.1.fsType = .scandir ∧ x.1.ptr ≠ none then scandirCleanup y else y
  releasePtr y

/-! ## The entries of a directory -/

/-- A request for a directory of `n` entries when it is done: without any, there is no array.
mirrors unix/fs.c:547-569 -/
def scandirDone (cb : Bool) (n : ℕ) : Req × Mem :=
  let m : Mem := ⟨fun _ => 0, false, none⟩
  (⟨.scandir, cb, some .path, n, if n = 0 then none else some .dents, none, 0⟩, if n = 0 then m.free .dents else m)

/-- The entry, or an error.
mirrors uv-common.c:667-700 -/
def scandirNext (x : Req × Mem) : (Req × Mem) × Except ℤ ℕ :=
  if x.1.result < 0 then (x, .error x.1.result)
  else if x.1.ptr = none then (x, .error UV_EOF)
  else
    let m := if 0 < x.1.nbufs then (x.2.read .dents).free (.dent (x.1.nbufs - 1)) else x.2
    if x.1.nbufs = x.1.result.toNat then (({ x.1 with ptr := none }, m.free .dents), .error UV_EOF)
    else (({ x.1 with nbufs := x.1.nbufs + 1 }, (m.read .dents).read (.dent x.1.nbufs)), .ok x.1.nbufs)

/-- `k` calls. -/
def nexts : ℕ → Req × Mem → (Req × Mem) × List (Except ℤ ℕ)
  | 0, x => (x, [])
  | k + 1, x => ((scandirNext (nexts k x).1).1, (nexts k x).2 ++ [(scandirNext (nexts k x).1).2])

/-- After `k` calls and the cleanup, everything has been released once and nothing was read after that; the calls gave the
entries in order, and then `UV_EOF`. -/
def Clean (cb : Bool) (n k : ℕ) : Prop :=
  let x := nexts k (scandirDone cb n)
  let m := (reqCleanup x.1).2
  (∀ i < n, m.frees (.dent i) = 1) ∧ m.frees .dents = 1 ∧ m.stale = false ∧
    x.2 = (List.range (min k n)).map .ok ++ List.replicate (k - n) (.error UV_EOF)

/-! ## Lemmas about the memory -/

@[simp] theorem free_self (m : Mem) (b : Block) : (m.free b).frees b = m.frees b + 1 := by
  exact Function.update_self _ _ _

theorem free_of_ne (m : Mem) {b c : Block} (h : c ≠ b) : (m.free b).frees c = m.frees c := by
  exact Function.update_of_ne h _ _

@[simp] theorem read_frees (m : Mem) (b : Block) : (m.read b).frees = m.frees := rfl

theorem free_stale {m : Mem} {b : Block} (h : m.frees b = 0) : (m.free b).stale = m.stale := by simp [Mem.free, h]

theorem read_stale {m : Mem} {b : Block} (h : m.frees b = 0) : (m.read b).stale = m.stale := by simp [Mem.read, h]

/-- The entries of a list are released, one after the other. -/
def freeDents (m : Mem) (l : List ℕ) : Mem := l.foldl (fun m i => (m.read .dents).free (.dent i)) m

theorem freeDents_spec {l : List ℕ} (hl : l.Nodup) {m : Mem} (harray : m.frees .dents = 0) (h : ∀ i ∈ l, m.frees (.dent i) = 0) :
    (∀ i, (freeDents m l).frees (.dent i) = m.frees (.dent i) + if i ∈ l then 1 else 0) ∧
      (freeDents m l).frees .dents = 0 ∧ (freeDents m l).stale = m.stale := by
  induction l generalizing m with
  | nil => exact ⟨fun i => rfl, harray, rfl⟩
  | cons a l ih =>
    obtain ⟨ha, hl⟩ := List.nodup_cons.1 hl
    have harray' : ((m.read .dents).free (.dent a)).frees .dents = 0 := by
      exact harray
    have hself : (m.read .dents).frees (.dent a) = 0 := h a List.mem_cons_self
    have hother {i : ℕ} (hi : i ≠ a) : ((m.read .dents).free (.dent a)).frees (.dent i) = m.frees (.dent i) :=
      free_of_ne _ fun h => hi (Block.dent.inj h)
    obtain ⟨h1, h2, h3⟩ := ih hl harray' fun i hi => by
      rw [hother (fun h => ha (h ▸ hi))]
      exact h i (List.mem_cons_of_mem a hi)
    refine ⟨fun i => ?_, h2, ?_⟩
    · refine (h1 i).trans ?_
      by_cases hi : i = a
      · subst hi
        simp [ha]
      · rw [hother hi]
        simp [hi]
    · refine h3.trans ?_
      rw [free_stale hself, read_stale harray]

/-! ## The calls -/

/-- The request after `k` calls. -/
structure After (n k : ℕ) (x : Req × Mem) : Prop where
  req : x.1.fsType = .scandir ∧ x.1.result = n ∧ x.1.bufs = none
  path : x.1.path = some .path ∧ x.2.frees .path = 0
  ptr : x.1.ptr = if n = 0 ∨ n < k then none else some .dents
  nbufs : x.1.nbufs = min k n
  dent : ∀ i < n, x.2.frees (.dent i) = if i + 1 < k then 1 else 0
  dents : x.2.frees .dents = if n = 0 ∨ n < k then 1 else 0
  stale : x.2.stale = false

theorem after_done (cb : Bool) (n : ℕ) : After n 0 (scandirDone cb n) := by
  by_cases hn : n = 0
  · subst hn
    exact ⟨⟨rfl, rfl, rfl⟩, ⟨rfl, rfl⟩, rfl, rfl, fun i hi => absurd hi (Nat.not_lt_zero i), rfl, rfl⟩
  · refine ⟨⟨rfl, rfl, rfl⟩, ⟨rfl, ?_⟩, ?_, (Nat.zero_min n).symm, fun i hi => ?_, ?_, ?_⟩
    · simp [scandirDone, hn]
    · simp [scandirDone, hn]
    · simp [scandirDone, hn]
    · simp [scandirDone, hn]
    · simp [scandirDone, hn]

theorem After.next {n k : ℕ} {x : Req × Mem} (h : After n k x) :
    After n (k + 1) (scandirNext x).1 ∧ (scandirNext x).2 = if k < n then .ok k else .error UV_EOF := by
  obtain ⟨⟨htype, hresult, hbufs⟩, ⟨hpath, hpath0⟩, hptr, hnbufs, hdent, hdents, hstale⟩ := h
  have hres : ¬x.1.result < 0 := by omega
  have htoNat : x.1.result.toNat = n := by omega
  unfold scandirNext
  rw [if_neg hres]
  by_cases hend : n = 0 ∨ n < k
  · -- there was an end before
    rw [if_pos hend] at hptr hdents
    have hk : ¬k < n := by omega
    rw [if_pos hptr, if_neg hk]
    refine ⟨⟨⟨htype, hresult, hbufs⟩, ⟨hpath, hpath0⟩, ?_, ?_, fun i hi => ?_, ?_, hstale⟩, rfl⟩
    · rw [if_pos (by omega), hptr]
    · rw [hnbufs]
      omega
    · rw [hdent i hi, if_pos (by omega), if_pos (by omega)]
    · rw [if_pos (by omega), hdents]
  rw [if_neg hend] at hptr hdents
  have hk : x.1.nbufs = k := by omega
  have hptr' : ¬x.1.ptr = none := by
    rw [hptr]
    exact Option.some_ne_none _
  rw [if_neg hptr', htoNat, hk]
  -- the entry before is released
  obtain ⟨m, hm⟩ : ∃ m, (if 0 < k then (x.2.read .dents).free (.dent (k - 1)) else x.2) = m := ⟨_, rfl⟩
  have hmem : (∀ i < n, m.frees (.dent i) = if i + 1 < k + 1 then 1 else 0) ∧ m.frees .dents = 0 ∧ m.frees .path = 0 ∧
      m.stale = false := by
    subst hm
    by_cases h0 : 0 < k
    · have hlast : x.2.frees (.dent (k - 1)) = 0 := by
        rw [hdent (k - 1) (by omega)]
        exact if_neg (by omega)
      rw [if_pos h0]
      refine ⟨fun i hi => ?_, ?_, ?_, ?_⟩
      · by_cases hi' : i = k - 1
        · rw [hi', free_self, read_frees, hlast, if_pos (by omega)]
        · rw [free_of_ne _ (fun h => hi' (Block.dent.inj h)), read_frees, hdent i hi]
          split_ifs <;> omega
      · rw [free_of_ne _ Block.noConfusion, read_frees, hdents]
      · rw [free_of_ne _ Block.noConfusion, read_frees, hpath0]
      · have hlast' : (x.2.read .dents).frees (.dent (k - 1)) = 0 := hlast
        rw [free_stale hlast', read_stale hdents, hstale]
    · rw [if_neg h0]
      refine ⟨fun i hi => ?_, hdents, hpath0, hstale⟩
      rw [hdent i hi]
      split_ifs <;> omega
  obtain ⟨hmdent, hmdents, hmpath, hmstale⟩ := hmem
  rw [hm]
  by_cases hlast : k = n
  · rw [if_pos hlast, if_neg (by omega)]
    refine ⟨⟨⟨htype, hresult, hbufs⟩, ⟨hpath, ?_⟩, ?_, ?_, fun i hi => ?_, ?_, ?_⟩, rfl⟩
    · rw [free_of_ne _ Block.noConfusion, hmpath]
    · exact (if_pos (by omega)).symm
    · exact hk.trans (by omega)
    · rw [free_of_ne _ Block.noConfusion, hmdent i hi]
    · rw [free_self, hmdents, if_pos (by omega)]
    · rw [free_stale hmdents, hmstale]
  · rw [if_neg hlast, if_pos (by omega)]
    refine ⟨⟨⟨htype, hresult, hbufs⟩, ⟨hpath, hmpath⟩, ?_, ?_, fun i hi => ?_, ?_, ?_⟩, rfl⟩
    · exact hptr.trans (if_neg (by omega)).symm
    · exact (by omega : k + 1 = min (k + 1) n)
    · rw [read_frees, read_frees, hmdent i hi]
    · rw [read_frees, read_frees, hmdents, if_neg (by omega)]
    · have hnext : (m.read .dents).frees (.dent k) = 0 := by
        rw [read_frees, hmdent k (by omega)]
        exact if_neg (by omega)
      rw [read_stale hnext, read_stale hmdents, hmstale]

theorem nexts_spec (cb : Bool) (n k : ℕ) :
    After n k (nexts k (scandirDone cb n)).1 ∧
      (nexts k (scandirDone cb n)).2 = (List.range (min k n)).map .ok ++ List.replicate (k - n) (.error UV_EOF) := by
  induction k with
  | zero =>
    refine ⟨after_done cb n, ?_⟩
    rw [Nat.zero_sub]
    rfl
  | succ k ih =>
    obtain ⟨hafter, hres⟩ := ih.1.next
    refine ⟨hafter, ?_⟩
    rw [nexts, ih.2, hres]
    by_cases hk : k < n
    · have h1 : min (k + 1) n = min k n + 1 := by omega
      have h2 : min k n = k := by omega
      rw [if_pos hk, h1, h2, Nat.sub_eq_zero_of_le hk.le, Nat.sub_eq_zero_of_le hk, List.range_succ]
      simp
    · have h1 : min (k + 1) n = min k n := by omega
      have h2 : k + 1 - n = k - n + 1 := by omega
      rw [if_neg hk, h1, h2, List.replicate_succ', List.append_assoc]

/-! ## The cleanup -/

theorem releasePath_spec {x : Req × Mem} (hpath : x.1.path = some .path) (hpath0 : x.2.frees .path = 0) :
    (∀ b, b ≠ .path → (releasePath x).2.frees b = x.2.frees b) ∧ (releasePath x).2.stale = x.2.stale := by
  unfold releasePath
  split
  · rw [hpath]
    exact ⟨fun b hb => free_of_ne _ hb, free_stale hpath0⟩
  · exact ⟨fun _ _ => rfl, rfl⟩

theorem After.cleanup {n k : ℕ} {x : Req × Mem} (h : After n k x) :
    (∀ i < n, (reqCleanup x).2.frees (.dent i) = if k = n ∧ i + 1 = n then 0 else 1) ∧ (reqCleanup x).2.frees .dents = 1 ∧
      (reqCleanup x).2.stale = false := by
  obtain ⟨⟨htype, hresult, hbufs⟩, ⟨hpath, hpath0⟩, hptr, hnbufs, hdent, hdents, hstale⟩ := h
  obtain ⟨hframe, hstale'⟩ := releasePath_spec hpath hpath0
  have hdent' (i : ℕ) : (releasePath x).2.frees (.dent i) = x.2.frees (.dent i) := hframe _ Block.noConfusion
  have hdents' : (releasePath x).2.frees .dents = x.2.frees .dents := hframe _ Block.noConfusion
  have hreaddir : ¬(x.1.fsType = .readdir ∧ x.1.ptr ≠ none) := by
    rw [htype]
    exact fun h => by cases h.1
  have hopendir : (releasePath x).1.fsType ≠ .opendir ∧ (none : Option Block) ≠ some .statbuf := by
    have htype' : (releasePath x).1.fsType = .scandir := htype
    rw [htype']
    decide
  have hbufs' : (releasePath x).1.bufs = none := hbufs
  have hnbufs' : (releasePath x).1.nbufs = min k n := hnbufs
  unfold reqCleanup
  dsimp only
  rw [if_neg hreaddir]
  by_cases hend : n = 0 ∨ n < k
  · -- the array is gone
    rw [if_pos hend] at hptr hdents
    have hscandir : ¬(x.1.fsType = .scandir ∧ x.1.ptr ≠ none) := fun h => h.2 hptr
    have hptr' : (releasePath x).1.ptr = none := hptr
    rw [if_neg hscandir, releasePtr]
    rw [hbufs', hptr', if_pos hopendir]
    refine ⟨fun i hi => ?_, hdents'.trans hdents, hstale'.trans hstale⟩
    rw [if_neg (by omega)]
    exact (hdent' i).trans ((hdent i hi).trans (if_pos (by omega)))
  · rw [if_neg hend] at hptr hdents
    have hscandir : x.1.fsType = .scandir ∧ x.1.ptr ≠ none := ⟨htype, by rw [hptr]; exact Option.some_ne_none _⟩
    have htoNat : (releasePath x).1.result.toNat = n := by
      have : (releasePath x).1.result = n := hresult
      omega
    have hk : min k n = k := by omega
    rw [if_pos hscandir, scandirCleanup]
    rw [htoNat, hnbufs', hk]
    obtain ⟨j, hj⟩ : ∃ j, (if 0 < k ∧ k ≠ n then k - 1 else k) = j := ⟨_, rfl⟩
    rw [hj]
    have hfresh : ∀ i ∈ List.range' j (n - j), (releasePath x).2.frees (.dent i) = 0 := by
      intro i hi
      have hi := List.mem_range'_1.1 hi
      rw [hdent', hdent i (by omega), if_neg]
      split_ifs at hj <;> omega
    have hfold := freeDents_spec (List.nodup_range' 1) (hdents'.trans hdents) hfresh
    unfold freeDents at hfold
    obtain ⟨h1, h2, h3⟩ := hfold
    have hptr' : (releasePath x).1.ptr = some .dents := hptr
    rw [releasePtr]
    rw [hbufs', hptr', if_pos hopendir]
    refine ⟨fun i hi => ?_, ?_, ?_⟩
    · refine (free_of_ne _ Block.noConfusion).trans ((h1 i).trans ?_)
      rw [hdent', hdent i hi]
      have hmem : i ∈ List.range' j (n - j) ↔ j ≤ i := by
        rw [List.mem_range'_1]
        omega
      simp only [hmem]
      split_ifs at hj ⊢ <;> omega
    · exact (free_self _ _).trans (by rw [h2])
    · exact (free_stale h2).trans (h3.trans (hstale'.trans hstale))

/-- **Everything is released once** unless the calls stop exactly behind the last entry: then it is not released at all. -/
theorem scandir_iff (cb : Bool) (n k : ℕ) : Clean cb n k ↔ n = 0 ∨ k ≠ n := by
  obtain ⟨hafter, hres⟩ := nexts_spec cb n k
  obtain ⟨hdent, hdents, hstale⟩ := hafter.cleanup
  constructor
  · intro h
    obtain ⟨hall, -⟩ := h
    by_contra hcon
    have h1 := hall (n - 1) (by omega)
    rw [hdent (n - 1) (by omega), if_pos (by omega)] at h1
    cases h1
  · intro hk
    refine ⟨fun i hi => ?_, hdents, hstale, hres⟩
    rw [hdent i hi, if_neg (by omega)]

/-- One entry, and one call. -/
theorem scandir_leaks : ¬∀ cb n k, Clean cb n k := by
  intro hall
  have hone := (hall false 1 1).1 0 Nat.one_pos
  revert hone
  decide

end Libuv.L6.FsReq
