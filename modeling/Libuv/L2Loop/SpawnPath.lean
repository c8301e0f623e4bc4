import Libuv.Core.Pieces
import Libuv.L1Data.OsEnviron
import Mathlib.Data.List.TakeWhile

/-!
# The program of `posix_spawn` (`unix/process.c`)

`uv__spawn_resolve_and_spawn` tries the entries of the `PATH` that the child is to have, one after the other: in a buffer
on its stack it puts the name behind the entry and calls `posix_spawn`, which says whether the program is there. Entries are skipped
by a limit taken from the length of the whole `PATH`, cut off at `PATH_MAX - 1`. A write behind the end of the
buffer is `none`.

What `posix_spawn` returns is a parameter, for the number of a candidate and the candidate: it is what comes in the end, when the
call has not been interrupted. The candidates are written down.

* `tryAll`: what is wanted, over a list of candidates.
* `resolve_iff`: all goes well if and only if not both the name and an entry are as long as they can be.
-/
namespace Libuv.L2.SpawnPath

open List
open L1.OsEnviron (CString)
open Pieces (pieces pieces_of_le pieces_of_lt)

def slash : UInt8 := 0x2F
def colon : UInt8 := 0x3A

/-- `"PATH="` -/
def pathVar : List UInt8 := [0x50, 0x41, 0x54, 0x48, 0x3D]

/-- What is returned; `unset` is the -1 that `err` begins with. -/
inductive Err
  | ok | eacces | enoent | enotdir | enametoolong | unset
  | other (errno : ℕ)
  deriving DecidableEq

/-- `PATH_MAX`, `NAME_MAX` and `_PATH_DEFPATH`. -/
structure Limits where
  pathMax : ℕ
  nameMax : ℕ
  defPath : CString
  two_le : 2 ≤ pathMax

/-- The result of `posix_spawnp` and those of `posix_spawn`. -/
structure System where
  spawnp : Err
  spawn : ℕ → List UInt8 → Err

variable (lim : Limits) (sys : System)

/-- mirrors unix/process.c:631-645 -/
def findPathInEnv : List CString → Option (List UInt8)
  | [] => none
  | env :: rest => if pathVar <+: env.chars then some (env.chars.drop pathVar.length) else findPathInEnv rest

/-- The path that is searched.
mirrors unix/process.c:688-697 -/
def pathOf (env : List CString) : List UInt8 := (findPathInEnv env).getD lim.defPath.chars

/-- `b`, when the entry, the `'/'` and the name with its zero have been stored into it.
mirrors unix/process.c:706-720 -/
def compose (entry file : List UInt8) : Option (List UInt8) :=
  let cap := lim.pathMax + lim.nameMax
  if entry.length + 1 ≤ cap ∧ entry.length + (if 0 < entry.length then 1 else 0) + (file.length + 1) ≤ cap then
    some (if 0 < entry.length then entry ++ slash :: file else file)
  else none

def Err.goesOn : Err → Bool
  | .eacces | .enoent | .enotdir => true
  | _ => false

/-- What the search ends with when the path does. -/
def finish (seenEacces : Bool) (err : Err) : Err := if seenEacces then .eacces else err

/-- `z - p`, for the rest of the path from `p` on. -/
def entryLen (p : List UInt8) : ℕ := (p.takeWhile (· ≠ colon)).length

/-- The loop over the path, from `p` on; `tried` are the candidates so far.
mirrors unix/process.c:705-746 -/
def search (l : ℕ) (file p : List UInt8) (tried : List (List UInt8)) (err : Err) (seenEacces : Bool) :
    Option (List (List UInt8) × Err) :=
  if l ≤ entryLen p then
    if p.length ≤ entryLen p then some (tried, finish seenEacces err)
    else search l file (p.drop (entryLen p + 1)) tried err seenEacces
  else
    match compose lim (p.take (entryLen p)) file with
    | none => none
    | some b =>
      let err := sys.spawn tried.length b
      if err.goesOn = false then some (tried ++ [b], err)
      else if p.length ≤ entryLen p then some (tried ++ [b], finish (seenEacces || err == .eacces) err)
      else search l file (p.drop (entryLen p + 1)) (tried ++ [b]) err (seenEacces || err == .eacces)
termination_by p.length
decreasing_by
  all_goals
    rw [length_drop]
    omega

/-- `options->file`, `options->env` and the candidates for `posix_spawn` with the result.
mirrors unix/process.c:648-747 -/
def resolveAndSpawn (file : Option CString) (env : Option (List CString)) : Option (List (List UInt8) × Err) :=
  match file with
  | none => some ([], .enoent)
  | some file =>
    match env with
    | none => some ([], sys.spawnp)
    | some env =>
      if slash ∈ file.chars then some ([], sys.spawnp)
      else
        let path := pathOf lim env
        if lim.nameMax < min file.chars.length (lim.nameMax + 1) then some ([], .enametoolong)
        else search lim sys (min path.length (lim.pathMax - 1) + 1) file.chars path [] .unset false

/-! ## What is wanted -/

def entries (path : List UInt8) : List (List UInt8) := pieces entryLen path

/-- The name in the directory of an entry, or in the current one. -/
def candidate (file entry : List UInt8) : List UInt8 := if entry = [] then file else entry ++ slash :: file

/-- The candidates of a path: the entries that have less than `PATH_MAX` characters. -/
def candidates (file path : List UInt8) : List (List UInt8) :=
  ((entries path).filter fun entry => decide (entry.length < lim.pathMax)).map (candidate file)

/-- One candidate after the other, until an answer other than the three that mean it is not to be found there. -/
def tryAll : List (List UInt8) → List (List UInt8) → Err → Bool → List (List UInt8) × Err
  | [], tried, err, seenEacces => (tried, finish seenEacces err)
  | b :: bs, tried, _, seenEacces =>
    let err := sys.spawn tried.length b
    if err.goesOn = false then (tried ++ [b], err) else tryAll bs (tried ++ [b]) err (seenEacces || err == .eacces)

variable {lim sys} {path file p : List UInt8} {l : ℕ} {tried : List (List UInt8)} {err : Err} {seenEacces : Bool}

theorem entryLen_le : entryLen p ≤ p.length := (List.takeWhile_prefix _).length_le

theorem entries_of_le (h : p.length ≤ entryLen p) : entries p = [p.take (entryLen p)] := by
  rw [entries, pieces_of_le h, take_of_length_le h]

theorem entries_of_lt (h : ¬p.length ≤ entryLen p) :
    entries p = p.take (entryLen p) :: entries (p.drop (entryLen p + 1)) := pieces_of_lt (not_le.1 h)

theorem length_entry : (p.take (entryLen p)).length = entryLen p := by
  rw [length_take, min_eq_left entryLen_le]

theorem compose_eq (entry : List UInt8) (hn : file.length ≤ lim.nameMax) (he : entry.length < lim.pathMax) :
    compose lim entry file =
      if file.length = lim.nameMax ∧ entry.length = lim.pathMax - 1 then none else some (candidate file entry) := by
  have h2 := lim.two_le
  have hcand : (if 0 < entry.length then entry ++ slash :: file else file) = candidate file entry := by
    cases entry with
    | nil | cons c entry => rfl
  unfold compose
  rw [hcand]
  by_cases hlong : file.length = lim.nameMax ∧ entry.length = lim.pathMax - 1
  · rw [if_pos hlong, if_neg]
    rw [if_pos (by omega)]
    omega
  · rw [if_neg hlong, if_pos]
    split
    · omega
    · omega

/-- The candidates of the entries that have less than `l` characters. -/
def kept (l : ℕ) (file p : List UInt8) : List (List UInt8) :=
  ((entries p).filter fun entry => decide (entry.length < l)).map (candidate file)

theorem kept_skip (h : l ≤ entryLen p) :
    kept l file p = if p.length ≤ entryLen p then [] else kept l file (p.drop (entryLen p + 1)) := by
  have hlen : ¬(p.take (entryLen p)).length < l := by
    rw [length_entry]
    omega
  rw [kept]
  split
  · next hend => rw [entries_of_le hend, filter_cons_of_neg (by simpa using hlen), filter_nil, map_nil]
  · next hend => rw [entries_of_lt hend, filter_cons_of_neg (by simpa using hlen), kept]

theorem kept_take (h : ¬l ≤ entryLen p) : kept l file p = candidate file (p.take (entryLen p)) ::
    if p.length ≤ entryLen p then [] else kept l file (p.drop (entryLen p + 1)) := by
  have hlen : (p.take (entryLen p)).length < l := by
    rw [length_entry]
    omega
  rw [kept]
  split
  · next hend =>
    rw [entries_of_le hend, filter_cons_of_pos (by simpa using hlen), filter_nil, map_cons, map_nil]
  · next hend => rw [entries_of_lt hend, filter_cons_of_pos (by simpa using hlen), map_cons, kept]

theorem search_eq (hfit : ∀ e ∈ entries p, e.length < l → compose lim e file = some (candidate file e)) :
    search lim sys l file p tried err seenEacces = some (tryAll sys (kept l file p) tried err seenEacces) := by
  induction hn : p.length using Nat.strongRecOn generalizing p tried err seenEacces with
  | ind n ih =>
    have hfirst : p.take (entryLen p) ∈ entries p := by
      by_cases hend : p.length ≤ entryLen p
      · simp [entries_of_le hend]
      · simp [entries_of_lt hend]
    have hrec : ¬p.length ≤ entryLen p → ∀ tried err seenEacces,
        search lim sys l file (p.drop (entryLen p + 1)) tried err seenEacces =
          some (tryAll sys (kept l file (p.drop (entryLen p + 1))) tried err seenEacces) := by
      intro hend tried err seenEacces
      refine ih (p.drop (entryLen p + 1)).length ?_ (fun e he => hfit e ?_) rfl
      · rw [length_drop]
        omega
      · rw [entries_of_lt hend]
        exact .tail _ he
    unfold search
    by_cases hskip : l ≤ entryLen p
    · rw [if_pos hskip, kept_skip hskip]
      by_cases hend : p.length ≤ entryLen p
      · rw [if_pos hend, if_pos hend, tryAll]
      · rw [if_neg hend, if_neg hend, hrec hend]
    · have hcomp := hfit _ hfirst (by rw [length_entry]; omega)
      rw [if_neg hskip, kept_take hskip, hcomp]
      by_cases hend : p.length ≤ entryLen p
      · simp only [hend, if_true, tryAll]
        split
        · rfl
        · rfl
      · simp only [hend, if_false, hrec hend, tryAll]
        split
        · rfl
        · rfl

/-- Where `posix_spawn` never finds anything. -/
def nowhere : System := ⟨.enoent, fun _ _ => .enoent⟩

theorem search_none {e : List UInt8} (he : e ∈ entries p) (hlt : e.length < l) (hlong : compose lim e file = none) :
    search lim nowhere l file p tried err seenEacces = none := by
  induction hn : p.length using Nat.strongRecOn generalizing p tried err seenEacces with
  | ind n ih =>
    have hrec : ¬p.length ≤ entryLen p → e ∈ entries (p.drop (entryLen p + 1)) → ∀ tried err seenEacces,
        search lim nowhere l file (p.drop (entryLen p + 1)) tried err seenEacces = none := by
      intro hend he tried err seenEacces
      refine ih (p.drop (entryLen p + 1)).length ?_ he rfl
      rw [length_drop]
      omega
    have hcases : e = p.take (entryLen p) ∨ ¬p.length ≤ entryLen p ∧ e ∈ entries (p.drop (entryLen p + 1)) := by
      by_cases hend : p.length ≤ entryLen p
      · rw [entries_of_le hend] at he
        exact .inl (mem_singleton.1 he)
      · rw [entries_of_lt hend] at he
        exact (mem_cons.1 he).imp_right fun h => ⟨hend, h⟩
    unfold search
    rcases hcases with rfl | ⟨hend, he⟩
    · rw [length_entry] at hlt
      rw [if_neg (by omega), hlong]
    · simp only [hend, if_false, hrec hend he]
      split
      · rfl
      · split
        · rfl
        · rfl

theorem length_le_of_mem_entries {e : List UInt8} (he : e ∈ entries p) : e.length ≤ p.length := by
  induction hn : p.length using Nat.strongRecOn generalizing p with
  | ind n ih =>
    subst hn
    by_cases hend : p.length ≤ entryLen p
    · rw [entries_of_le hend, mem_singleton] at he
      rw [he, length_take]
      exact Nat.min_le_right _ _
    · rw [entries_of_lt hend, mem_cons] at he
      rcases he with rfl | he
      · rw [length_take]
        exact Nat.min_le_right _ _
      · have hlt : (p.drop (entryLen p + 1)).length < p.length := by
          rw [length_drop]
          omega
        exact (ih _ hlt he rfl).trans hlt.le

theorem kept_eq : kept (min path.length (lim.pathMax - 1) + 1) file path = candidates lim file path := by
  have h2 := lim.two_le
  rw [kept]
  congr 1
  refine filter_congr fun e he => ?_
  have := length_le_of_mem_entries he
  rw [decide_eq_decide]
  omega

/-- The search is what is wanted: for a name without a slash that is not too long, whatever `posix_spawn` says. -/
def Meets (lim : Limits) (file : CString) (env : List CString) : Prop :=
  slash ∉ file.chars → file.chars.length ≤ lim.nameMax → ∀ sys : System,
    resolveAndSpawn lim sys (some file) (some env) =
      some (tryAll sys (candidates lim file.chars (pathOf lim env)) [] .unset false)

theorem resolve_search {file : CString} {env : List CString} (hs : slash ∉ file.chars) (hk : file.chars.length ≤ lim.nameMax) :
    resolveAndSpawn lim sys (some file) (some env) =
      search lim sys (min (pathOf lim env).length (lim.pathMax - 1) + 1) file.chars (pathOf lim env) [] .unset false := by
  unfold resolveAndSpawn
  simp only [hs, if_false]
  rw [if_neg (by omega)]

theorem not_meets {file : CString} {env : List CString} {e : List UInt8} (hs : slash ∉ file.chars)
    (hk : file.chars.length = lim.nameMax) (he : e ∈ entries (pathOf lim env)) (hlen : e.length = lim.pathMax - 1) :
    ¬Meets lim file env := by
  intro h
  have h2 := lim.two_le
  have hle := length_le_of_mem_entries he
  have hlong : compose lim e file.chars = none := by
    rw [compose_eq e hk.le (by omega), if_pos ⟨hk, hlen⟩]
  have := h hs hk.le nowhere
  rw [resolve_search hs hk.le, search_none he (by omega) hlong] at this
  cases this

/-- **The program is looked for** in the entries of `PATH` that have less than `PATH_MAX` characters, in order, and every
candidate fits into the buffer, unless the name has `NAME_MAX` characters and an entry `PATH_MAX - 1`. -/
theorem resolve_iff (lim : Limits) (file : CString) (env : List CString) : Meets lim file env ↔
    ¬(slash ∉ file.chars ∧ file.chars.length = lim.nameMax ∧ ∃ e ∈ entries (pathOf lim env), e.length = lim.pathMax - 1) := by
  constructor
  · rintro h ⟨hs, hk, e, he, hlen⟩
    exact not_meets hs hk he hlen h
  · intro h hs hk sys
    have h2 := lim.two_le
    rw [resolve_search hs hk, search_eq, kept_eq]
    intro e he hlt
    rw [compose_eq e hk (by omega), if_neg]
    exact fun hlong => h ⟨hs, hlong.1, e, he, hlong.2⟩

/-- `aa...a` -/
def longName (n : ℕ) : CString := ⟨List.replicate n 0x61, fun h => absurd (eq_of_mem_replicate h) (by decide)⟩

/-- `PATH=bb...b` -/
def longPath (n : ℕ) : CString where
  chars := pathVar ++ List.replicate n 0x62
  noNul h := by
    rcases mem_append.1 h with h | h
    · exact absurd h (by decide)
    · exact absurd (eq_of_mem_replicate h) (by decide)

theorem pathOf_longPath {n : ℕ} : pathOf lim [longPath n] = List.replicate n 0x62 := by
  exact drop_left

theorem entries_replicate {n : ℕ} : entries (List.replicate n 0x62) = [List.replicate n 0x62] := by
  have : (List.replicate n (0x62 : UInt8)).takeWhile (· ≠ colon) = List.replicate n 0x62 :=
    takeWhile_eq_self_iff.2 fun c hc => by
      rw [eq_of_mem_replicate hc]
      decide
  rw [entries, pieces_of_le]
  rw [entryLen, this]

def darwin : Limits := ⟨1024, 255, ⟨[], by simp⟩, by decide⟩

/-- A name of 255 characters, and a `PATH` of 1023 without a colon. -/
theorem resolve_overflows : ¬Meets darwin (longName 255) [longPath 1023] := by
  refine not_meets (e := List.replicate 1023 0x62) ?_ length_replicate ?_ length_replicate
  · exact fun h => absurd (eq_of_mem_replicate h) (by decide)
  · rw [pathOf_longPath, entries_replicate]
    exact mem_cons_self

end Libuv.L2.SpawnPath
