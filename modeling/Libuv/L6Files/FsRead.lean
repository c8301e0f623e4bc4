import Libuv.Core.Loop
import Libuv.L6Files.FsWrite

/-!
# Reading into a request's buffers (`unix/fs.c`)

Where there is no `preadv`, `uv__fs_preadv` calls `pread` for one buffer after the other. A buffer is the memory it has, with
what was in it; the bytes of one read are put over it (`FlatFile.write`). The kernel answers the `i`-th `pread`, of `n` bytes
at an offset, with bytes or an error. `Faithful` is a kernel that reads a file, perhaps less of it than it was asked for;
`full` one that reads as much as there is.

* `preadv_iff`: with `full` it is `preadv` exactly where the file does not go on behind an empty buffer with one to fill behind it.
* `fsRead_agrees`: what that means for `uv__fs_read` on two platforms.
-/
namespace Libuv.L6.FsRead

open List
open FsWrite (Errno Platform Vectored Answer)

variable {α : Type*}

abbrev Kernel (α : Type*) := ℕ → ℕ → ℕ → Except Errno (List α)

/-- `done` are the buffers before `buf`, `todo` those from it on; `calls` counts the calls of `pread`. -/
structure State (α : Type*) where
  done : List (List α)
  todo : List (List α)
  pos : ℕ
  result : ℕ
  calls : ℕ

def State.bufs (s : State α) : List (List α) := s.done ++ s.todo

/-- `d` is put into the buffer from `pos` on. -/
def put (b : List α) (pos : ℕ) (d : List α) : List α := b.take pos ++ d ++ b.drop (pos + d.length)

/-- One `pread` and what follows it; the result once there is one.
mirrors unix/fs.c:427-453 -/
def step (k : Kernel α) (off : ℕ) (s : State α) : State α × Option Answer :=
  match s.todo with
  | [] => (s, some (.ok s.result))
  | b :: todo =>
    match k s.calls (b.length - s.pos) (off + s.result) with
    | .error .eintr => ({ s with calls := s.calls + 1 }, none)
    | .error e => ({ s with calls := s.calls + 1 }, some (if s.result = 0 then .error e else .ok s.result))
    | .ok d =>
      if d.length = 0 then ({ s with calls := s.calls + 1 }, some (.ok s.result))
      else if s.pos + d.length < b.length then
        (⟨s.done, put b s.pos d :: todo, s.pos + d.length, s.result + d.length, s.calls + 1⟩, none)
      else
        (⟨s.done ++ [put b s.pos d], todo, 0, s.result + d.length, s.calls + 1⟩,
          if todo.length = 0 then some (.ok (s.result + d.length)) else none)

/-- mirrors unix/fs.c:411-456 -/
def fsPreadv (k : Kernel α) (off : ℕ) : ℕ → State α → State α × Option Answer
  | 0, s => (s, none)
  | fuel + 1, s =>
    match (step k off s).2 with
    | some r => ((step k off s).1, some r)
    | none => fsPreadv k off fuel (step k off s).1

def start (bufs : List (List α)) : State α := ⟨[], bufs, 0, 0, 0⟩

/-- `d` is put into the buffers, one behind the other, from `pos` of the first one on. -/
def fill : ℕ → List (List α) → List α → List (List α)
  | _, [], _ => []
  | pos, b :: bufs, d => put b pos (d.take (b.length - pos)) :: fill 0 bufs (d.drop (b.length - pos))

/-- One `preadv`: the number of bytes, and the buffers. -/
def preadv (file : List α) (off : ℕ) (bufs : List (List α)) : ℕ × List (List α) :=
  ((FlatFile.read file off bufs.flatten.length).length, fill 0 bufs (FlatFile.read file off bufs.flatten.length))

/-- A `pread` reads from the file, perhaps less than it was asked for. -/
def Faithful (file : List α) (k : Kernel α) : Prop := ∀ i n off d, k i n off = .ok d → d <+: FlatFile.read file off n

/-- Every `pread` reads what there is. -/
def full (file : List α) : Kernel α := fun _ n off => .ok (FlatFile.read file off n)

def Resumes (k : Kernel α) : Prop := ∀ i, ∃ j, i ≤ j ∧ ∀ n off, k j n off ≠ .error .eintr

/-! ## Buffers -/

variable {b d file : List α} {pos off : ℕ} {bufs : List (List α)} {k : Kernel α} {s s' : State α}

theorem length_put (h : pos + d.length ≤ b.length) : (put b pos d).length = b.length := by
  rw [put, length_append, length_append, length_take, length_drop]
  omega

theorem put_nil (b : List α) (pos : ℕ) : put b pos [] = b := by
  rw [put, append_nil, length_nil, Nat.add_zero, take_append_drop]

theorem put_put (d e : List α) (h : pos + d.length ≤ b.length) :
    put (put b pos d) (pos + d.length) e = put b pos (d ++ e) := by
  have hlen : (b.take pos ++ d).length = pos + d.length := by
    rw [length_append, length_take]
    omega
  have hdrop : (b.take pos ++ d ++ b.drop (pos + d.length)).drop (pos + d.length + e.length) =
      b.drop (pos + (d ++ e).length) := by
    rw [drop_append, hlen, drop_eq_nil_of_le (by omega), nil_append, drop_drop, length_append]
    congr 1
    omega
  rw [put, put, take_left' hlen, hdrop, put, append_assoc (b.take pos)]

theorem fill_nil (pos : ℕ) (bufs : List (List α)) : fill pos bufs [] = bufs := by
  induction bufs generalizing pos with
  | nil => rfl
  | cons b bufs ih => rw [fill, take_nil, drop_nil, put_nil, ih]

theorem fill_part (d e : List α) (h : pos + d.length ≤ b.length) :
    fill (pos + d.length) (put b pos d :: bufs) e = fill pos (b :: bufs) (d ++ e) := by
  have hrest : b.length - pos = d.length + (b.length - (pos + d.length)) := by omega
  rw [fill, fill, length_put h, put_put d _ h, hrest, take_length_add_append, drop_length_add_append]

theorem fill_whole (d e : List α) (h : pos + d.length = b.length) :
    put b pos d :: fill 0 bufs e = fill pos (b :: bufs) (d ++ e) := by
  have hrest : b.length - pos = d.length := by omega
  rw [fill, hrest, take_left' rfl, drop_left' rfl]

/-! ## What has been placed -/

theorem Faithful.length_le (hk : Faithful file k) {i n : ℕ}
    (h : k i n off = .ok d) : d.length ≤ n := (hk i n off d h).length_le.trans (FlatFile.length_read_le file off n)

theorem Faithful.prefix_drop (hk : Faithful file k) {i n : ℕ}
    (h : k i n off = .ok d) : d <+: file.drop off := (hk i n off d h).trans (List.take_prefix n _)

theorem prefix_append {l e : List α} (hd : d <+: l) (he : e <+: l.drop d.length) : d ++ e <+: l := by
  obtain ⟨l', rfl⟩ := hd
  rw [drop_left' rfl] at he
  exact (prefix_append_right_inj d).2 he

def Inside (s : State α) : Prop := ∀ b ∈ s.todo.head?, s.pos ≤ b.length

/-- From `s` to `s'` the bytes `d` were placed. -/
structure Placed (s s' : State α) (d : List α) : Prop where
  bufs : s'.bufs = s.done ++ fill s.pos s.todo d
  result : s'.result = s.result + d.length

theorem Placed.refl (hbufs : s'.bufs = s.bufs) (hresult : s'.result = s.result) : Placed s s' [] where
  bufs := by rw [hbufs, fill_nil]; rfl
  result := hresult

/-- How the function returns: with what was placed, or with the error of a call at the offset itself. -/
def Ends (file : List α) (k : Kernel α) (off : ℕ) (s s' : State α) (r : Answer) : Prop :=
  ∃ d, d <+: file.drop (off + s.result) ∧ Placed s s' d ∧
    (r = .ok s'.result ∨ s'.result = 0 ∧ ∃ e i n, k i n off = .error e ∧ r = .error e)

theorem step_spec (hk : Faithful file k) (off : ℕ) (hs : Inside s) :
    (∃ s' r, step k off s = (s', some r) ∧ Ends file k off s s' r) ∨
    ∃ s' d, step k off s = (s', none) ∧ Inside s' ∧ d <+: file.drop (off + s.result) ∧ s'.result = s.result + d.length ∧
      ∀ s'' e, Placed s' s'' e → Placed s s'' (d ++ e) := by
  unfold step
  split
  · next htodo => exact .inl ⟨s, _, rfl, [], nil_prefix, Placed.refl rfl rfl, .inl rfl⟩
  next b todo htodo =>
  cases hcall : k s.calls (b.length - s.pos) (off + s.result) with
  | error e =>
    have hfail : Ends file k off s { s with calls := s.calls + 1 } (if s.result = 0 then .error e else .ok s.result) := by
      refine ⟨[], nil_prefix, Placed.refl rfl rfl, ?_⟩
      by_cases h0 : s.result = 0
      · rw [h0] at hcall
        exact .inr ⟨h0, e, _, _, hcall, if_pos h0⟩
      · exact .inl (if_neg h0)
    cases e with
    | eintr =>
      exact .inr ⟨{ s with calls := s.calls + 1 }, [], rfl, hs, nil_prefix, rfl, fun s'' d h => ⟨h.bufs, h.result⟩⟩
    | enosys | other no => exact .inl ⟨_, _, rfl, hfail⟩
  | ok d =>
    have hle := hk.length_le hcall
    have hd := hk.prefix_drop hcall
    dsimp only
    split
    · exact .inl ⟨_, _, rfl, [], nil_prefix, Placed.refl rfl rfl, .inl rfl⟩
    split
    · next hpart =>
      refine .inr ⟨_, d, rfl, ?_, hd, rfl, fun s'' e h => ⟨?_, ?_⟩⟩
      · intro b' hb'
        cases hb'
        rw [length_put hpart.le]
        exact hpart.le
      · rw [h.bufs, htodo, ← fill_part d e hpart.le]
      · rw [h.result, length_append, Nat.add_assoc]
    · next hwhole =>
      have hall : s.pos + d.length = b.length := by omega
      by_cases hend : todo.length = 0
      · obtain rfl := length_eq_zero_iff.1 hend
        refine .inl ⟨_, _, rfl, d, hd, ⟨?_, rfl⟩, .inl rfl⟩
        have hfill : put b s.pos d :: fill 0 [] [] = fill s.pos (b :: []) (d ++ []) := fill_whole d [] hall
        rw [append_nil] at hfill
        rw [htodo, ← hfill]
        exact append_nil _
      · rw [if_neg hend]
        refine .inr ⟨_, d, rfl, fun b' _ => Nat.zero_le _, hd, rfl, fun s'' e h => ⟨?_, ?_⟩⟩
        · rw [h.bufs, htodo, ← fill_whole d e hall, append_assoc]
          rfl
        · rw [h.result, length_append, Nat.add_assoc]

theorem fsPreadv_eq (k : Kernel α) (off : ℕ) : fsPreadv k off = Loop.run (step k off) := by
  funext fuel s
  induction fuel generalizing s with
  | zero => rfl
  | succ fuel ih =>
    unfold fsPreadv Loop.run
    cases (step k off s).2 with
    | some r => rfl
    | none => exact ih _

theorem step_round (hk : Faithful file k) (s : State α) (hs : Inside s) :
    Loop.Round (step k off) Inside (Ends file k off) s := by
  obtain ⟨s₁, r, hstep, hends⟩ | ⟨s₁, d, hstep, hs₁, hd, hres, hplaced⟩ := step_spec hk off hs
  · exact .inl ⟨s₁, r, hstep, hends⟩
  · refine .inr ⟨s₁, hstep, hs₁, ?_⟩
    intro s' r hends
    obtain ⟨e, he, hp, hr⟩ := hends
    refine ⟨d ++ e, prefix_append hd ?_, hplaced s' e hp, hr⟩
    rw [drop_drop, Nat.add_assoc, ← hres]
    exact he

theorem fsPreadv_run (hk : Faithful file k) {fuel : ℕ} {r : Answer}
    (hs : Inside s) (h : fsPreadv k off fuel s = (s', some r)) : Ends file k off s s' r := by
  rw [fsPreadv_eq] at h
  exact Loop.run_partial (step_round hk) hs h

theorem inside_start (bufs : List (List α)) : Inside (start bufs) := fun _ _ => Nat.zero_le _

theorem read_of_prefix (h : d <+: file.drop off) : FlatFile.read file off d.length = d :=
  (prefix_iff_eq_take.1 h).symm

/-- **What the result counts is in the buffers**, from the offset on and one behind the other; an error is for nothing read. -/
theorem preadv_placed (hk : Faithful file k) {fuel : ℕ}
    {r : Answer} (h : fsPreadv k off fuel (start bufs) = (s', some r)) :
    (FlatFile.read file off s'.result).length = s'.result ∧ s'.bufs = fill 0 bufs (FlatFile.read file off s'.result) ∧
      (r = .ok s'.result ∨ s'.result = 0 ∧ ∃ e i n, k i n off = .error e ∧ r = .error e) := by
  obtain ⟨d, hd, hplaced, hr⟩ := fsPreadv_run hk (inside_start bufs) h
  have hread : FlatFile.read file off d.length = d := read_of_prefix hd
  have hres : s'.result = d.length := hplaced.result.trans (Nat.zero_add _)
  rw [hres, hread]
  refine ⟨rfl, hplaced.bufs, ?_⟩
  rw [← hres]
  exact hr

/-! ## The loop ends -/

def State.rest (s : State α) : ℕ := s.todo.flatten.length - s.pos

theorem step_goes (hk : Faithful file k) (h : step k off s = (s', none)) :
    s'.calls = s.calls + 1 ∧ (s'.rest < s.rest ∨ s'.rest = s.rest ∧ ∃ n o, k s.calls n o = .error .eintr) := by
  unfold step at h
  split at h
  · cases h
  next b todo htodo =>
  cases hcall : k s.calls (b.length - s.pos) (off + s.result) with
  | error e =>
    rw [hcall] at h
    cases e with
    | eintr =>
      cases h
      exact ⟨rfl, .inr ⟨rfl, _, _, hcall⟩⟩
    | enosys | other no => cases h
  | ok d =>
    have hle := hk.length_le hcall
    have hrest : s.rest = b.length + todo.flatten.length - s.pos := by
      rw [State.rest, htodo, flatten_cons, length_append]
    rw [hcall] at h
    dsimp only at h
    split at h
    · cases h
    split at h
    · next hpart =>
      cases h
      refine ⟨rfl, .inl ?_⟩
      rw [State.rest, flatten_cons, length_append, length_put hpart.le]
      dsimp only
      omega
    · have hs' := congrArg Prod.fst h
      subst hs'
      refine ⟨rfl, .inl ?_⟩
      rw [State.rest]
      dsimp only
      omega

theorem fsPreadv_ends (hk : Faithful file k) (hres : Resumes k) (off : ℕ) (s : State α)
    (hs : Inside s) : ∃ fuel s' r, fsPreadv k off fuel s = (s', some r) := by
  rw [fsPreadv_eq]
  induction hn : s.rest using Nat.strongRecOn generalizing s with
  | _ n ih =>
    subst hn
    obtain ⟨j, hj, hclear⟩ := hres s.calls
    -- the calls up to the one that is not interrupted
    induction hd : j - s.calls using Nat.strongRecOn generalizing s with
    | _ d ihd =>
      obtain ⟨s₁, r, hstep, -⟩ | ⟨s₁, d', hstep, hs₁, -⟩ := step_spec hk off hs
      · exact ⟨1, s₁, r, Loop.run_of_done hstep 0⟩
      · suffices h : ∃ fuel s' r, Loop.run (step k off) fuel s₁ = (s', some r) by
          obtain ⟨fuel, s', r, hrun⟩ := h
          exact ⟨fuel + 1, s', r, (Loop.run_of_step hstep fuel).trans hrun⟩
        obtain ⟨hcalls, hlt | ⟨heq, n, o, hintr⟩⟩ := step_goes hk hstep
        · exact ih s₁.rest hlt s₁ hs₁ rfl
        · have hne : j ≠ s.calls := by
            intro h
            exact hclear n o (h ▸ hintr)
          rw [← heq] at ih
          exact ihd (j - s₁.calls) (by omega) s₁ hs₁ ih (by omega) rfl

/-! ## Reading all there is -/

theorem full_faithful (file : List α) : Faithful file (full file) := by
  intro i n off d h
  cases h
  exact prefix_rfl

/-- What the loop reads into buffers of these lengths, of `avail` bytes. -/
def emulCount : ℕ → List ℕ → ℕ
  | _, [] => 0
  | avail, n :: ns => if n = 0 ∨ avail = 0 then 0 else if avail < n then avail else n + emulCount (avail - n) ns

theorem step_full (file : List α) (off : ℕ) (done : List (List α)) (b : List α) (todo : List (List α)) (pos result calls : ℕ)
    (hd : FlatFile.read file (off + result) (b.length - pos) = d) :
    step (full file) off ⟨done, b :: todo, pos, result, calls⟩ =
      if d.length = 0 then (⟨done, b :: todo, pos, result, calls + 1⟩, some (.ok result))
      else if pos + d.length < b.length then
        (⟨done, put b pos d :: todo, pos + d.length, result + d.length, calls + 1⟩, none)
      else
        (⟨done ++ [put b pos d], todo, 0, result + d.length, calls + 1⟩,
          if todo.length = 0 then some (.ok (result + d.length)) else none) := by
  subst hd
  rfl

theorem full_run (file : List α) (off : ℕ) (hne : bufs ≠ []) (done : List (List α))
    (result calls : ℕ) :
    ∃ fuel s', fsPreadv (full file) off fuel ⟨done, bufs, 0, result, calls⟩ =
      (s', some (.ok (result + emulCount (file.length - (off + result)) (bufs.map List.length)))) := by
  rw [fsPreadv_eq]
  induction bufs generalizing done result calls with
  | nil => exact absurd rfl hne
  | cons b todo ih =>
    obtain ⟨d, hd⟩ : ∃ d, FlatFile.read file (off + result) (b.length - 0) = d := ⟨_, rfl⟩
    have hlen : d.length = min b.length (file.length - (off + result)) := by rw [← hd, FlatFile.length_read, Nat.sub_zero]
    have hstep := step_full file off done b todo 0 result calls hd
    rw [map_cons, emulCount]
    by_cases hstop : b.length = 0 ∨ file.length - (off + result) = 0
    · rw [if_pos (by omega)] at hstep
      rw [if_pos hstop]
      exact ⟨1, _, Loop.run_of_done hstep 0⟩
    rw [if_neg (by omega)] at hstep
    rw [if_neg hstop]
    by_cases hshort : file.length - (off + result) < b.length
    · -- the file ends inside this buffer: the next read is empty
      rw [if_pos (by omega)] at hstep
      have hend : FlatFile.read file (off + (result + d.length)) ((put b 0 d).length - (0 + d.length)) = [] :=
        FlatFile.read_eq_nil (by omega) _
      have hnext := step_full file off done (put b 0 d) todo (0 + d.length) (result + d.length) (calls + 1) hend
      have hres : result + (file.length - (off + result)) = result + d.length := by omega
      rw [if_pos hshort, hres]
      exact ⟨2, _, (Loop.run_of_step hstep 1).trans (Loop.run_of_done hnext 0)⟩
    · rw [if_neg (by omega)] at hstep
      have hb : d.length = b.length := by omega
      rw [if_neg hshort]
      by_cases htodo : todo = []
      · subst htodo
        rw [hb] at hstep
        exact ⟨1, _, Loop.run_of_done hstep 0⟩
      · rw [if_neg (fun h => htodo (length_eq_zero_iff.1 h)), hb] at hstep
        obtain ⟨fuel, s', hrun⟩ := ih htodo (done ++ [put b 0 d]) (result + b.length) (calls + 1)
        have havail : file.length - (off + (result + b.length)) = file.length - (off + result) - b.length := by omega
        rw [havail, Nat.add_assoc] at hrun
        exact ⟨fuel + 1, s', (Loop.run_of_step hstep fuel).trans hrun⟩

/-! ## Where it stops short -/

/-- An empty buffer has `avail` bytes or fewer in front of it, and one with bytes somewhere behind it. -/
def BlockedAt (avail : ℕ) (bufs : List (List α)) : Prop :=
  ∃ pre post, bufs = pre ++ [] :: post ∧ post.flatten ≠ [] ∧ pre.flatten.length < avail

def Blocked (file : List α) (off : ℕ) (bufs : List (List α)) : Prop := BlockedAt (file.length - off) bufs

theorem BlockedAt.flatten_ne_nil {avail : ℕ} (h : BlockedAt avail bufs) :
    bufs.flatten ≠ [] ∧ 0 < avail := by
  obtain ⟨pre, post, rfl, hpost, hlt⟩ := h
  refine ⟨fun hnil => hpost ?_, by omega⟩
  rw [flatten_append, append_eq_nil_iff] at hnil
  exact hnil.2

theorem blockedAt_cons (avail : ℕ) (b : List α) (bufs : List (List α)) :
    BlockedAt avail (b :: bufs) ↔ (b = [] ∧ bufs.flatten ≠ [] ∧ 0 < avail) ∨ BlockedAt (avail - b.length) bufs := by
  constructor
  · intro h
    obtain ⟨pre, post, heq, hpost, hlt⟩ := h
    cases pre with
    | nil =>
      rw [nil_append, List.cons.injEq] at heq
      exact .inl ⟨heq.1, heq.2 ▸ hpost, hlt⟩
    | cons p pre =>
      rw [cons_append, List.cons.injEq] at heq
      rw [flatten_cons, length_append, ← heq.1] at hlt
      exact .inr ⟨pre, post, heq.2, hpost, by omega⟩
  · intro h
    rcases h with ⟨rfl, hpost, hlt⟩ | ⟨pre, post, rfl, hpost, hlt⟩
    · exact ⟨[], bufs, rfl, hpost, hlt⟩
    · refine ⟨b :: pre, post, rfl, hpost, ?_⟩
      rw [flatten_cons, length_append]
      omega

theorem emulCount_eq_iff (avail : ℕ) (bufs : List (List α)) :
    emulCount avail (bufs.map List.length) = min bufs.flatten.length avail ↔ ¬BlockedAt avail bufs := by
  induction bufs generalizing avail with
  | nil =>
    refine iff_of_true (Nat.zero_min avail).symm ?_
    exact fun h => h.flatten_ne_nil.1 rfl
  | cons b bufs ih =>
    rw [map_cons, emulCount, blockedAt_cons, flatten_cons, length_append]
    by_cases havail : avail = 0
    · subst havail
      rw [if_pos (.inr rfl), Nat.min_zero]
      refine iff_of_true rfl ?_
      intro h
      rcases h with ⟨-, -, h⟩ | h
      · exact lt_irrefl 0 h
      · exact absurd h.flatten_ne_nil.2 (by omega)
    by_cases hb : b = []
    · subst hb
      rw [if_pos (.inl rfl)]
      constructor
      · intro h
        have hnil : bufs.flatten = [] := length_eq_zero_iff.1 (by omega)
        intro h
        rcases h with ⟨-, h, -⟩ | h
        · exact h hnil
        · exact h.flatten_ne_nil.1 hnil
      · intro h
        have hnil : bufs.flatten = [] := by
          by_contra hne
          exact h (.inl ⟨rfl, hne, by omega⟩)
        rw [hnil, length_nil, Nat.zero_min]
    have hpos : b.length ≠ 0 := fun h => hb (length_eq_zero_iff.1 h)
    rw [if_neg (by omega)]
    rw [or_iff_right fun h => hb h.1]
    by_cases hlt : avail < b.length
    · rw [if_pos hlt]
      refine iff_of_true (by omega) fun h => ?_
      exact absurd h.flatten_ne_nil.2 (by omega)
    · rw [if_neg hlt, ← ih]
      omega

/-- With reads of all there is, the emulation returns, and as `preadv` does. -/
def Agrees (file : List α) (off : ℕ) (bufs : List (List α)) : Prop :=
  ∃ fuel s' n, fsPreadv (full file) off fuel (start bufs) = (s', some (.ok n)) ∧ (n, s'.bufs) = preadv file off bufs

/-- With any reads, what is returned is the number of the bytes that are in the buffers, an error only if there are none; and
the emulation returns if its calls are not interrupted for ever. -/
def Accounts (file : List α) (off : ℕ) (bufs : List (List α)) : Prop :=
  ∀ k, Faithful file k → (∀ fuel s' r, fsPreadv k off fuel (start bufs) = (s', some r) →
      ∃ n, (FlatFile.read file off n).length = n ∧ s'.bufs = fill 0 bufs (FlatFile.read file off n) ∧
        (r = .ok n ∨ n = 0 ∧ ∃ e, r = .error e)) ∧
    (Resumes k → ∃ fuel s' r, fsPreadv k off fuel (start bufs) = (s', some r))

theorem accounts (file : List α) (off : ℕ) (bufs : List (List α)) : Accounts file off bufs := by
  intro k hk
  refine ⟨fun fuel s' r hrun => ?_, fun hres => fsPreadv_ends hk hres off _ (inside_start bufs)⟩
  obtain ⟨hlen, hbufs, hr⟩ := preadv_placed hk hrun
  refine ⟨s'.result, hlen, hbufs, ?_⟩
  rcases hr with hr | ⟨h0, e, -, -, -, hr⟩
  · exact .inl hr
  · exact .inr ⟨h0, e, hr⟩

theorem agrees_iff (hne : bufs ≠ []) :
    Agrees file off bufs ↔
      emulCount (file.length - off) (bufs.map List.length) = min bufs.flatten.length (file.length - off) := by
  obtain ⟨fuel, s', hrun⟩ := full_run file off hne [] 0 0
  rw [Nat.add_zero, Nat.zero_add] at hrun
  constructor
  · intro h
    obtain ⟨fuel', s'', n, hrun', heq⟩ := h
    rw [fsPreadv_eq] at hrun hrun'
    have hcount := Except.ok.inj (Loop.run_unique hrun hrun').2
    rw [hcount]
    exact (congrArg Prod.fst heq).trans (FlatFile.length_read file off bufs.flatten.length)
  · intro hcount
    obtain ⟨hlen, hbufs, hr⟩ := preadv_placed (full_faithful file) hrun
    have hres : s'.result = min bufs.flatten.length (file.length - off) := by
      rcases hr with hr | ⟨-, e, -, -, -, hr⟩
      · rw [← hcount]
        exact (Except.ok.inj hr).symm
      · cases hr
    refine ⟨fuel, s', _, hrun, ?_⟩
    rw [hcount, hbufs, hres, FlatFile.read_min, preadv, FlatFile.length_read]

/-- **`uv__fs_preadv` is `preadv`** exactly where the file does not go on behind an empty buffer with one to fill behind it;
what it counts is in the buffers in any case. -/
theorem preadv_iff (file : List α) (off : ℕ) (b : List α) (bufs : List (List α)) :
    (Agrees file off (b :: bufs) ∧ Accounts file off (b :: bufs)) ↔ ¬Blocked file off (b :: bufs) := by
  rw [and_iff_left (accounts file off (b :: bufs)), agrees_iff (cons_ne_nil b bufs)]
  exact emulCount_eq_iff _ _

/-- Of three bytes only the one before the empty buffer is read. -/
theorem preadv_short : ¬∀ (file : List ℕ) off b bufs, Agrees file off (b :: bufs) ∧ Accounts file off (b :: bufs) := by
  intro hall
  have hagrees := (hall [1, 2, 3] 0 [0] [[], [0, 0]]).1
  rw [agrees_iff (cons_ne_nil _ _)] at hagrees
  revert hagrees
  decide

/-! ## `uv__fs_read` -/

/-- Whether `uv__fs_read` has to do without `preadv`; the first call that fails with `ENOSYS` sets the flag. -/
def emulates (P : Platform) (noPreadv : Bool) : Bool :=
  match P.vectored with
  | .libc => false
  | .absent => true
  | .syscall implemented => noPreadv || !implemented

/-- A read of a file whose descriptor is at `pos`, with as much as there is; the result and the buffers that are read into.
mirrors unix/fs.c:460-503 -/
def fsRead (P : Platform) (noPreadv : Bool) (file : List α) (pos : ℕ) (off : ℤ) (bufs : List (List α)) (fuel : ℕ) :
    Option (Answer × List (List α)) :=
  let bufs := bufs.take P.iovmax
  let at_ := if off < 0 then pos else off.toNat
  if off < 0 ∨ bufs.length = 1 ∨ emulates P noPreadv = false then
    some (.ok (preadv file at_ bufs).1, (preadv file at_ bufs).2)
  else (fsPreadv (full file) at_ fuel (start bufs)).2.map fun r =>
    (r, (fsPreadv (full file) at_ fuel (start bufs)).1.bufs)

/-- A read at an offset whose `pread`s give all there is is the same on all platforms, unless an empty buffer ends the emulation
with bytes to read behind it. -/
theorem fsRead_agrees (P : Platform) (noPreadv : Bool) (file : List α) (pos off : ℕ) (b : List α) (bufs : List (List α)) :
    (∃ fuel, fsRead P noPreadv file pos off (b :: bufs) fuel =
      some (.ok (preadv file off ((b :: bufs).take P.iovmax)).1, (preadv file off ((b :: bufs).take P.iovmax)).2)) ↔
    ¬(emulates P noPreadv = true ∧ Blocked file off ((b :: bufs).take P.iovmax)) := by
  have hne : (b :: bufs).take P.iovmax ≠ [] := by
    have hpos := P.iovmax_pos
    rw [← Nat.succ_pred_eq_of_pos hpos]
    exact cons_ne_nil _ _
  generalize hnow : (b :: bufs).take P.iovmax = now at hne ⊢
  have hoff : ¬(off : ℤ) < 0 := by omega
  have hiff : Agrees file off now ↔ ¬Blocked file off now := (agrees_iff hne).trans (emulCount_eq_iff _ now)
  unfold fsRead
  rw [hnow, if_neg hoff, Int.toNat_natCast]
  by_cases hdirect : now.length = 1 ∨ emulates P noPreadv = false
  · refine iff_of_true ⟨0, if_pos (.inr hdirect)⟩ ?_
    intro h
    obtain ⟨hemul, pre, post, hsplit, hpost, -⟩ := h
    rcases hdirect with h1 | h1
    · rw [hsplit, length_append, length_cons] at h1
      have hnil : post = [] := length_eq_zero_iff.1 (by omega)
      exact hpost (by rw [hnil]; rfl)
    · rw [h1] at hemul
      cases hemul
  · have hemul : emulates P noPreadv = true := by
      rw [← Bool.not_eq_false]
      exact fun h => hdirect (.inr h)
    have hloop : ¬((off : ℤ) < 0 ∨ now.length = 1 ∨ emulates P noPreadv = false) := not_or.2 ⟨hoff, hdirect⟩
    rw [and_iff_right hemul, ← hiff]
    constructor
    · intro h
      obtain ⟨fuel, h⟩ := h
      rw [if_neg hloop] at h
      obtain ⟨r, hr, heq⟩ := Option.map_eq_some_iff.1 h
      obtain ⟨rfl, hbufs⟩ := Prod.ext_iff.1 heq
      exact ⟨fuel, _, _, Prod.ext rfl hr, Prod.ext rfl hbufs⟩
    · intro h
      obtain ⟨fuel, s', n, hrun, heq⟩ := h
      refine ⟨fuel, ?_⟩
      rw [if_neg hloop, hrun, ← heq]
      rfl

end Libuv.L6.FsRead
