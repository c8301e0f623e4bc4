import Libuv.Core.FdTable
import Mathlib.Data.Finset.Card
import Mathlib.Order.Interval.Finset.Nat

/-!
# The file actions of `posix_spawn` (`unix/process.c`)

`uv__spawn_set_posix_spawn_file_actions` does not touch descriptors itself: it makes a list of actions that the kernel
carries out in the child, in order. A first loop has the sources below their targets copied to numbers nobody uses, a second
one puts every source where it belongs, a third one closes the copies. The child starts with `POSIX_SPAWN_CLOEXEC_DEFAULT`,
so that only what an action has named survives. `null` is `/dev/null` as it is opened here. The calls that add an action only
fail for want of memory; they succeed here.

The search for a number goes through the table and begins again when it meets the number, but at the second element.

* `Fresh`, `Wires`: what is wanted of the numbers and of the child. `wires_iff`: the tables that get it.
* `collision`: three descriptors for which the copy of a source is put over another.
-/
namespace Libuv.L2.SpawnActions

open Option
open Fds (Desc Table)

inductive Action
  | dup2 (fd newfd : ℕ)
  | open_ (fd : ℕ)
  | inherit (fd : ℕ)
  | close (fd : ℕ)
  deriving DecidableEq

/-! ## The list of actions -/

section
variable (n : ℕ)

/-- What the search has still to meet at `use_fd` or above. -/
def ahead (pipes : ℕ → ℤ) (use_fd : ℕ) : ℕ := ((Finset.range n).filter fun i => (use_fd : ℤ) ≤ pipes i).card

theorem ahead_lt {pipes : ℕ → ℤ} {use_fd fd2 : ℕ} (hlt : fd2 < n) (heq : pipes fd2 = use_fd) :
    ahead n pipes (use_fd + 1) < ahead n pipes use_fd := by
  refine Finset.card_lt_card ⟨fun i hi => ?_, fun hsub => ?_⟩
  · rw [Finset.mem_filter] at hi ⊢
    exact ⟨hi.1, by omega⟩
  · have := hsub (Finset.mem_filter.mpr ⟨Finset.mem_range.mpr hlt, heq.ge⟩)
    rw [Finset.mem_filter] at this
    omega

/-- The inner loop at `fd2`; `fd2 = 0` is followed by `fd2++`. mirrors unix/process.c:549-557 -/
def scan (pipes : ℕ → ℤ) (use_fd fd2 : ℕ) : ℕ :=
  if fd2 < n then
    if pipes fd2 = use_fd then scan pipes (use_fd + 1) 1 else scan pipes use_fd (fd2 + 1)
  else use_fd
termination_by (ahead n pipes use_fd, n - fd2)
decreasing_by
  · exact Prod.Lex.left _ _ (ahead_lt n ‹_› ‹_›)
  · exact Prod.Lex.right _ (by omega)

/-- Where the source of `fd` is copied to. -/
def temp (pipes : ℕ → ℤ) : ℕ := scan n pipes n 0

/-- The source of `fd` is below it: it is copied. -/
abbrev Low (pipes : ℕ → ℤ) (fd : ℕ) : Prop := 0 ≤ pipes fd ∧ pipes fd < fd

/-- mirrors unix/process.c:544-566 -/
def saveLoop (pipes : ℕ → ℤ) : ℕ → (ℕ → ℤ) × List Action
  | 0 => (pipes, [])
  | fd + 1 =>
    let r := saveLoop pipes fd
    if Low r.1 fd then
      (fun i => if i = fd then temp n r.1 else r.1 i, r.2 ++ [.dup2 (r.1 fd).toNat (temp n r.1)])
    else r

/-- mirrors unix/process.c:569-593 -/
def placeAction (pipes : ℕ → ℤ) (fd : ℕ) : List Action :=
  if pipes fd < 0 then
    if 3 ≤ fd then [] else [.open_ fd]
  else if pipes fd = fd then [.inherit fd] else [.dup2 (pipes fd).toNat fd]

/-- mirrors unix/process.c:601-615 -/
def closeAction (pipes : ℕ → ℤ) (fd : ℕ) : List Action :=
  if pipes fd < n then []
  else if (List.range fd).any fun fd2 => pipes fd2 = pipes fd then [] else [.close (pipes fd).toNat]

/-- mirrors unix/process.c:511-622 -/
def fileActions (pipes : ℕ → ℤ) : List Action :=
  let r := saveLoop n pipes n
  r.2 ++ (List.range n).flatMap (placeAction r.1) ++ (List.range n).flatMap (closeAction n r.1)

end

/-! ## What the kernel does with it -/

section
variable {F : Type} (null : F)

def Action.run : Action → Table F → Option (Table F)
  | .dup2 fd newfd, t => (t.get fd).map fun d => t.dup2 d newfd
  | .open_ fd, t => some (t.set fd (some ⟨null, false⟩))
  | .inherit fd, t => (t.get fd).map fun d => t.setCloexec d fd false
  | .close fd, t => some (t.close fd)

def runAll : List Action → Table F → Option (Table F)
  | [], t => some t
  | a :: as, t => (a.run null t).bind (runAll as)

/-- `POSIX_SPAWN_CLOEXEC_DEFAULT` -/
def cloexecDefault (t : Table F) : Table F where
  get := fun fd => (t.get fd).map fun d => ⟨d.file, true⟩
  bound := t.bound
  free_above := by
    intro fd h
    rw [t.free_above fd h, map_none]

def posixSpawn (n : ℕ) (pipes : ℕ → ℤ) (t : Table F) : Option (Table F) :=
  (runAll null (fileActions n pipes) (cloexecDefault t)).map Table.exec

theorem runAll_append (as bs : List Action) (t : Table F) :
    runAll null (as ++ bs) t = (runAll null as t).bind (runAll null bs) := by
  induction as generalizing t with
  | nil => rfl
  | cons a as ih =>
    rw [List.cons_append, runAll, runAll]
    cases a.run null t with
    | none => rfl
    | some t' => exact ih t'

theorem runAll_singleton (a : Action) (t : Table F) : runAll null [a] t = a.run null t := by
  rw [runAll]
  cases a.run null t <;> rfl

end

/-! ## The search -/

section
variable (n : ℕ)

/-- Nothing behind the first element of the table is `u`. -/
def Avoids (pipes : ℕ → ℤ) (u : ℕ) : Prop := ∀ i, i < n → 0 < i → pipes i ≠ u

instance (pipes : ℕ → ℤ) : DecidablePred (Avoids n pipes) :=
  fun u => inferInstanceAs (Decidable (∀ i, i < n → 0 < i → pipes i ≠ u))

theorem scan_first (pipes : ℕ → ℤ) (use_fd fd2 : ℕ) (h1 : 1 ≤ fd2) (hseen : ∀ i, 0 < i → i < fd2 → pipes i ≠ use_fd) :
    use_fd ≤ scan n pipes use_fd fd2 ∧ Avoids n pipes (scan n pipes use_fd fd2) ∧
      ∀ u, use_fd ≤ u → u < scan n pipes use_fd fd2 → ¬Avoids n pipes u := by
  rw [scan]
  split_ifs with hlt heq
  · -- The number is met, and not free.
    obtain ⟨hle, hav, hfirst⟩ := scan_first pipes (use_fd + 1) 1 le_rfl (fun i hi hi1 => by omega)
    refine ⟨by omega, hav, fun u hu hur => ?_⟩
    rcases Nat.eq_or_lt_of_le hu with rfl | hu
    · exact fun hu => hu fd2 hlt (by omega) heq
    · exact hfirst u hu hur
  · refine scan_first pipes use_fd (fd2 + 1) (by omega) fun i hi hif => ?_
    rcases Nat.lt_succ_iff_lt_or_eq.mp hif with hif | rfl
    · exact hseen i hi hif
    · exact heq
  · exact ⟨le_rfl, fun i hin hi => hseen i hi (by omega), fun u hu hur => by omega⟩
termination_by (ahead n pipes use_fd, n - fd2)
decreasing_by
  · exact Prod.Lex.left _ _ (ahead_lt n ‹_› ‹_›)
  · exact Prod.Lex.right _ (by omega)

/-- Where the search gets after its look at the first element. -/
def start (pipes : ℕ → ℤ) : ℕ := if pipes 0 = n then n + 1 else n

theorem le_start (pipes : ℕ → ℤ) : n ≤ start n pipes := by
  rw [start]
  split_ifs <;> omega

theorem temp_first (pipes : ℕ → ℤ) (hn : 0 < n) :
    start n pipes ≤ temp n pipes ∧ Avoids n pipes (temp n pipes) ∧
      ∀ u, start n pipes ≤ u → u < temp n pipes → ¬Avoids n pipes u := by
  rw [temp, scan, start]
  split_ifs with heq
  · exact scan_first n pipes (n + 1) 1 le_rfl fun i hi hi1 => by omega
  · exact scan_first n pipes n 1 le_rfl fun i hi hi1 => by omega

/-! ## The numbers the first loop takes -/

/-- The elements below `k` whose sources are copied. -/
def lows (pipes : ℕ → ℤ) (k : ℕ) : Finset ℕ := (Finset.range k).filter fun i => Low pipes i

/-- The numbers below `b` that are not in the table. -/
def gaps (pipes : ℕ → ℤ) (b : ℕ) : Finset ℕ := (Finset.Ico (start n pipes) b).filter fun u => Avoids n pipes u

/-- After `k` iterations the table is as it was but for the sources that have been copied, which are at the lowest numbers
not in it, and these numbers go up to `b`. -/
structure Chosen (pipes : ℕ → ℤ) (k b : ℕ) (pipes' : ℕ → ℤ) : Prop where
  same : ∀ i, (k ≤ i ∨ ¬Low pipes i) → pipes' i = pipes i
  taken : ∀ i, i < k → Low pipes i → ∃ u ∈ gaps n pipes b, pipes' i = u
  cover : ∀ u ∈ gaps n pipes b, ∃ i, i < k ∧ Low pipes i ∧ pipes' i = u
  count : (gaps n pipes b).card = (lows pipes k).card
  le : start n pipes ≤ b

variable {n} {pipes pipes' : ℕ → ℤ} {k b : ℕ}

theorem mem_gaps {u : ℕ} : u ∈ gaps n pipes b ↔ start n pipes ≤ u ∧ u < b ∧ Avoids n pipes u := by
  rw [gaps, Finset.mem_filter, Finset.mem_Ico, and_assoc]

theorem lows_succ : lows pipes (k + 1) = if Low pipes k then insert k (lows pipes k) else lows pipes k := by
  rw [lows, Finset.range_add_one, Finset.filter_insert, lows]

theorem not_low_zero : ¬Low pipes 0 := by
  rintro ⟨h0, hlt⟩
  omega

theorem Chosen.init : Chosen n pipes 0 (start n pipes) pipes where
  same := fun _ _ => rfl
  taken := fun _ h => absurd h (Nat.not_lt_zero _)
  cover := by
    intro u hu
    rw [mem_gaps] at hu
    omega
  count := by
    rw [gaps, Finset.Ico_self]
    rfl
  le := le_rfl

theorem Chosen.avoids (h : Chosen n pipes k b pipes') (hk : k ≤ n) {u : ℕ} (hu : start n pipes ≤ u) :
    Avoids n pipes' u ↔ b ≤ u ∧ Avoids n pipes u := by
  constructor
  · intro hav
    have hav₀ : Avoids n pipes u := by
      intro i hi h0 heq
      by_cases hlow : Low pipes i
      · have := le_start n pipes
        omega
      · exact hav i hi h0 (by rw [h.same i (.inr hlow)]; exact heq)
    refine ⟨?_, hav₀⟩
    by_contra hlt
    obtain ⟨i, hi, hlow, heq⟩ := h.cover u (mem_gaps.mpr ⟨hu, by omega, hav₀⟩)
    refine hav i (by omega) (Nat.pos_of_ne_zero ?_) heq
    rintro rfl
    exact not_low_zero hlow
  · intro hor i hi h0 heq
    obtain ⟨hb, hav⟩ := hor
    by_cases hlow : Low pipes i
    · by_cases hik : i < k
      · obtain ⟨v, hv, hvi⟩ := h.taken i hik hlow
        rw [mem_gaps] at hv
        omega
      · rw [h.same i (.inl (by omega))] at heq
        exact hav i hi h0 heq
    · rw [h.same i (.inr hlow)] at heq
      exact hav i hi h0 heq

theorem Chosen.next (h : Chosen n pipes k b pipes') (hk : k < n) :
    b ≤ temp n pipes' ∧ Avoids n pipes (temp n pipes') ∧ ∀ u, b ≤ u → u < temp n pipes' → ¬Avoids n pipes u := by
  have hstart : start n pipes' = start n pipes := by rw [start, h.same 0 (.inr not_low_zero), start]
  obtain ⟨hle, hav, hfirst⟩ := temp_first n pipes' (by omega)
  rw [hstart] at hle hfirst
  obtain ⟨hb, hav₀⟩ := (h.avoids hk.le hle).mp hav
  refine ⟨hb, hav₀, fun u hu hlt hav' => ?_⟩
  have hsu := hu.trans' h.le
  exact hfirst u hsu hlt ((h.avoids hk.le hsu).mpr ⟨hu, hav'⟩)

theorem Chosen.skip (h : Chosen n pipes k b pipes') (hlow : ¬Low pipes k) : Chosen n pipes (k + 1) b pipes' where
  same := by
    intro i hi
    by_cases hik : i = k
    · subst hik
      exact h.same i (.inr hlow)
    · exact h.same i (by omega)
  taken := by
    intro i hi hl
    rcases Nat.lt_succ_iff_lt_or_eq.mp hi with hi | rfl
    · exact h.taken i hi hl
    · exact absurd hl hlow
  cover := by
    intro u hu
    obtain ⟨i, hi, hl⟩ := h.cover u hu
    exact ⟨i, by omega, hl⟩
  count := by
    rw [h.count, lows_succ, if_neg hlow]
  le := h.le

theorem Chosen.take (h : Chosen n pipes k b pipes') (hk : k < n) (hlow : Low pipes k) :
    Chosen n pipes (k + 1) (temp n pipes' + 1) fun i => if i = k then temp n pipes' else pipes' i := by
  obtain ⟨hb, hav, hfirst⟩ := h.next hk
  have hle := h.le
  have hgaps : gaps n pipes (temp n pipes' + 1) = insert (temp n pipes') (gaps n pipes b) := by
    ext u
    rw [Finset.mem_insert, mem_gaps, mem_gaps]
    constructor
    · rintro ⟨hs, hlt, hu⟩
      by_cases heq : u = temp n pipes'
      · exact .inl heq
      · refine .inr ⟨hs, ?_, hu⟩
        by_contra hub
        exact hfirst u (by omega) (by omega) hu
    · rintro (rfl | ⟨hs, hlt, hu⟩)
      · exact ⟨by omega, by omega, hav⟩
      · exact ⟨hs, by omega, hu⟩
  have hnew : temp n pipes' ∉ gaps n pipes b := by
    rw [mem_gaps]
    omega
  refine ⟨fun i hi => ?_, fun i hi hl => ?_, fun u hu => ?_, ?_, by omega⟩
  · by_cases hik : i = k
    · subst hik
      exact absurd hlow (by omega)
    · simp only [if_neg hik]
      exact h.same i (by omega)
  · rw [hgaps]
    by_cases hik : i = k
    · exact ⟨_, Finset.mem_insert_self .., by rw [if_pos hik]⟩
    · obtain ⟨u, hu, heq⟩ := h.taken i (by omega) hl
      exact ⟨u, Finset.mem_insert_of_mem hu, by rw [if_neg hik]; exact heq⟩
  · rw [hgaps, Finset.mem_insert] at hu
    rcases hu with rfl | hu
    · exact ⟨k, Nat.lt_succ_self k, hlow, if_pos rfl⟩
    · obtain ⟨i, hi, hl, heq⟩ := h.cover u hu
      exact ⟨i, by omega, hl, by rw [if_neg (by omega)]; exact heq⟩
  · have hk' : k ∉ lows pipes k := by
      rw [lows, Finset.mem_filter, Finset.mem_range]
      omega
    rw [hgaps, Finset.card_insert_of_notMem hnew, h.count, lows_succ, if_pos hlow, Finset.card_insert_of_notMem hk']

variable (pipes) in
theorem saveLoop_chosen (hk : k ≤ n) : ∃ b, Chosen n pipes k b (saveLoop n pipes k).1 := by
  induction k with
  | zero => exact ⟨_, Chosen.init⟩
  | succ k ih =>
    obtain ⟨b, h⟩ := ih (by omega)
    have hk' := h.same k (.inl le_rfl)
    rw [saveLoop]
    by_cases hlow : Low pipes k
    · rw [if_pos (by rw [Low, hk']; exact hlow)]
      exact ⟨_, h.take (by omega) hlow⟩
    · rw [if_neg (by rw [Low, hk']; exact hlow)]
      exact ⟨b, h.skip hlow⟩

theorem saveLoop_of_le {i j : ℕ} (hj : j ≤ i) : (saveLoop n pipes j).1 i = pipes i := by
  induction j with
  | zero => rfl
  | succ j ih =>
    rw [saveLoop]
    split_ifs
    · simp only [if_neg (show i ≠ j by omega)]
      exact ih (by omega)
    · exact ih (by omega)

theorem low_saveLoop (fd : ℕ) : Low (saveLoop n pipes fd).1 fd ↔ Low pipes fd := by
  rw [Low, saveLoop_of_le le_rfl]

theorem saveLoop_of_low {i : ℕ} (hi : i < k) (hlow : Low pipes i) :
    (saveLoop n pipes k).1 i = temp n (saveLoop n pipes i).1 := by
  induction k with
  | zero => omega
  | succ k ih =>
    rw [saveLoop]
    rcases Nat.lt_succ_iff_lt_or_eq.mp hi with hi | rfl
    · split_ifs
      · simp only [if_neg (show i ≠ k by omega)]
        exact ih hi
      · exact ih hi
    · rw [if_pos ((low_saveLoop i).mpr hlow)]
      exact if_pos rfl

theorem saveLoop_zero (hk : k ≤ n) : (saveLoop n pipes k).1 0 = pipes 0 := by
  obtain ⟨b, h⟩ := saveLoop_chosen pipes hk
  exact h.same 0 (.inr not_low_zero)

variable (n pipes)

/-- Every number is `stdio_count` or above and not in the table at the time. -/
def Fresh : Prop :=
  ∀ fd, fd < n → Low pipes fd → n ≤ temp n (saveLoop n pipes fd).1 ∧
    ∀ i, i < n → (saveLoop n pipes fd).1 i ≠ temp n (saveLoop n pipes fd).1

/-- The first source is above `stdio_count`, not a source of another element, and one of the lowest numbers that are not, of
which as many are taken as there are sources below their targets. -/
def Collides : Prop :=
  n < pipes 0 ∧ Avoids n pipes (pipes 0).toNat ∧ (gaps n pipes (pipes 0).toNat).card < (lows pipes n).card

instance : Decidable (Collides n pipes) :=
  inferInstanceAs (Decidable (n < pipes 0 ∧ Avoids n pipes (pipes 0).toNat ∧ _ < _))

variable {n pipes}

theorem not_collides_of_fresh (h : Fresh n pipes) : ¬Collides n pipes := by
  rintro ⟨hlt, hav, hcard⟩
  obtain ⟨b, hb⟩ := saveLoop_chosen pipes (le_refl n)
  have hstart : start n pipes = n := if_neg (by omega)
  have hpb : (pipes 0).toNat < b := by
    by_contra hle
    refine absurd (Finset.card_le_card (?_ : gaps n pipes b ⊆ gaps n pipes (pipes 0).toNat)) (by rw [hb.count]; omega)
    intro u hu
    rw [mem_gaps] at hu ⊢
    exact ⟨hu.1, by omega, hu.2.2⟩
  obtain ⟨i, hi, hlow, heq⟩ := hb.cover _ (mem_gaps.mpr ⟨by omega, hpb, hav⟩)
  rw [saveLoop_of_low hi hlow] at heq
  refine (h i hi hlow).2 0 (by omega) ?_
  rw [saveLoop_zero hi.le]
  omega

theorem fresh_of_not_collides (h : ¬Collides n pipes) : Fresh n pipes := by
  intro fd hfd hlow
  obtain ⟨b, hb⟩ := saveLoop_chosen pipes hfd.le
  obtain ⟨hle, hav, hfirst⟩ := hb.next hfd
  obtain ⟨hstart, hav', -⟩ := temp_first n (saveLoop n pipes fd).1 (by omega)
  refine ⟨(le_start n _).trans hstart, fun i hi heq => ?_⟩
  rcases Nat.eq_zero_or_pos i with rfl | hpos
  · have hstart₀ : start n (saveLoop n pipes fd).1 = start n pipes := by rw [start, saveLoop_zero hfd.le, start]
    rw [saveLoop_zero hfd.le] at heq
    rw [hstart₀] at hstart
    have hne : pipes 0 ≠ n := by
      intro hp
      rw [start, if_pos hp] at hstart
      omega
    have hn := le_start n pipes
    have ht : (pipes 0).toNat = temp n (saveLoop n pipes fd).1 := by omega
    have hgaps : gaps n pipes (pipes 0).toNat = gaps n pipes b := by
      ext u
      rw [ht, mem_gaps, mem_gaps]
      constructor
      · rintro ⟨hs, hlt, hu⟩
        refine ⟨hs, ?_, hu⟩
        by_contra hub
        exact hfirst u (by omega) hlt hu
      · rintro ⟨hs, hlt, hu⟩
        exact ⟨hs, by omega, hu⟩
    have hlows : lows pipes fd ⊂ lows pipes n := by
      refine ⟨Finset.filter_subset_filter _ (Finset.range_mono hfd.le), fun hsub => ?_⟩
      have := hsub (Finset.mem_filter.mpr ⟨Finset.mem_range.mpr hfd, hlow⟩)
      rw [lows, Finset.mem_filter, Finset.mem_range] at this
      omega
    refine h ⟨by omega, by rw [ht]; exact hav, ?_⟩
    rw [hgaps, hb.count]
    exact Finset.card_lt_card hlows
  · exact hav' i hi hpos heq

theorem fresh_iff : Fresh n pipes ↔ ¬Collides n pipes := ⟨not_collides_of_fresh, fresh_of_not_collides⟩

/-! ## The child -/

variable {F : Type} (null : F) {t : Table F}

/-- Whatever an element's source referred to, `pipes'` refers to. -/
def Keeps (n : ℕ) (pipes pipes' : ℕ → ℤ) (t t' : Table F) : Prop :=
  ∀ i, i < n → 0 ≤ pipes i → 0 ≤ pipes' i ∧
    ∃ d d', t.get (pipes i).toNat = some d ∧ t'.get (pipes' i).toNat = some d' ∧ d'.file = d.file

theorem saveLoop_run (hfresh : Fresh n pipes) (hopen : Keeps n pipes pipes t t) (hk : k ≤ n) :
    ∃ t', runAll null (saveLoop n pipes k).2 t = some t' ∧ Keeps n pipes (saveLoop n pipes k).1 t t' := by
  induction k with
  | zero => exact ⟨t, rfl, hopen⟩
  | succ k ih =>
    obtain ⟨t', hrun, hkeeps⟩ := ih (by omega)
    rw [saveLoop]
    split_ifs with hlow
    · rw [low_saveLoop] at hlow
      obtain ⟨hle, hne⟩ := hfresh k (by omega) hlow
      obtain ⟨h0, d₀, d, hd₀, hd, hfile⟩ := hkeeps k (by omega) hlow.1
      refine ⟨t'.dup2 d (temp n (saveLoop n pipes k).1), ?_, fun i hi h0i => ?_⟩
      · rw [runAll_append, hrun, bind_some, runAll_singleton, Action.run, hd, map_some]
      · dsimp only
        split_ifs with hik
        · subst hik
          refine ⟨by omega, d₀, ⟨d.file, false⟩, hd₀, ?_, hfile⟩
          exact Table.get_set_self ..
        · obtain ⟨hpos, d₁, d', hd₁, hd', hfile'⟩ := hkeeps i hi h0i
          refine ⟨hpos, d₁, d', hd₁, ?_, hfile'⟩
          rw [Table.dup2, Table.get_set_of_ne _ _ (by have := hne i hi; omega)]
          exact hd'
    · exact ⟨t', hrun, hkeeps⟩

theorem runAll_range_succ (f : ℕ → List Action) (k : ℕ) (t : Table F) :
    runAll null ((List.range (k + 1)).flatMap f) t = (runAll null ((List.range k).flatMap f) t).bind (runAll null (f k)) := by
  rw [List.range_succ, List.flatMap_append, runAll_append, List.flatMap_singleton]

theorem placeAction_run {src : ℕ → ℤ} (hle : ∀ i, i < n → 0 ≤ src i → (i : ℤ) ≤ src i)
    (hopen : ∀ i, i < n → 0 ≤ src i → (t.get (src i).toNat).isSome = true) (hk : k ≤ n) :
    ∃ t', runAll null ((List.range k).flatMap (placeAction src)) t = some t' ∧ (∀ x, k ≤ x → t'.get x = t.get x) ∧
      ∀ i, i < k → 0 ≤ src i → ∃ d, t.get (src i).toNat = some d ∧ t'.get i = some ⟨d.file, false⟩ := by
  induction k with
  | zero => exact ⟨t, rfl, fun _ _ => rfl, fun _ h => absurd h (Nat.not_lt_zero _)⟩
  | succ k ih =>
    obtain ⟨t', hrun, habove, hdone⟩ := ih (by omega)
    -- Of the action for `k` only what it leaves in `k` matters.
    suffices hstep : ∃ t'', runAll null (placeAction src k) t' = some t'' ∧ (∀ x, x ≠ k → t''.get x = t'.get x) ∧
        (0 ≤ src k → ∃ d, t.get (src k).toNat = some d ∧ t''.get k = some ⟨d.file, false⟩) by
      obtain ⟨t'', hrun', hne, hsrc⟩ := hstep
      refine ⟨t'', by rw [runAll_range_succ, hrun, bind_some, hrun'], fun x hx => ?_, fun i hi h0 => ?_⟩
      · rw [hne x (by omega)]
        exact habove x (by omega)
      · rcases Nat.lt_succ_iff_lt_or_eq.mp hi with hi | rfl
        · rw [hne i (by omega)]
          exact hdone i hi h0
        · exact hsrc h0
    rw [placeAction]
    split_ifs with hneg h3 heq
    · exact ⟨t', rfl, fun _ _ => rfl, fun h0 => absurd hneg (by omega)⟩
    · exact ⟨_, runAll_singleton .., fun x hx => Table.get_set_of_ne _ _ hx, fun h0 => absurd hneg (by omega)⟩
    · obtain ⟨d, hd⟩ := isSome_iff_exists.mp (hopen k (by omega) (by omega))
      have hd' : t'.get k = some d := by
        rw [habove k le_rfl, ← hd, heq, Int.toNat_natCast]
      refine ⟨t'.setCloexec d k false, ?_, fun x hx => Table.get_set_of_ne _ _ hx, fun _ => ⟨d, hd, Table.get_set_self ..⟩⟩
      rw [runAll_singleton, Action.run, hd', map_some]
    · obtain ⟨d, hd⟩ := isSome_iff_exists.mp (hopen k (by omega) (by omega))
      have hd' : t'.get (src k).toNat = some d := by
        rw [habove _ (by have := hle k (by omega) (by omega); omega), hd]
      refine ⟨t'.dup2 d k, ?_, fun x hx => Table.get_set_of_ne _ _ hx, fun _ => ⟨d, hd, Table.get_set_self ..⟩⟩
      rw [runAll_singleton, Action.run, hd', map_some]

theorem closeAction_run (src : ℕ → ℤ) (k : ℕ) :
    ∃ t', runAll null ((List.range k).flatMap (closeAction n src)) t = some t' ∧ ∀ x, x < n → t'.get x = t.get x := by
  induction k with
  | zero => exact ⟨t, rfl, fun _ _ => rfl⟩
  | succ k ih =>
    obtain ⟨t', hrun, hlow⟩ := ih
    rw [runAll_range_succ, hrun, bind_some, closeAction]
    split_ifs with hn hany
    · exact ⟨t', rfl, hlow⟩
    · exact ⟨t', rfl, hlow⟩
    · refine ⟨_, runAll_singleton .., fun x hx => ?_⟩
      rw [Table.close, Table.get_set_of_ne _ _ (by omega)]
      exact hlow x hx

variable (n pipes)

/-- For every parent in which the sources are open, the actions succeed, and in the new program every descriptor with a source
refers to what the source referred to. -/
def Wires : Prop :=
  ∀ (F : Type) (null : F) (t : Table F), (∀ i, i < n → 0 ≤ pipes i → (t.get (pipes i).toNat).isSome = true) →
    ∃ t', posixSpawn null n pipes t = some t' ∧
      ∀ i, i < n → 0 ≤ pipes i → ∀ d, t.get (pipes i).toNat = some d → t'.get i = some ⟨d.file, false⟩

variable {n pipes}

theorem wires_of_fresh (hfresh : Fresh n pipes) : Wires n pipes := by
  intro F null t hopen
  obtain ⟨b, hb⟩ := saveLoop_chosen pipes (le_refl n)
  have hstart := le_start n pipes
  have hkeeps : Keeps n pipes pipes (cloexecDefault t) (cloexecDefault t) := by
    intro i hi h0
    obtain ⟨d, hd⟩ := isSome_iff_exists.mp (hopen i hi h0)
    have hd' : (cloexecDefault t).get (pipes i).toNat = some ⟨d.file, true⟩ := by
      change (t.get _).map _ = _
      rw [hd, map_some]
    exact ⟨h0, _, _, hd', hd', rfl⟩
  obtain ⟨t₁, hrun₁, hkeeps₁⟩ := saveLoop_run null hfresh hkeeps le_rfl
  have hpos : ∀ i, i < n → 0 ≤ (saveLoop n pipes n).1 i → 0 ≤ pipes i ∧ (i : ℤ) ≤ (saveLoop n pipes n).1 i := by
    intro i hi h0
    by_cases hlow : Low pipes i
    · obtain ⟨u, hu, heq⟩ := hb.taken i hi hlow
      rw [mem_gaps] at hu
      exact ⟨hlow.1, by omega⟩
    · have hsame := hb.same i (.inr hlow)
      omega
  have hopen₁ : ∀ i, i < n → 0 ≤ (saveLoop n pipes n).1 i → (t₁.get ((saveLoop n pipes n).1 i).toNat).isSome = true := by
    intro i hi h0
    obtain ⟨-, d, d', -, hd', -⟩ := hkeeps₁ i hi (hpos i hi h0).1
    rw [hd', isSome_some]
  obtain ⟨t₂, hrun₂, -, hdone⟩ := placeAction_run null (fun i hi h0 => (hpos i hi h0).2) hopen₁ le_rfl
  obtain ⟨t₃, hrun₃, hlow₃⟩ := closeAction_run null (n := n) (t := t₂) (saveLoop n pipes n).1 n
  refine ⟨t₃.exec, ?_, fun i hi h0 d hd => ?_⟩
  · rw [posixSpawn, fileActions, runAll_append, runAll_append, hrun₁, bind_some, hrun₂, bind_some, hrun₃, map_some]
  · obtain ⟨h0', d₁, d', hd₁, hd', hfile⟩ := hkeeps₁ i hi h0
    obtain ⟨d₂, hd₂, hget⟩ := hdone i hi h0'
    rw [hd'] at hd₂
    cases hd₂
    have hfile₁ : d₁.file = d.file := by
      change (t.get _).map _ = _ at hd₁
      rw [hd] at hd₁
      cases hd₁
      rfl
    refine Table.get_exec _ ?_
    rw [hlow₃ i hi, hget, hfile, hfile₁]

/-- The tables for which the numbers are free and the child gets what it is to get. -/
theorem wires_iff (n : ℕ) (pipes : ℕ → ℤ) : (Fresh n pipes ∧ Wires n pipes) ↔ ¬Collides n pipes :=
  ⟨fun h => fresh_iff.mp h.1, fun h => ⟨fresh_iff.mpr h, wires_of_fresh (fresh_iff.mpr h)⟩⟩

end

def collisionPipes (i : ℕ) : ℤ := [4, 3, 0].getD i (-1)

def collisionParent : Table ℕ where
  get := fun fd => if fd < 5 then some ⟨fd, false⟩ else none
  bound := 5
  free_above := by
    intro fd h
    rw [if_neg (by omega)]

theorem collision_temp : temp 3 collisionPipes = 4 := by
  -- 3 is met at the second element; 4 is then compared with the second and the third.
  rw [temp, scan, if_pos (by decide), if_neg (by decide), scan, if_pos (by decide), if_pos (by decide), scan, if_pos (by decide),
    if_neg (by decide), scan, if_pos (by decide), if_neg (by decide), scan, if_neg (by decide)]

theorem collision_actions :
    fileActions 3 collisionPipes = [.dup2 0 4, .dup2 4 0, .dup2 3 1, .dup2 4 2, .close 4, .close 3] := by
  have h₁ : saveLoop 3 collisionPipes 1 = (collisionPipes, []) := by
    rw [saveLoop]
    exact if_neg (by decide)
  have h₂ : saveLoop 3 collisionPipes 2 = (collisionPipes, []) := by
    rw [saveLoop]
    exact if_neg (by decide)
  have h : saveLoop 3 collisionPipes 3 = (fun i => if i = 2 then 4 else collisionPipes i, [.dup2 0 4]) := by
    rw [saveLoop, h₂]
    rw [collision_temp]
    rfl
  rw [fileActions, h]
  rfl

/-- The source of 2 is copied to 4, the source of 0, and both get the file of 0. -/
theorem collision :
    (∃ t', posixSpawn 9 3 collisionPipes collisionParent = some t' ∧ t'.get 0 = some ⟨0, false⟩) ∧
    collisionParent.get (collisionPipes 0).toNat = some ⟨4, false⟩ ∧ ¬(Fresh 3 collisionPipes ∧ Wires 3 collisionPipes) := by
  refine ⟨⟨_, by rw [posixSpawn, collision_actions]; rfl, rfl⟩, rfl, fun h => ?_⟩
  obtain ⟨t', ht', hwires⟩ := h.2 ℕ 9 collisionParent (by decide)
  rw [posixSpawn, collision_actions] at ht'
  cases ht'
  exact absurd (hwires 0 (by decide) (by decide) ⟨4, false⟩ rfl) (by decide)

end Libuv.L2.SpawnActions
