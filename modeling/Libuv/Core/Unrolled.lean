import Mathlib.Data.List.FinRange
import Mathlib.Logic.Function.Basic
import Mathlib.Tactic

/-!
# Unrolled linked lists

A memory of blocks, each with `N` slots and a pointer that may be null. `Unrolled` says what a
list of `top + 1` blocks holds: the block `j`, counted from the far end, is at `addr j` and its
slot `i` holds `elem j i`. Only the block in front may be partly filled; it uses its first
`fill` slots.

* `Unrolled.write`, `Unrolled.shrink`: one slot is stored into or the front block gives up slots.
* `Unrolled.grow`, `Unrolled.drop`: a block is put in front or taken off.
* `Unrolled.search`: the walk along the blocks behind one finds what they hold, and no more.
-/
namespace Libuv

/-- `N` slots and a pointer to the next block. -/
structure Block (A E : Type*) (N : ℕ) where
  entries : Fin N → E
  next : Option A

variable {A E : Type*} {N : ℕ}

namespace Block
variable (b : Block A E N)

/-- The first of the first `n` slots with `p`. -/
def find (p : E → Bool) (n : ℕ) : Option (Fin N) :=
  (List.finRange N).find? fun i => decide (i.val < n) && p (b.entries i)

def set (i : Fin N) (e : E) : Block A E N := { b with entries := Function.update b.entries i e }


@[simp] theorem set_entries (i : Fin N) (e : E) : (b.set i e).entries = Function.update b.entries i e := rfl

variable {b}

theorem find_some {p : E → Bool} {n : ℕ} {i : Fin N} (h : b.find p n = some i) : i.val < n ∧ p (b.entries i) = true := by
  simpa using List.find?_some h

theorem find_none {p : E → Bool} {n : ℕ} (h : b.find p n = none) (i : Fin N) (hi : i.val < n) : p (b.entries i) = false := by
  have := List.find?_eq_none.1 h i (List.mem_finRange i)
  simpa [hi] using this

end Block

/-- The walk along the blocks from a pointer on, all slots of each; `none` when it meets a
block that is not there or more than so many blocks. -/
def searchBlocks (mem : A → Option (Block A E N)) (p : E → Bool) : ℕ → Option A → Option (Option (A × Fin N))
  | _, none => some none
  | 0, some _ => none
  | n + 1, some a =>
    match mem a with
    | none => none
    | some b =>
      match b.find p N with
      | some i => some (some (a, i))
      | none => searchBlocks mem p n b.next

def blocksFrom (mem : A → Option (Block A E N)) : ℕ → Option A → List A
  | _, none => []
  | 0, some _ => []
  | n + 1, some a => a :: blocksFrom mem n ((mem a).bind Block.next)

/-- The pointer in the block `j`. -/
def below (addr : ℕ → A) : ℕ → Option A
  | 0 => none
  | j + 1 => some (addr j)

/-- The slot `i` of the block `j` is in use. -/
def Live (top fill j i : ℕ) : Prop := j < top ∨ j = top ∧ i < fill

structure Unrolled (mem : A → Option (Block A E N)) (data : A) (top fill : ℕ) (addr : ℕ → A) (elem : ℕ → Fin N → E) :
    Prop where
  front : addr top = data
  block : ∀ j ≤ top, ∃ b, mem (addr j) = some b ∧ b.next = below addr j ∧ ∀ i : Fin N, Live top fill j i → b.entries i = elem j i
  inj : ∀ j ≤ top, ∀ k ≤ top, addr j = addr k → j = k

/-- `elem` with one slot stored into. -/
def stored (elem : ℕ → Fin N → E) (j : ℕ) (i : Fin N) (e : E) : ℕ → Fin N → E :=
  Function.update elem j (Function.update (elem j) i e)

@[simp] theorem stored_self (elem : ℕ → Fin N → E) (j : ℕ) (i : Fin N) (e : E) : stored elem j i e j i = e := by
  simp [stored]

theorem stored_of_ne (elem : ℕ → Fin N → E) {j k : ℕ} {i l : Fin N} (e : E) (h : ¬ (k = j ∧ l = i)) :
    stored elem j i e k l = elem k l := by
  unfold stored
  by_cases hk : k = j
  · subst hk
    have hl : l ≠ i := fun hl => h ⟨rfl, hl⟩
    simp [hl]
  · simp [hk]

theorem below_congr {addr addr' : ℕ → A} {j : ℕ} (h : ∀ k < j, addr' k = addr k) : below addr' j = below addr j := by
  cases j with
  | zero => rfl
  | succ j => exact congrArg some (h j (Nat.lt_succ_self j))

namespace Unrolled
variable {mem mem' : A → Option (Block A E N)} {data : A} {top fill : ℕ} {addr : ℕ → A} {elem : ℕ → Fin N → E}

theorem congr (h : Unrolled mem data top fill addr elem) (hm : ∀ j ≤ top, mem' (addr j) = mem (addr j)) :
    Unrolled mem' data top fill addr elem := by
  refine ⟨h.front, fun j hj => ?_, h.inj⟩
  rw [hm j hj]
  exact h.block j hj

theorem data_block (h : Unrolled mem data top fill addr elem) :
    ∃ b, mem data = some b ∧ b.next = below addr top ∧ ∀ i : Fin N, i.val < fill → b.entries i = elem top i := by
  obtain ⟨b, hb, hn, he⟩ := h.block top le_rfl
  rw [h.front] at hb
  exact ⟨b, hb, hn, fun i hi => he i (.inr ⟨rfl, hi⟩)⟩

theorem write [DecidableEq A] (h : Unrolled mem data top fill addr elem) {j fill' : ℕ} {i : Fin N} {b : Block A E N} (hj : j ≤ top)
    (hb : mem (addr j) = some b) (e : E) (hf : ∀ k l, Live top fill' k l → Live top fill k l ∨ k = j ∧ l = i.val) :
    Unrolled (Function.update mem (addr j) (some (b.set i e))) data top fill' addr (stored elem j i e) := by
  refine ⟨h.front, fun k hk => ?_, h.inj⟩
  obtain ⟨c, hc, hn, he⟩ := h.block k hk
  have hlive : ∀ l : Fin N, Live top fill' k l.val → ¬ (k = j ∧ l = i) → c.entries l = elem k l := by
    intro l hl hne
    refine he l ((hf k l.val hl).resolve_right fun hh => hne ⟨hh.1, Fin.ext hh.2⟩)
  by_cases hkj : k = j
  · subst hkj
    rw [hb] at hc
    cases hc
    refine ⟨b.set i e, Function.update_self .., hn, fun l hl => ?_⟩
    by_cases hli : l = i
    · subst hli
      simp
    · rw [stored_of_ne _ _ fun hh => hli hh.2, Block.set_entries, Function.update_of_ne hli]
      exact hlive l hl fun hh => hli hh.2
  · have hne : addr k ≠ addr j := fun e => hkj (h.inj k hk j hj e)
    refine ⟨c, by rw [Function.update_of_ne hne, hc], hn, fun l hl => ?_⟩
    rw [stored_of_ne _ _ fun hh => hkj hh.1]
    exact hlive l hl fun hh => hkj hh.1

theorem shrink (h : Unrolled mem data top fill addr elem) {fill' : ℕ} (hf : fill' ≤ fill) :
    Unrolled mem data top fill' addr elem := by
  refine ⟨h.front, fun j hj => ?_, h.inj⟩
  obtain ⟨b, hb, hn, he⟩ := h.block j hj
  exact ⟨b, hb, hn, fun i hi => he i (hi.imp_right fun hh => ⟨hh.1, hh.2.trans_le hf⟩)⟩

theorem grow [DecidableEq A] (h : Unrolled mem data top N addr elem) {a : A} (ha : ∀ j ≤ top, addr j ≠ a) (entries : Fin N → E) :
    Unrolled (Function.update mem a (some ⟨entries, some data⟩)) a (top + 1) 0 (Function.update addr (top + 1) a) elem := by
  have hold : ∀ j ≤ top, Function.update addr (top + 1) a j = addr j := fun j hj =>
    Function.update_of_ne (by omega) ..
  have hnew : Function.update addr (top + 1) a (top + 1) = a := Function.update_self ..
  refine ⟨hnew, fun j hj => ?_, fun j hj k hk e => ?_⟩
  · rw [below_congr fun k hk => hold k (by omega)]
    rcases Nat.le_succ_iff.1 hj with hj | rfl
    · obtain ⟨b, hb, hn, he⟩ := h.block j hj
      rw [hold j hj, Function.update_of_ne (ha j hj)]
      refine ⟨b, hb, hn, fun i _ => he i ?_⟩
      rcases Nat.lt_or_eq_of_le hj with hj | hj
      · exact .inl hj
      · exact .inr ⟨hj, i.isLt⟩
    · rw [hnew, Function.update_self]
      refine ⟨_, rfl, ?_, fun i hi => ?_⟩
      · rw [below, h.front]
      · rcases hi with hi | ⟨-, hi⟩ <;> omega
  · rcases Nat.le_succ_iff.1 hj with hj | rfl <;> rcases Nat.le_succ_iff.1 hk with hk | rfl
    · rw [hold j hj, hold k hk] at e
      exact h.inj j hj k hk e
    · rw [hold j hj, hnew] at e
      exact absurd e (ha j hj)
    · rw [hnew, hold k hk] at e
      exact absurd e.symm (ha k hk)
    · rfl

theorem drop [DecidableEq A] (h : Unrolled mem data (top + 1) fill addr elem) :
    Unrolled (Function.update mem data none) (addr top) top N addr elem := by
  refine ⟨rfl, fun j hj => ?_, fun j hj k hk => h.inj j (by omega) k (by omega)⟩
  obtain ⟨b, hb, hn, he⟩ := h.block j (by omega)
  have hne : addr j ≠ data := by
    intro e
    rw [← h.front] at e
    have := h.inj j (by omega) (top + 1) le_rfl e
    omega
  refine ⟨b, by rw [Function.update_of_ne hne, hb], hn, fun i _ => he i (.inl ?_)⟩
  omega

theorem blocks (h : Unrolled mem data top fill addr elem) {j n : ℕ} (hj : j ≤ top + 1) (hn : j ≤ n) :
    blocksFrom mem n (below addr j) = ((List.range j).map addr).reverse := by
  induction j generalizing n with
  | zero => rw [below, blocksFrom]; rfl
  | succ j ih =>
    obtain ⟨n, rfl⟩ : ∃ m, n = m + 1 := Nat.exists_eq_add_one_of_ne_zero (by omega)
    obtain ⟨b, hb, hnext, -⟩ := h.block j (by omega)
    rw [below, blocksFrom, hb, Option.bind_some, hnext, ih (by omega) (by omega), List.range_succ, List.map_append,
      List.reverse_append]
    rfl

/-- **The walk** along the `j` blocks farthest away. -/
theorem search (h : Unrolled mem data top fill addr elem) (p : E → Bool) {j n : ℕ} (hj : j ≤ top) (hn : j ≤ n) :
    searchBlocks mem p n (below addr j) = some none ∧ (∀ k < j, ∀ i, p (elem k i) = false) ∨
      ∃ k < j, ∃ i, p (elem k i) = true ∧ searchBlocks mem p n (below addr j) = some (some (addr k, i)) := by
  induction j generalizing n with
  | zero =>
    refine .inl ⟨?_, fun k hk => absurd hk (Nat.not_lt_zero k)⟩
    rw [below, searchBlocks]
  | succ j ih =>
    obtain ⟨n, rfl⟩ : ∃ m, n = m + 1 := Nat.exists_eq_add_one_of_ne_zero (by omega)
    obtain ⟨b, hb, hnext, he⟩ := h.block j (by omega)
    have hlive : ∀ i : Fin N, b.entries i = elem j i := fun i => he i (.inl hj)
    rw [below, searchBlocks, hb]
    cases hf : b.find p N with
    | some i =>
      refine .inr ⟨j, Nat.lt_succ_self j, i, ?_, by simp [hf]⟩
      rw [← hlive i]
      exact (Block.find_some hf).2
    | none =>
      simp only [hf, hnext]
      rcases ih (by omega) (Nat.le_of_succ_le_succ hn) with ⟨hs, hno⟩ | ⟨k, hk, i, hp, hs⟩
      · refine .inl ⟨hs, fun k hk i => ?_⟩
        rcases Nat.lt_succ_iff_lt_or_eq.1 hk with hk | rfl
        · exact hno k hk i
        · rw [← hlive i]
          exact Block.find_none hf i i.isLt
      · exact .inr ⟨k, by omega, i, hp, hs⟩

end Unrolled

end Libuv
