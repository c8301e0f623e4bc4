import Mathlib.Data.Nat.Basic
import Mathlib.Tactic.Common

/-!
# Descriptor tables

The descriptors of one process: what each of finitely many numbers refers to, and whether it is closed on exec. A call that
opens a descriptor without saying which takes the lowest number that is free, or the lowest from a given one on.

* `firstFree`: the number that is taken; `get_firstFree`, `get_isSome_of_lt_firstFree` are all that is known of it.
* `dup2`, `close`, `setCloexec`, `exec`: what each leaves in a number.
-/
namespace Libuv.Fds

/-- A number's entry: the open file, `FD_CLOEXEC`. -/
structure Desc (F : Type*) where
  file : F
  cloexec : Bool
  deriving DecidableEq

structure Table (F : Type*) where
  get : ℕ → Option (Desc F)
  bound : ℕ
  free_above : ∀ fd, bound ≤ fd → get fd = none

namespace Table

variable {F : Type*} (t : Table F)

def set (fd : ℕ) (d : Option (Desc F)) : Table F where
  get := fun x => if x = fd then d else t.get x
  bound := max t.bound (fd + 1)
  free_above := by
    intro x hx
    rw [if_neg (by omega)]
    exact t.free_above x (by omega)

/-- A search from `fd` on, over `k` numbers. -/
def search (get : ℕ → Option (Desc F)) : ℕ → ℕ → ℕ
  | 0, fd => fd
  | k + 1, fd => if (get fd).isNone then fd else search get k (fd + 1)

def firstFree (n : ℕ) : ℕ := search t.get (t.bound - n) n

@[simp] theorem get_set (fd : ℕ) (d : Option (Desc F)) (x : ℕ) :
    (t.set fd d).get x = if x = fd then d else t.get x := rfl

theorem get_set_self (fd : ℕ) (d : Option (Desc F)) : (t.set fd d).get fd = d := by simp

theorem get_set_of_ne {fd x : ℕ} (d : Option (Desc F)) (h : x ≠ fd) : (t.set fd d).get x = t.get x := by simp [h]

theorem le_search (get : ℕ → Option (Desc F)) (k : ℕ) : ∀ fd, fd ≤ search get k fd := by
  induction k with
  | zero => exact fun fd => le_rfl
  | succ k ih =>
    intro fd
    rw [search]
    split_ifs
    · exact le_rfl
    · have := ih (fd + 1)
      omega

theorem get_of_lt_search (get : ℕ → Option (Desc F)) (k : ℕ) :
    ∀ fd x, fd ≤ x → x < search get k fd → (get x).isSome = true := by
  induction k with
  | zero =>
    intro fd x hle hlt
    rw [search] at hlt
    omega
  | succ k ih =>
    intro fd x hle hlt
    rw [search] at hlt
    split_ifs at hlt with hget
    · omega
    · rcases Nat.eq_or_lt_of_le hle with rfl | hlt'
      · exact Option.isSome_iff_ne_none.mpr fun hnone => hget (by rw [hnone, Option.isNone_none])
      · exact ih (fd + 1) x hlt' hlt

theorem get_search (get : ℕ → Option (Desc F)) (k : ℕ) :
    ∀ fd, (∀ x, fd + k ≤ x → get x = none) → get (search get k fd) = none := by
  induction k with
  | zero => exact fun fd h => h fd le_rfl
  | succ k ih =>
    intro fd h
    rw [search]
    split_ifs with hget
    · exact Option.isNone_iff_eq_none.mp hget
    · exact ih (fd + 1) fun x hx => h x (by omega)

theorem le_firstFree (n : ℕ) : n ≤ t.firstFree n := le_search ..

theorem get_firstFree (n : ℕ) : t.get (t.firstFree n) = none :=
  get_search _ _ _ fun x hx => t.free_above x (by omega)

theorem get_isSome_of_lt_firstFree {n x : ℕ} (hn : n ≤ x) (hx : x < t.firstFree n) : (t.get x).isSome = true :=
  get_of_lt_search _ _ _ _ hn hx

theorem search_le (get : ℕ → Option (Desc F)) (k : ℕ) : ∀ fd, search get k fd ≤ fd + k := by
  induction k with
  | zero => exact fun _ => le_rfl
  | succ k ih =>
    intro fd
    rw [search]
    split_ifs
    · omega
    · have := ih (fd + 1)
      omega

theorem firstFree_le (n : ℕ) : t.firstFree n ≤ max n t.bound := by
  have := search_le t.get (t.bound - n) n
  rw [firstFree]
  omega

theorem ne_firstFree {n x : ℕ} {d : Desc F} (h : t.get x = some d) : x ≠ t.firstFree n := by
  rintro rfl
  rw [t.get_firstFree] at h
  cases h

/-- Everything from `n` to `m` is open, and `m` is not. -/
theorem firstFree_eq {n m : ℕ} (hle : n ≤ m) (hm : t.get m = none) (h : ∀ x, n ≤ x → x < m → (t.get x).isSome = true) :
    t.firstFree n = m := by
  rcases lt_trichotomy (t.firstFree n) m with hlt | heq | hgt
  · have := h _ (t.le_firstFree n) hlt
    rw [t.get_firstFree] at this
    cases this
  · exact heq
  · have := t.get_isSome_of_lt_firstFree hle hgt
    rw [hm] at this
    cases this

/-- `dup2` onto another number. -/
def dup2 (d : Desc F) (fd : ℕ) : Table F := t.set fd (some ⟨d.file, false⟩)

def setCloexec (d : Desc F) (fd : ℕ) (cloexec : Bool) : Table F := t.set fd (some ⟨d.file, cloexec⟩)

def close (fd : ℕ) : Table F := t.set fd none

def exec : Table F where
  get := fun fd => (t.get fd).filter (!·.cloexec)
  bound := t.bound
  free_above := by
    intro fd h
    rw [t.free_above fd h, Option.filter_none]

theorem get_exec {fd : ℕ} {f : F} (h : t.get fd = some ⟨f, false⟩) : t.exec.get fd = some ⟨f, false⟩ := by
  rw [show t.exec.get fd = (t.get fd).filter (!·.cloexec) from rfl, h]
  rfl

end Table

end Libuv.Fds
