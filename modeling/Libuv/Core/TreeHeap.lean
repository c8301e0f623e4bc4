import Mathlib.Tactic
import Mathlib.Logic.Equiv.Basic

/-!
# Heap order on the level-order numbering of a binary tree

`Layout α` says which element sits at each position of a binary tree: the root is
position 1, the children of `i` are `2 * i` and `2 * i + 1`, so the parent of `i` is
`i / 2` and position 0 is the (empty) parent of the root. Nothing here depends on
how a tree is stored.

* `Complete s n`: the positions `1..n` and no others are filled, no element twice,
  i.e. the complete binary tree of `n` elements filled left to right.
* `Ordered lt s`: no element is `lt` its parent. `Ordered.root_min`: for a strict
  weak order no element is `lt` the root.
* `UpOk` / `DownOk`: the order with one element out of place, on its way up / on
  its way down. `UpOk.move`, `UpOk.ordered`, `DownOk.move`, `DownOk.up` are the
  steps of the two sifts; every one of them is a `swap` of a position with its
  parent.
-/
namespace Libuv.TreeHeap

variable {α : Type*}

/-! ## Strict weak orders -/

/-- The usual definition: irreflexive, transitive, and incomparability is
transitive. -/
structure StrictWeakOrder (lt : α → α → Bool) : Prop where
  irrefl : ∀ a, lt a a = false
  trans : ∀ a b c, lt a b = true → lt b c = true → lt a c = true
  incomp_trans : ∀ a b c, lt a b = false → lt b a = false → lt b c = false → lt c b = false →
    lt a c = false ∧ lt c a = false

namespace StrictWeakOrder
variable {lt : α → α → Bool} (hl : StrictWeakOrder lt)
include hl

theorem asymm {a b : α} (h : lt a b = true) : lt b a = false := by
  cases hb : lt b a with
  | false => rfl
  | true =>
    have := hl.trans a b a h hb
    rw [hl.irrefl a] at this; cases this

theorem negTrans {a b c : α} (h₁ : lt a b = false) (h₂ : lt b c = false) : lt a c = false := by
  cases hac : lt a c with
  | false => rfl
  | true =>
    -- `b < a` or `c < b` would put `b` strictly on one side; otherwise all three are level
    have hba : lt b a = false := by
      cases hba : lt b a with
      | false => rfl
      | true => rw [hl.trans b a c hba hac] at h₂; cases h₂
    have hcb : lt c b = false := by
      cases hcb : lt c b with
      | false => rfl
      | true => rw [hl.trans a c b hac hcb] at h₁; cases h₁
    have := (hl.incomp_trans a b c h₁ hba h₂ hcb).1
    rw [hac] at this; cases this

end StrictWeakOrder

/-! ## Layouts -/

abbrev Layout (α : Type*) := ℕ → Option α

structure Complete (s : Layout α) (n : ℕ) : Prop where
  filled : ∀ i, (s i).isSome = true ↔ 1 ≤ i ∧ i ≤ n
  inj : ∀ {i j x}, s i = some x → s j = some x → i = j

/-- Positions `i` and `j` exchanged. -/
def swap (s : Layout α) (i j : ℕ) : Layout α := fun k =>
  if k = i then s j else if k = j then s i else s k

@[simp] theorem swap_left (s : Layout α) (i j : ℕ) : swap s i j i = s j := if_pos rfl

@[simp] theorem swap_right (s : Layout α) (i j : ℕ) : swap s i j j = s i := by
  unfold swap
  split
  · next h => rw [h]
  · exact if_pos rfl

theorem swap_other (s : Layout α) {i j k : ℕ} (hi : k ≠ i) (hj : k ≠ j) : swap s i j k = s k := by
  unfold swap; rw [if_neg hi, if_neg hj]

/-- Position `i` overwritten. -/
def put (s : Layout α) (i : ℕ) (o : Option α) : Layout α := fun k => if k = i then o else s k

@[simp] theorem put_same (s : Layout α) (i : ℕ) (o : Option α) : put s i o i = o := if_pos rfl

theorem put_other (s : Layout α) {i k : ℕ} (o : Option α) (h : k ≠ i) : put s i o k = s k := if_neg h

namespace Complete
variable {s : Layout α} {n : ℕ} (hc : Complete s n)
include hc

theorem range {i : ℕ} {x : α} (h : s i = some x) : 1 ≤ i ∧ i ≤ n :=
  (hc.filled i).mp (by simp [h])

theorem get {i : ℕ} (h1 : 1 ≤ i) (hn : i ≤ n) : ∃ x, s i = some x :=
  Option.isSome_iff_exists.mp ((hc.filled i).mpr ⟨h1, hn⟩)

theorem none_of {i : ℕ} (h : ¬ (1 ≤ i ∧ i ≤ n)) : s i = none := by
  cases e : s i with
  | none => rfl
  | some x => exact absurd (hc.range e) h

theorem zero : s 0 = none := hc.none_of (by omega)

theorem swap {i j : ℕ} (hi : 1 ≤ i ∧ i ≤ n) (hj : 1 ≤ j ∧ j ≤ n) :
    Complete (TreeHeap.swap s i j) n where
  filled k := by
    unfold TreeHeap.swap
    split
    · subst k; rw [hc.filled]; tauto
    · split
      · subst k; rw [hc.filled]; tauto
      · exact hc.filled k
  inj := by
    intro a b x ha hb
    unfold TreeHeap.swap at ha hb
    have key : ∀ {u v : ℕ}, s u = some x → s v = some x → u = v := hc.inj
    split_ifs at ha hb <;> have := key ha hb <;> omega

theorem push {x : α} (hx : ∀ i, s i ≠ some x) : Complete (put s (n + 1) (some x)) (n + 1) where
  filled k := by
    unfold put
    split
    · subst k; simp
    · rw [hc.filled]; omega
  inj := by
    intro a b y ha hb
    unfold put at ha hb
    split_ifs at ha hb with h1 h2 h2
    · omega
    · cases ha; exact absurd hb (hx b)
    · cases hb; exact absurd ha (hx a)
    · exact hc.inj ha hb

theorem pop (hn : 1 ≤ n) : Complete (put s n none) (n - 1) where
  filled k := by
    unfold put
    split
    · subst k; simp; omega
    · rw [hc.filled]; omega
  inj := by
    intro a b y ha hb
    unfold put at ha hb
    split_ifs at ha hb
    exact hc.inj ha hb

theorem replace {i : ℕ} {x : α} (hi : 1 ≤ i ∧ i ≤ n) (hx : ∀ j, j ≠ i → s j ≠ some x) :
    Complete (put s i (some x)) n where
  filled k := by
    unfold put
    split
    · subst k; simpa using hi
    · exact hc.filled k
  inj := by
    intro a b y ha hb
    unfold put at ha hb
    split_ifs at ha hb with h1 h2 h2
    · omega
    · cases ha; exact absurd hb (hx b h2)
    · cases hb; exact absurd ha (hx a h1)
    · exact hc.inj ha hb

end Complete

/-! ## Order -/

section Order
variable (lt : α → α → Bool)

/-- The element at `i` is not `lt` the one at its parent. -/
def EdgeOk (s : Layout α) (i : ℕ) : Prop :=
  ∀ x p, s i = some x → s (i / 2) = some p → lt x p = false

def Ordered (s : Layout α) : Prop := ∀ i, EdgeOk lt s i

/-- No child of `i` is `lt` the parent of `i`. -/
def GrandOk (s : Layout α) (i : ℕ) : Prop :=
  ∀ j x g, j / 2 = i → s j = some x → s (i / 2) = some g → lt x g = false

/-- Only the edge above `i` may be out of order. -/
structure UpOk (s : Layout α) (i : ℕ) : Prop where
  edge : ∀ j, j ≠ i → EdgeOk lt s j
  grand : GrandOk lt s i

/-- Only the edges above and below `i` may be out of order. -/
structure DownOk (s : Layout α) (i : ℕ) : Prop where
  edge : ∀ j, j ≠ i → j / 2 ≠ i → EdgeOk lt s j
  grand : GrandOk lt s i

variable {lt} {s : Layout α} {n : ℕ}

theorem Ordered.root_min (hl : StrictWeakOrder lt) (hc : Complete s n) (ho : Ordered lt s) {r : α}
    (hr : s 1 = some r) : ∀ i x, s i = some x → lt x r = false := by
  intro i
  induction i using Nat.strongRecOn with
  | ind i ih =>
    intro x hx
    have hi := hc.range hx
    by_cases h1 : i = 1
    · subst h1
      rw [hr] at hx; cases hx
      exact hl.irrefl r
    · obtain ⟨p, hp⟩ := hc.get (i := i / 2) (by omega) (by omega)
      exact hl.negTrans (ho i x p hx hp) (ih (i / 2) (by omega) p hp)

theorem UpOk.ordered {i : ℕ} (h : UpOk lt s i) (he : EdgeOk lt s i) : Ordered lt s := by
  intro j
  by_cases hj : j = i
  · exact hj ▸ he
  · exact h.edge j hj

theorem Ordered.up (ho : Ordered lt s) (hl : StrictWeakOrder lt) {i : ℕ} (hc : Complete s n)
    (hi : 1 ≤ i ∧ i ≤ n) : UpOk lt s i where
  edge j _ := ho j
  grand j x g hj hx hg := by
    obtain ⟨y, hy⟩ := hc.get hi.1 hi.2
    exact hl.negTrans (ho j x y hx (hj ▸ hy)) (ho i y g hy hg)

/-- The element at `i`, smaller than its parent, trades places with it. -/
theorem UpOk.move (hl : StrictWeakOrder lt) {i : ℕ} {x p : α} (hi : 2 ≤ i) (h : UpOk lt s i)
    (hx : s i = some x) (hp : s (i / 2) = some p) (hlt : lt x p = true) :
    UpOk lt (swap s i (i / 2)) (i / 2) := by
  have hxp := hl.asymm hlt
  constructor
  · intro j hj a b ha hb
    unfold swap at ha hb
    by_cases hji : j = i
    · -- the old parent, now below the risen element
      subst hji
      rw [if_pos rfl] at ha
      rw [if_neg (by omega), if_pos rfl] at hb
      rw [hp] at ha; rw [hx] at hb; cases ha; cases hb
      exact hxp
    · rw [if_neg hji, if_neg hj] at ha
      by_cases h1 : j / 2 = i
      · rw [if_pos h1, hp] at hb; cases hb
        exact h.grand j a p h1 ha hp
      · rw [if_neg h1] at hb
        by_cases h2 : j / 2 = i / 2
        · rw [if_pos h2, hx] at hb; cases hb
          have := h.edge j hji a p ha (h2 ▸ hp)
          exact hl.negTrans this hxp
        · rw [if_neg h2] at hb
          exact h.edge j hji a b ha hb
  · intro j a g hj ha hg
    unfold swap at ha hg
    rw [if_neg (by omega), if_neg (by omega)] at hg
    have hpg : lt p g = false := h.edge (i / 2) (by omega) p g hp hg
    by_cases hji : j = i
    · rw [if_pos hji, hp] at ha; cases ha
      exact hpg
    · split_ifs at ha with h1
      · omega
      · exact hl.negTrans (h.edge j hji a p ha (hj ▸ hp)) hpg

theorem DownOk.up {i : ℕ} (h : DownOk lt s i) (he : ∀ j, j / 2 = i → j ≠ i → EdgeOk lt s j) :
    UpOk lt s i where
  edge j hj := by
    by_cases h1 : j / 2 = i
    · exact he j h1 hj
    · exact h.edge j hj h1
  grand := h.grand

/-- The element at `i` trades places with its smallest child, at `c`. -/
theorem DownOk.move {i c : ℕ} {y : α} (hi : 1 ≤ i) (h : DownOk lt s i) (hc : c / 2 = i)
    (hy : s c = some y)
    (hmin : ∀ j z, j / 2 = i → s j = some z → lt z y = false) :
    DownOk lt (swap s c i) c := by
  constructor
  · intro j hj hj2 a b ha hb
    unfold swap at ha hb
    rw [if_neg hj] at ha
    rw [if_neg hj2] at hb
    by_cases h1 : j = i
    · subst h1
      rw [if_pos rfl, hy] at ha; cases ha
      rw [if_neg (by omega)] at hb
      exact h.grand c y b hc hy hb
    · rw [if_neg h1] at ha
      by_cases h2 : j / 2 = i
      · rw [if_pos h2, hy] at hb; cases hb
        exact hmin j a h2 ha
      · rw [if_neg h2] at hb
        exact h.edge j h1 h2 a b ha hb
  · intro j a g hj ha hg
    unfold swap at ha hg
    rw [if_neg (by omega), if_pos hc, hy] at hg; cases hg
    rw [if_neg (by omega), if_neg (by omega)] at ha
    exact h.edge j (by omega) (by omega) a y ha (hj ▸ hy)

theorem Ordered.replace (ho : Ordered lt s) (hl : StrictWeakOrder lt) (hc : Complete s n) {i : ℕ}
    (hi : 1 ≤ i ∧ i ≤ n) (x : α) : DownOk lt (put s i (some x)) i where
  edge j hj hj2 a b ha hb := by
    unfold put at ha hb
    rw [if_neg hj] at ha; rw [if_neg hj2] at hb
    exact ho j a b ha hb
  grand j a g hj ha hg := by
    unfold put at ha hg
    rw [if_neg (by omega)] at ha; rw [if_neg (by omega)] at hg
    exact (ho.up hl hc hi).grand j a g hj ha hg

theorem Ordered.pop (ho : Ordered lt s) (k : ℕ) : Ordered lt (put s k none) := by
  intro j a b ha hb
  unfold put at ha hb
  split_ifs at ha hb
  exact ho j a b ha hb

theorem Ordered.push (ho : Ordered lt s) (hc : Complete s n) (x : α) :
    UpOk lt (put s (n + 1) (some x)) (n + 1) where
  edge j hj a b ha hb := by
    unfold put at ha hb
    rw [if_neg hj] at ha
    have := hc.range ha
    rw [if_neg (by omega)] at hb
    exact ho j a b ha hb
  grand j a g hj ha _ := by
    unfold put at ha
    rw [if_neg (by omega)] at ha
    have := hc.range ha
    omega

end Order

end Libuv.TreeHeap
