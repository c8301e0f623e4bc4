import Libuv.Core.TreeHeap
import Libuv.L1Data.Heap

/-!
# The pointers of the heap lay out a tree

`Lays s h`: the pointers of `h` are those of the tree layout `s`. The lemmas say
what each piece of pointer surgery does to the layout, so that the order argument
can be made on `TreeHeap` alone:

* `Lays.push`, `Lays.pop`, `Lays.replace`: linking a new last node, unlinking the
  last node, and putting a free node in another's place.
-/
namespace Libuv.L1.HeapInl
open Libuv.TreeHeap

variable {α : Type*}

structure Lays (s : Layout α) (h : Heap α) : Prop where
  root : h.min = s 1
  node : ∀ {i x}, s i = some x → h.mem x = ⟨s (2 * i), s (2 * i + 1), s (i / 2)⟩

namespace Lays
variable {s : Layout α} {h : Heap α} (hl : Lays s h) {i : ℕ} {x : α}
include hl

theorem left (hx : s i = some x) : (h.mem x).left = s (2 * i) := by rw [hl.node hx]
theorem right (hx : s i = some x) : (h.mem x).right = s (2 * i + 1) := by rw [hl.node hx]
theorem parent (hx : s i = some x) : (h.mem x).parent = s (i / 2) := by rw [hl.node hx]

end Lays

theorem Lays.of_fields {s : Layout α} {h : Heap α} (hroot : h.min = s 1)
    (hleft : ∀ i x, s i = some x → (h.mem x).left = s (2 * i))
    (hright : ∀ i x, s i = some x → (h.mem x).right = s (2 * i + 1))
    (hparent : ∀ i x, s i = some x → (h.mem x).parent = s (i / 2)) : Lays s h where
  root := hroot
  node {i x} hx := by
    have h1 := hleft i x hx
    have h2 := hright i x hx
    have h3 := hparent i x hx
    cases hm : h.mem x
    simp only [hm] at h1 h2 h3
    rw [h1, h2, h3]

/-! ## Slots and the path to a position -/

/-- The pointer that holds position `i`. -/
def slotOf (s : Layout α) (i : ℕ) : Option (Slot α) :=
  if i = 1 then some .min
  else (s (i / 2)).map fun p => if i % 2 = 0 then .left p else .right p

theorem slotOf_inv {s : Layout α} {i : ℕ} {sl : Slot α} (hi : slotOf s i = some sl) :
    i = 1 ∧ sl = .min ∨ ∃ p, s (i / 2) = some p ∧ (i % 2 = 0 ∧ sl = .left p ∨ i % 2 = 1 ∧ sl = .right p) := by
  unfold slotOf at hi
  split at hi
  · next h1 => exact .inl ⟨h1, (Option.some.inj hi).symm⟩
  · obtain ⟨p, hp, rfl⟩ := Option.map_eq_some_iff.1 hi
    refine .inr ⟨p, hp, ?_⟩
    split
    · next h0 => exact .inl ⟨h0, rfl⟩
    · exact .inr ⟨by omega, rfl⟩

theorem Lays.load {s : Layout α} {h : Heap α} {i : ℕ} {sl : Slot α} (hl : Lays s h)
    (hi : slotOf s i = some sl) : h.load sl = s i := by
  obtain ⟨rfl, rfl⟩ | ⟨p, hp, ⟨h0, rfl⟩ | ⟨h1, rfl⟩⟩ := slotOf_inv hi
  · exact hl.root
  · rw [Heap.load, hl.left hp, show 2 * (i / 2) = i by omega]
  · rw [Heap.load, hl.right hp, show 2 * (i / 2) + 1 = i by omega]

section SlotOf
variable {s : Layout α} {n i j : ℕ} {y : α} (hc : Complete s n)

theorem slotOf_min : slotOf s i = some .min ↔ i = 1 := by
  unfold slotOf
  split
  · simp [*]
  · cases s (i / 2) with
    | none => simp [*]
    | some p => simp only [Option.map_some, Option.some.injEq, iff_false, *]; split <;> simp

theorem slotOf_fresh {x : α} (hx : ∀ j, s j ≠ some x) :
    slotOf s i ≠ some (.left x) ∧ slotOf s i ≠ some (.right x) := by
  unfold slotOf
  split
  · simp
  · cases hp : s (i / 2) with
    | none => simp
    | some p =>
      have hpx : p ≠ x := fun e => hx _ (e ▸ hp)
      split <;> simp [hpx]

include hc

theorem slotOf_left (hy : s j = some y) : slotOf s i = some (.left y) ↔ i = 2 * j := by
  constructor
  · intro h
    obtain ⟨-, h⟩ | ⟨p, hp, ⟨h0, h⟩ | ⟨-, h⟩⟩ := slotOf_inv h <;> cases h
    have := hc.inj hp hy
    omega
  · rintro rfl
    rw [slotOf, Nat.mul_div_cancel_left j (by decide), hy]
    simp

theorem slotOf_right (hy : s j = some y) : slotOf s i = some (.right y) ↔ i = 2 * j + 1 := by
  have hj := hc.range hy
  constructor
  · intro h
    obtain ⟨-, h⟩ | ⟨p, hp, ⟨-, h⟩ | ⟨h1, h⟩⟩ := slotOf_inv h <;> cases h
    have := hc.inj hp hy
    omega
  · rintro rfl
    rw [slotOf, if_neg (by omega), show (2 * j + 1) / 2 = j by omega, hy]
    simp

end SlotOf

/-- The position `k` steps below `m`, turning by the bits of `path`, lowest first. -/
def descend (m : ℕ) : ℕ → ℕ → ℕ
  | 0, _ => m
  | k + 1, path => descend (2 * m + path % 2) k (path / 2)

theorem le_descend (m k path : ℕ) : m ≤ descend m k path := by
  induction k generalizing m path with
  | zero => exact Nat.le_refl m
  | succ k ih => have := ih (2 * m + path % 2) (path / 2); simp only [descend]; omega

theorem path_round (path n : UInt32) (hp : path.toNat < 2 ^ 31) :
    ((path <<< 1) ||| (n &&& 1)).toNat = 2 * path.toNat + n.toNat % 2 := by
  have h1 : (n &&& 1).toNat = n.toNat % 2 := by
    exact Nat.and_two_pow_sub_one_eq_mod n.toNat 1
  have h2 : (path <<< 1).toNat = 2 ^ 1 * path.toNat := by
    rw [UInt32.toNat_shiftLeft]
    simp only [UInt32.reduceToNat, Nat.reduceMod, Nat.shiftLeft_eq]
    omega
  rw [UInt32.toNat_or, h1, h2, ← Nat.two_pow_add_eq_or_of_lt (by omega)]

/-- **The path loop.** The bits collected from `n` lead from the root to where the
bits already collected lead from `n`. -/
theorem descend_pathTo (path k n : UInt32) (h1 : 1 ≤ n.toNat) (hp : path.toNat < 2 ^ k.toNat)
    (hn : n.toNat * 2 ^ k.toNat < 2 ^ 32) :
    descend 1 (pathTo path k n).2.toNat (pathTo path k n).1.toNat =
      descend n.toNat k.toNat path.toNat := by
  fun_induction pathTo path k n with
  | case1 path k n h ih =>
    have h2 : 2 ≤ n.toNat := by simpa [UInt32.le_iff_toNat_le] using h
    have hk2 : 2 * 2 ^ k.toNat < 2 ^ 32 := by
      have := Nat.mul_le_mul_right (2 ^ k.toNat) h2; omega
    have hk : k.toNat < 31 := by
      by_contra hk
      have := Nat.pow_le_pow_right (show 0 < 2 by decide) (show 31 ≤ k.toNat by omega)
      omega
    have hk1 : (k + 1).toNat = k.toNat + 1 := by
      rw [UInt32.toNat_add, UInt32.toNat_one]; omega
    have hn2 : (n / 2).toNat = n.toNat / 2 := by rw [UInt32.toNat_div]; rfl
    have hr := path_round path n (by omega)
    rw [ih (by omega) (by rw [hr, hk1, Nat.pow_succ]; omega) ?_, hk1]
    · simp only [descend]
      congr 1 <;> omega
    · rw [hk1, Nat.pow_succ, Nat.mul_comm (2 ^ k.toNat) 2, ← Nat.mul_assoc]
      exact Nat.lt_of_le_of_lt (Nat.mul_le_mul_right _ (Nat.div_mul_le_self _ _)) hn
  | case2 path k n h =>
    have h2 : n.toNat = 1 := by simp [UInt32.le_iff_toNat_le] at h; omega
    rw [h2]

theorem descend_path {n : UInt32} (h1 : 1 ≤ n.toNat) :
    descend 1 (pathTo 0 0 n).2.toNat (pathTo 0 0 n).1.toNat = n.toNat := by
  rw [descend_pathTo 0 0 n h1 (by simp) (by simpa using n.toNat_lt)]
  rfl

section Walk
variable {s : Layout α} {h : Heap α} {n : ℕ} (hl : Lays s h) (hc : Complete s n)
include hl hc

theorem walk_descend : ∀ (k : ℕ) (path : UInt32) (m : ℕ) (parent child : Slot α), 1 ≤ m →
    slotOf s m = some child → descend m k path.toNat ≤ n + 1 →
    ∃ parent' child', walk h k path parent child = some (parent', child') ∧
      slotOf s (descend m k path.toNat) = some child' ∧
      (k = 0 ∧ parent' = parent ∨ slotOf s (descend m k path.toNat / 2) = some parent') := by
  intro k
  induction k with
  | zero =>
    intro path m parent child _ hm _
    exact ⟨parent, child, rfl, hm, .inl ⟨rfl, rfl⟩⟩
  | succ k ih =>
    intro path m parent child h1 hm ht
    have hshift : (path >>> 1).toNat = path.toNat / 2 := by
      rw [UInt32.toNat_shiftRight]; simp [Nat.shiftRight_eq_div_pow]
    have hbit : (path &&& 1 ≠ 0) ↔ path.toNat % 2 = 1 := by
      rw [ne_eq, ← UInt32.toNat_inj, UInt32.toNat_and]
      simp only [UInt32.reduceToNat, Nat.and_one_is_mod]; omega
    simp only [descend] at ht ⊢
    have hle := le_descend (2 * m + path.toNat % 2) k (path.toNat / 2)
    obtain ⟨a, ha⟩ := hc.get h1 (by omega)
    simp only [walk, hl.load hm, ha]
    have hslot : slotOf s (2 * m + path.toNat % 2) =
        some (if path &&& 1 ≠ 0 then Slot.right a else Slot.left a) := by
      unfold slotOf
      rw [if_neg (by omega), show (2 * m + path.toNat % 2) / 2 = m by omega, ha]
      by_cases hb : path.toNat % 2 = 1
      · rw [if_pos (hbit.mpr hb)]; simp [hb]
      · rw [if_neg (mt hbit.mp hb)]; simp [show path.toNat % 2 = 0 by omega]
    obtain ⟨p', c', hw, hc', hp'⟩ := ih (path >>> 1) (2 * m + path.toNat % 2) child _ (by omega) hslot ht
    refine ⟨p', c', hw, hc', .inr ?_⟩
    rcases hp' with ⟨rfl, rfl⟩ | hp'
    · simp only [descend]
      rw [show (2 * m + path.toNat % 2) / 2 = m by omega]; exact hm
    · exact hp'

/-- **The walk** along the path of `t` ends at the slot of position `t`; `*parent` is
the node at its parent. -/
theorem walk_path {t : UInt32} (h1 : 1 ≤ t.toNat) (ht : t.toNat ≤ n + 1) :
    ∃ parent child, walk h (pathTo 0 0 t).2.toNat (pathTo 0 0 t).1 .min .min = some (parent, child) ∧
      slotOf s t.toNat = some child ∧ (t.toNat = 1 ∧ parent = .min ∨ h.load parent = s (t.toNat / 2)) := by
  have hd := descend_path h1
  obtain ⟨p, c, hw, hc', hp⟩ := walk_descend hl hc (pathTo 0 0 t).2.toNat (pathTo 0 0 t).1 1 .min .min
    (Nat.le_refl 1) rfl (by rw [hd]; exact ht)
  refine ⟨p, c, hw, hd ▸ hc', ?_⟩
  rcases hp with ⟨h0, rfl⟩ | hp
  · left
    rw [h0] at hd
    exact ⟨hd.symm, rfl⟩
  · right
    rw [hd] at hp
    exact hl.load hp

end Walk

/-! ## A node and its parent -/

/-- A parent `p` and its child `c` whose neighbours are other nodes: the situation
`heapNodeSwap` is called in. -/
structure Swappable (h : Heap α) (p c : α) : Prop where
  ne : p ≠ c
  side : (h.mem p).left = some c ∨ (h.mem p).right = some c
  once : (h.mem p).left = some c → (h.mem p).right ≠ some c
  cleft : (h.mem c).left ≠ some c
  cright : (h.mem c).right ≠ some c
  pp : (h.mem p).parent ≠ some p
  pc : (h.mem p).parent ≠ some c

section Edge
variable {s : Layout α} {h : Heap α} {n i : ℕ} {p c : α} (hl : Lays s h) (hc : Complete s n)
  (hi : 2 ≤ i) (hsc : s i = some c) (hsp : s (i / 2) = some p)
include hl hc hsc hsp

include hi in
theorem Lays.swappable : Swappable h p c where
  ne := by rintro rfl; have := hc.inj hsc hsp; omega
  side := by
    rw [hl.left hsp, hl.right hsp]
    rcases (by omega : i = 2 * (i / 2) ∨ i = 2 * (i / 2) + 1) with e | e
    · exact .inl (e ▸ hsc)
    · exact .inr (e ▸ hsc)
  once h1 h2 := by
    rw [hl.left hsp] at h1; rw [hl.right hsp] at h2
    have := hc.inj h1 h2; omega
  cleft h1 := by rw [hl.left hsc] at h1; have := hc.inj h1 hsc; omega
  cright h1 := by rw [hl.right hsc] at h1; have := hc.inj h1 hsc; omega
  pp h1 := by
    rw [hl.parent hsp] at h1
    have := hc.inj h1 hsp; have := hc.range hsp; omega
  pc h1 := by rw [hl.parent hsp] at h1; have := hc.inj h1 hsc; omega

theorem Lays.on_left : (h.mem p).left = some c ↔ i = 2 * (i / 2) := by
  rw [hl.left hsp]
  constructor
  · intro e; exact hc.inj hsc e
  · intro e; rw [← e]; exact hsc

end Edge

variable [DecidableEq α]

/-! ## The swap -/

section Swap
variable (h : Heap α) {p c : α} (hpc : p ≠ c) (x : α)
include hpc

theorem exchange_left : ((exchange h p c).mem x).left =
    if x = p then (h.mem c).left
    else if x = c then if (h.mem p).left = some c then some p else (h.mem p).left
    else (h.mem x).left := by
  unfold exchange
  by_cases hp : x = p <;> by_cases hc : x = c <;> by_cases hlc : (h.mem p).left = some c <;>
    simp_all [Ne.symm hpc]

theorem exchange_right : ((exchange h p c).mem x).right =
    if x = p then (h.mem c).right
    else if x = c then if (h.mem p).left = some c then (h.mem p).right else some p
    else (h.mem x).right := by
  unfold exchange
  by_cases hp : x = p <;> by_cases hc : x = c <;> by_cases hlc : (h.mem p).left = some c <;>
    simp_all [Ne.symm hpc]

theorem exchange_parent : ((exchange h p c).mem x).parent =
    if (if (h.mem p).left = some c then (h.mem p).right else (h.mem p).left) = some x then some c
    else if x = p then some c else if x = c then (h.mem p).parent else (h.mem x).parent := by
  unfold exchange
  by_cases hp : x = p <;> by_cases hc : x = c <;> by_cases hlc : (h.mem p).left = some c <;>
    simp_all [Ne.symm hpc]

omit hpc in
@[simp] theorem exchange_min : (exchange h p c).min = h.min := by
  unfold exchange; simp only; split <;> simp

omit hpc in
@[simp] theorem exchange_nelts : (exchange h p c).nelts = h.nelts := by
  unfold exchange; simp only; split <;> simp

omit hpc x in
@[simp] theorem heapNodeSwap_nelts : (heapNodeSwap h p c).nelts = h.nelts := by
  simp [heapNodeSwap]

end Swap

namespace Swappable
variable {h : Heap α} {p c : α} (w : Swappable h p c) (x : α)
include w

theorem min : (heapNodeSwap h p c).min = if (h.mem p).parent = none then some c else h.min := by
  obtain ⟨ne, side, once, cl, cr, -, -⟩ := w
  by_cases hlc : (h.mem p).left = some c <;>
    simp_all [heapNodeSwap, exchange_parent h ne, exchange_left h ne, exchange_right h ne, Ne.symm ne]

theorem left : ((heapNodeSwap h p c).mem x).left =
    if x = p then (h.mem c).left
    else if x = c then if (h.mem p).left = some c then some p else (h.mem p).left
    else if (h.mem p).parent = some x ∧ (h.mem x).left = some p then some c else (h.mem x).left := by
  obtain ⟨ne, side, once, cl, cr, pp, pc⟩ := w
  by_cases hp : x = p <;> by_cases hc : x = c <;> by_cases hlc : (h.mem p).left = some c <;>
    simp_all [heapNodeSwap, exchange_parent h ne, exchange_left h ne, exchange_right h ne, Ne.symm ne]

theorem right : ((heapNodeSwap h p c).mem x).right =
    if x = p then (h.mem c).right
    else if x = c then if (h.mem p).left = some c then (h.mem p).right else some p
    else if (h.mem p).parent = some x ∧ (h.mem x).left ≠ some p then some c else (h.mem x).right := by
  obtain ⟨ne, side, once, cl, cr, pp, pc⟩ := w
  by_cases hp : x = p <;> by_cases hc : x = c <;> by_cases hlc : (h.mem p).left = some c <;>
    simp_all [heapNodeSwap, exchange_parent h ne, exchange_left h ne, exchange_right h ne, Ne.symm ne]

theorem parent : ((heapNodeSwap h p c).mem x).parent =
    if (h.mem c).right = some x then some p else if (h.mem c).left = some x then some p
    else if (if (h.mem p).left = some c then (h.mem p).right else (h.mem p).left) = some x then some c
    else if x = p then some c else if x = c then (h.mem p).parent else (h.mem x).parent := by
  obtain ⟨ne, side, once, cl, cr, pp, pc⟩ := w
  by_cases hp : x = p <;> by_cases hc : x = c <;> by_cases hlc : (h.mem p).left = some c <;>
    simp_all [heapNodeSwap, exchange_parent h ne, exchange_left h ne, exchange_right h ne, Ne.symm ne]

end Swappable

section Swap
variable {s : Layout α} {h : Heap α} {n i : ℕ} {p c : α} (hl : Lays s h) (hc : Complete s n)
  (hi : 2 ≤ i) (hsc : s i = some c) (hsp : s (i / 2) = some p)
include hl hc hsc hsp

include hi in
theorem Lays.swap : Lays (TreeHeap.swap s i (i / 2)) (heapNodeSwap h p c) := by
  have w := hl.swappable hc hi hsc hsp
  have hside := hl.on_left hc hsc hsp
  -- a node of the new layout: the old parent, the old child, or a node that kept its place
  have place : ∀ {j : ℕ} {y : α}, TreeHeap.swap s i (i / 2) j = some y →
      (j = i ∧ y = p) ∨ (j = i / 2 ∧ y = c) ∨ (j ≠ i ∧ j ≠ i / 2 ∧ s j = some y ∧ y ≠ p ∧ y ≠ c) := by
    intro j y hy
    unfold TreeHeap.swap at hy
    split_ifs at hy with h1 h2
    · rw [hsp] at hy; cases hy; exact .inl ⟨h1, rfl⟩
    · rw [hsc] at hy; cases hy; exact .inr (.inl ⟨h2, rfl⟩)
    · refine .inr (.inr ⟨h1, h2, hy, ?_, ?_⟩)
      · rintro rfl; exact h2 (hc.inj hy hsp)
      · rintro rfl; exact h1 (hc.inj hy hsc)
  have hk := hc.range hsp
  apply Lays.of_fields
  · rw [w.min, hl.parent hsp, hl.root]
    by_cases h1 : 1 = i / 2
    · rw [if_pos (by rw [← h1]; exact hc.zero), h1, swap_right, hsc]
    · obtain ⟨g, hg⟩ := hc.get (i := i / 2 / 2) (by omega) (by omega)
      rw [hg, if_neg (by simp), swap_other s (by omega) h1]
  · intro j y hy
    rw [w.left, hl.parent hsp]
    rcases place hy with ⟨rfl, rfl⟩ | ⟨rfl, rfl⟩ | ⟨h1, h2, h3, h4, h5⟩
    · rw [if_pos rfl, hl.left hsc, swap_other s (by omega) (by omega)]
    · rw [if_neg (Ne.symm w.ne), if_pos rfl]
      by_cases e : i = 2 * (i / 2)
      · rw [if_pos (hside.mpr e), ← e, swap_left, hsp]
      · rw [if_neg (mt hside.mp e), hl.left hsp, swap_other s (Ne.symm e) (by omega)]
    · rw [if_neg h4, if_neg h5, hl.left h3]
      by_cases e : 2 * j = i / 2
      · rw [if_pos ⟨by rw [← e, Nat.mul_div_cancel_left _ (by decide)]; exact h3, e ▸ hsp⟩, e, swap_right, hsc]
      · rw [if_neg (fun hh => e (hc.inj hh.2 hsp)), swap_other s (by omega) e]
  · intro j y hy
    rw [w.right, hl.parent hsp]
    rcases place hy with ⟨rfl, rfl⟩ | ⟨rfl, rfl⟩ | ⟨h1, h2, h3, h4, h5⟩
    · rw [if_pos rfl, hl.right hsc, swap_other s (by omega) (by omega)]
    · rw [if_neg (Ne.symm w.ne), if_pos rfl]
      by_cases e : i = 2 * (i / 2)
      · rw [if_pos (hside.mpr e), hl.right hsp, swap_other s (by omega) (by omega)]
      · rw [if_neg (mt hside.mp e), show 2 * (i / 2) + 1 = i by omega, swap_left, hsp]
    · rw [if_neg h4, if_neg h5, hl.left h3, hl.right h3]
      by_cases e : 2 * j + 1 = i / 2
      · have hg : s (i / 2 / 2) = some y := by rw [show i / 2 / 2 = j by omega]; exact h3
        rw [if_pos ⟨hg, fun hh => by have := hc.inj hh hsp; omega⟩, e, swap_right, hsc]
      · have hg : ¬ (s (i / 2 / 2) = some y ∧ s (2 * j) ≠ some p) := by
          rintro ⟨hg, hne⟩
          have := hc.inj hg h3
          exact hne (by rw [show 2 * j = i / 2 by omega]; exact hsp)
        rw [if_neg hg, swap_other s (by omega) e]
  · intro j y hy
    rw [w.parent, hl.parent hsp, hl.left hsc, hl.right hsc, hl.left hsp, hl.right hsp]
    rw [hl.left hsp] at hside
    -- the sibling of `i`
    obtain ⟨b, hb, hsib⟩ : ∃ b, b / 2 = i / 2 ∧ b ≠ i ∧
        (if s (2 * (i / 2)) = some c then s (2 * (i / 2) + 1) else s (2 * (i / 2))) = s b := by
      by_cases e : i = 2 * (i / 2)
      · exact ⟨i + 1, by omega, by omega, by rw [if_pos (hside.mpr e), ← e]⟩
      · exact ⟨i - 1, by omega, by omega, by
          rw [if_neg (mt hside.mp e), show i - 1 = 2 * (i / 2) by omega]⟩
    rw [hsib.2]
    have at_ : ∀ {u v : ℕ} {z : α}, s v = some z → (s u = some z ↔ u = v) := fun hv =>
      ⟨fun hu => hc.inj hu hv, fun e => e ▸ hv⟩
    rcases place hy with ⟨rfl, rfl⟩ | ⟨rfl, rfl⟩ | ⟨h1, h2, h3, h4, h5⟩
    · rw [if_neg (by rw [at_ hsp]; omega), if_neg (by rw [at_ hsp]; omega),
        if_neg (by rw [at_ hsp]; omega), if_pos rfl, swap_right, hsc]
    · rw [if_neg (by rw [at_ hsc]; omega), if_neg (by rw [at_ hsc]; omega),
        if_neg (by rw [at_ hsc]; omega), if_neg (Ne.symm w.ne), if_pos rfl, swap_other s (by omega) (by omega)]
    · rw [if_neg h4, if_neg h5, hl.parent h3]
      simp only [at_ h3]
      by_cases e1 : j / 2 = i
      · rw [e1, swap_left, hsp]
        rcases (by omega : 2 * i + 1 = j ∨ 2 * i = j) with e | e
        · rw [if_pos e]
        · rw [if_neg (by omega), if_pos e]
      · rw [if_neg (by omega), if_neg (by omega)]
        by_cases e2 : j / 2 = i / 2
        · rw [if_pos (by omega), e2, swap_right, hsc]
        · rw [if_neg (by omega), swap_other s e1 e2]

end Swap

/-! ## Linking, unlinking and replacing a node -/

section Assign
variable (h : Heap α) (o : Option α) (sl : Slot α) (x : α)

theorem assign_left : ((h.assign o sl).mem x).left = if sl = .left x then o else (h.mem x).left := by
  cases sl <;> simp [Heap.assign, eq_comm]

theorem assign_right : ((h.assign o sl).mem x).right = if sl = .right x then o else (h.mem x).right := by
  cases sl <;> simp [Heap.assign, eq_comm]

@[simp] theorem assign_parent : ((h.assign o sl).mem x).parent = (h.mem x).parent := by
  cases sl <;> simp [Heap.assign]

theorem assign_min : (h.assign o sl).min = if sl = .min then o else h.min := by
  cases sl <;> simp [Heap.assign]

@[simp] theorem assign_nelts : (h.assign o sl).nelts = h.nelts := by
  cases sl <;> simp [Heap.assign]

end Assign

theorem Lays.assign {s : Layout α} {h : Heap α} {n i : ℕ} {sl : Slot α} {o : Option α}
    (hl : Lays s h) (hc : Complete s n) (hi : slotOf s i = some sl) (h1 : 1 ≤ i)
    (hleft : s (2 * i) = none) (hright : s (2 * i + 1) = none)
    (ho : ∀ x, o = some x → (∀ j, s j ≠ some x) ∧ h.mem x = ⟨none, none, s (i / 2)⟩) :
    Lays (put s i o) (h.assign o sl) := by
  -- a node of the new layout: the new occupant, or an old node not below `i`
  have place : ∀ {j : ℕ} {y : α}, put s i o j = some y →
      (j = i ∧ (∀ k, s k ≠ some y) ∧ h.mem y = ⟨none, none, s (i / 2)⟩) ∨ (j ≠ i ∧ j / 2 ≠ i ∧ s j = some y) := by
    intro j y hy
    by_cases hj : j = i
    · subst hj
      rw [put_same] at hy
      exact .inl ⟨rfl, ho y hy⟩
    · rw [put_other s o hj] at hy
      refine .inr ⟨hj, fun e => ?_, hy⟩
      rcases (by omega : j = 2 * i ∨ j = 2 * i + 1) with rfl | rfl
      · rw [hleft] at hy; cases hy
      · rw [hright] at hy; cases hy
  have at_slot : ∀ t, sl = t ↔ slotOf s i = some t := fun t => by rw [hi, Option.some.injEq]
  apply Lays.of_fields
  · rw [assign_min]
    by_cases e : i = 1
    · rw [if_pos ((at_slot _).mpr (slotOf_min.mpr e)), e, put_same]
    · rw [if_neg (fun ht => e (slotOf_min.mp ((at_slot _).mp ht))), put_other s o (Ne.symm e)]
      exact hl.root
  · intro j y hy
    rw [assign_left]
    rcases place hy with ⟨rfl, hf, hm⟩ | ⟨h2, h3, hsj⟩
    · rw [if_neg (fun ht => (slotOf_fresh hf).1 ((at_slot _).mp ht)), hm, put_other s o (by omega), hleft]
    · by_cases e : i = 2 * j
      · rw [if_pos ((at_slot _).mpr ((slotOf_left hc hsj).mpr e)), ← e, put_same]
      · rw [if_neg (fun ht => e ((slotOf_left hc hsj).mp ((at_slot _).mp ht))),
          put_other s o (Ne.symm e), hl.left hsj]
  · intro j y hy
    rw [assign_right]
    rcases place hy with ⟨rfl, hf, hm⟩ | ⟨h2, h3, hsj⟩
    · rw [if_neg (fun ht => (slotOf_fresh hf).2 ((at_slot _).mp ht)), hm, put_other s o (by omega), hright]
    · by_cases e : i = 2 * j + 1
      · rw [if_pos ((at_slot _).mpr ((slotOf_right hc hsj).mpr e)), ← e, put_same]
      · rw [if_neg (fun ht => e ((slotOf_right hc hsj).mp ((at_slot _).mp ht))),
          put_other s o (Ne.symm e), hl.right hsj]
  · intro j y hy
    rw [assign_parent]
    rcases place hy with ⟨rfl, hf, hm⟩ | ⟨h2, h3, hsj⟩
    · rw [hm, put_other s o (by omega)]
    · rw [hl.parent hsj, put_other s o h3]

/-- `node` is in the tree and `child` is not. -/
structure Replaceable (h : Heap α) (node child : α) : Prop where
  ne : node ≠ child
  left : (h.mem node).left ≠ some node
  right : (h.mem node).right ≠ some node
  parent : (h.mem node).parent ≠ some child

namespace Replaceable
variable {h : Heap α} {node child : α} (w : Replaceable h node child) (x : α)
include w

theorem replace_min :
    (replaceNode h node child).min = if (h.mem node).parent = none then some child else h.min := by
  obtain ⟨ne, l, r, p⟩ := w
  simp [replaceNode, ne, l, r]

theorem replace_left : ((replaceNode h node child).mem x).left =
    if x = child then (h.mem node).left
    else if (h.mem node).parent = some x ∧ (h.mem x).left = some node then some child
    else (h.mem x).left := by
  obtain ⟨ne, l, r, p⟩ := w
  by_cases hx : x = child <;> simp [replaceNode, ne, l, r, p, hx]

theorem replace_right : ((replaceNode h node child).mem x).right =
    if x = child then (h.mem node).right
    else if (h.mem node).parent = some x ∧ (h.mem x).left ≠ some node then some child
    else (h.mem x).right := by
  obtain ⟨ne, l, r, p⟩ := w
  by_cases hx : x = child <;> simp [replaceNode, ne, l, r, p, hx]

omit w in
theorem replace_parent : ((replaceNode h node child).mem x).parent =
    if (h.mem node).right = some x then some child else if (h.mem node).left = some x then some child
    else if x = child then (h.mem node).parent else (h.mem x).parent := by
  by_cases hx : x = child <;> simp [replaceNode, hx]

omit w in
@[simp] theorem replace_nelts : (replaceNode h node child).nelts = h.nelts := by simp [replaceNode]

end Replaceable

theorem Lays.replace {s : Layout α} {h : Heap α} {n i : ℕ} {node child : α} (hl : Lays s h)
    (hc : Complete s n) (hn : s i = some node) (hf : ∀ j, s j ≠ some child) :
    Lays (put s i (some child)) (replaceNode h node child) := by
  have hi := hc.range hn
  have w : Replaceable h node child := by
    refine ⟨fun e => hf i (e ▸ hn), fun e => ?_, fun e => ?_, fun e => ?_⟩
    · rw [hl.left hn] at e; have := hc.inj e hn; omega
    · rw [hl.right hn] at e; have := hc.inj e hn; omega
    · rw [hl.parent hn] at e; exact hf _ e
  have at_ : ∀ {u v : ℕ} {z : α}, s v = some z → (s u = some z ↔ u = v) := fun hv =>
    ⟨fun hu => hc.inj hu hv, fun e => e ▸ hv⟩
  have place : ∀ {j : ℕ} {y : α}, put s i (some child) j = some y →
      (j = i ∧ y = child) ∨ (j ≠ i ∧ s j = some y ∧ y ≠ child) := by
    intro j y hy
    by_cases hj : j = i
    · subst hj
      rw [put_same] at hy; cases hy
      exact .inl ⟨rfl, rfl⟩
    · rw [put_other s _ hj] at hy
      exact .inr ⟨hj, hy, fun e => hf j (e ▸ hy)⟩
  apply Lays.of_fields
  · rw [w.replace_min, hl.parent hn]
    by_cases e : 1 = i
    · rw [if_pos (by rw [← e]; exact hc.zero), ← e, put_same]
    · obtain ⟨g, hg⟩ := hc.get (i := i / 2) (by omega) (by omega)
      rw [hg, put_other s _ e]
      exact hl.root
  · intro j y hy
    rw [w.replace_left, hl.parent hn]
    rcases place hy with ⟨rfl, rfl⟩ | ⟨h1, h2, h3⟩
    · rw [if_pos rfl, hl.left hn, put_other s _ (by omega)]
    · rw [if_neg h3, hl.left h2]
      by_cases e : 2 * j = i
      · rw [if_pos ⟨by rw [at_ h2]; omega, by rw [at_ hn]; exact e⟩, e, put_same]
      · rw [if_neg (fun hh => e ((at_ hn).mp hh.2)), put_other s _ e]
  · intro j y hy
    rw [w.replace_right, hl.parent hn]
    rcases place hy with ⟨rfl, rfl⟩ | ⟨h1, h2, h3⟩
    · rw [if_pos rfl, hl.right hn, put_other s _ (by omega)]
    · rw [if_neg h3, hl.left h2, hl.right h2]
      by_cases e : 2 * j + 1 = i
      · rw [if_pos ⟨by rw [at_ h2]; omega, by rw [ne_eq, at_ hn]; omega⟩, e, put_same]
      · rw [if_neg ?_, put_other s _ e]
        rw [at_ h2, ne_eq, at_ hn]
        omega
  · intro j y hy
    rw [Replaceable.replace_parent, hl.left hn, hl.right hn, hl.parent hn]
    rcases place hy with ⟨rfl, rfl⟩ | ⟨h1, h2, h3⟩
    · rw [if_neg (hf _), if_neg (hf _), if_pos rfl, put_other s _ (by omega)]
    · rw [if_neg h3, hl.parent h2]
      simp only [at_ h2]
      by_cases e : j / 2 = i
      · rw [e, put_same]
        rcases (by omega : 2 * i + 1 = j ∨ 2 * i = j) with e | e
        · rw [if_pos e]
        · rw [if_neg (by omega), if_pos e]
      · rw [if_neg (by omega), if_neg (by omega), put_other s _ e]

end Libuv.L1.HeapInl
