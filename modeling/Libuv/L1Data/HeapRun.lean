import Libuv.Core.LTS
import Libuv.L1Data.HeapLayout

/-!
# The timer heap over whole runs

`nodeAt h i` is the node reached from `heap->min` by following `left`/`right` along
the bits of `i` below its leading one, and `WellFormed` says what the header comment
of `heap-inl.h` promises in terms of it: a complete binary tree of `nelts` nodes,
parent pointers that agree with the child pointers, no child less than its parent.

* `wellFormed_run`: every sequence of insertions, removals and dequeues that never
  holds 2^32 nodes at once keeps the heap well formed, and none of them runs into
  `NULL` or fails to return.
* `full_heap_breaks`: with 2^32 - 1 nodes in the heap `1 + heap->nelts` wraps to 0
  and the next insertion overwrites the root.
-/
namespace Libuv.L1.HeapInl
open Libuv.TreeHeap

variable {α : Type*} {lt : α → α → Bool}

/-- `h` is laid out as `s`, and `s` is a heap of `nelts` nodes. -/
structure HeapAt (lt : α → α → Bool) (s : Layout α) (h : Heap α) : Prop where
  lays : Lays s h
  complete : Complete s h.nelts.toNat
  ordered : Ordered lt s

def Has (s : Layout α) (x : α) : Prop := ∃ i, s i = some x

theorem HeapAt.congr {lt' : α → α → Bool} {s : Layout α} {h : Heap α} (hs : HeapAt lt s h)
    (heq : ∀ x y, Has s x → Has s y → lt' x y = lt x y) : HeapAt lt' s h where
  lays := hs.lays
  complete := hs.complete
  ordered i x p hx hp := (heq x p ⟨i, hx⟩ ⟨_, hp⟩).trans (hs.ordered i x p hx hp)

theorem has_swap {s : Layout α} {i j : ℕ} (x : α) : Has (swap s i j) x ↔ Has s x := by
  constructor
  · rintro ⟨k, hk⟩
    unfold swap at hk
    split_ifs at hk
    · exact ⟨j, hk⟩
    · exact ⟨i, hk⟩
    · exact ⟨k, hk⟩
  · rintro ⟨k, hk⟩
    by_cases hi : k = i
    · exact ⟨j, by rw [swap_right, ← hi]; exact hk⟩
    · by_cases hj : k = j
      · exact ⟨i, by rw [swap_left, ← hj]; exact hk⟩
      · exact ⟨k, by rw [swap_other s hi hj]; exact hk⟩

theorem has_put {s : Layout α} {i : ℕ} (o : Option α) (hc : ∀ j x, s i = some x → s j = some x → i = j)
    (x : α) : Has (put s i o) x ↔ o = some x ∨ (Has s x ∧ s i ≠ some x) := by
  constructor
  · rintro ⟨k, hk⟩
    by_cases hki : k = i
    · rw [hki, put_same] at hk; exact .inl hk
    · rw [put_other s o hki] at hk
      exact .inr ⟨⟨k, hk⟩, fun e => hki (hc k x e hk).symm⟩
  · rintro (h | ⟨⟨k, hk⟩, hne⟩)
    · exact ⟨i, by rw [put_same]; exact h⟩
    · exact ⟨k, by rw [put_other s o (fun e : k = i => hne (e ▸ hk))]; exact hk⟩

/-! ## The two sifts -/

variable [DecidableEq α]

section Sift
variable (hw : StrictWeakOrder lt)
include hw

theorem siftUp_spec {n : ℕ} : ∀ (fuel i : ℕ) (s : Layout α) (h : Heap α) (x : α), i < fuel →
    Lays s h → Complete s n → UpOk lt s i → s i = some x →
    ∃ s' h', siftUp lt fuel h x = some h' ∧ Lays s' h' ∧ Complete s' n ∧ Ordered lt s' ∧
      h'.nelts = h.nelts ∧ ∀ y, Has s' y ↔ Has s y := by
  intro fuel
  induction fuel with
  | zero => intro i s h x hi; omega
  | succ fuel ih =>
    intro i s h x hi hl hc hu hx
    have hi1 := hc.range hx
    simp only [siftUp, hl.parent hx]
    cases hp : s (i / 2) with
    | none =>
      refine ⟨s, h, rfl, hl, hc, hu.ordered ?_, rfl, fun _ => Iff.rfl⟩
      intro a b _ hb
      rw [hp] at hb; cases hb
    | some p =>
      cases hlt : lt x p with
      | false =>
        refine ⟨s, h, by simp [hlt], hl, hc, hu.ordered ?_, rfl, fun _ => Iff.rfl⟩
        intro a b ha hb
        rw [hx] at ha; rw [hp] at hb; cases ha; cases hb
        exact hlt
      | true =>
        have hi2 : 2 ≤ i := by have := hc.range hp; omega
        have hl' := hl.swap hc hi2 hx hp
        have hc' := hc.swap hi1 (hc.range hp)
        have hu' := hu.move hw hi2 hx hp hlt
        obtain ⟨s', h', he, h1, h2, h3, h4, h5⟩ :=
          ih (i / 2) _ _ x (by omega) hl' hc' hu' (by rw [swap_right]; exact hx)
        exact ⟨s', h', by simpa [hlt] using he, h1, h2, h3, by rw [h4, heapNodeSwap_nelts],
          fun y => (h5 y).trans (has_swap y)⟩

omit [DecidableEq α] in
theorem smaller_spec (p : Option α) (b : α) :
    (smaller lt p b = b ∨ p = some (smaller lt p b) ∧ lt (smaller lt p b) b = true) ∧
    (∀ z, p = some z → lt z (smaller lt p b) = false) ∧ ∀ z, lt z b = false → lt z (smaller lt p b) = false := by
  cases p with
  | none => exact ⟨.inl rfl, (fun _ h => nomatch h), fun _ h => h⟩
  | some a =>
    simp only [smaller]
    cases hab : lt a b with
    | false =>
      refine ⟨.inl rfl, fun z h => ?_, fun z h => h⟩
      cases h; exact hab
    | true =>
      refine ⟨.inr ⟨rfl, hab⟩, fun z h => ?_, fun z h => ?_⟩
      · cases h; exact hw.irrefl a
      · exact hw.negTrans h (hw.asymm hab)

omit [DecidableEq α] in
theorem smallestOf_spec {s : Layout α} {h : Heap α} {i : ℕ} {x : α} (hl : Lays s h)
    (hx : s i = some x) :
    (smallestOf lt h x = x ∨ ∃ c, c / 2 = i ∧ s c = some (smallestOf lt h x) ∧ lt (smallestOf lt h x) x = true) ∧
    ∀ j z, j / 2 = i → j ≠ i → s j = some z → lt z (smallestOf lt h x) = false := by
  unfold smallestOf
  rw [hl.left hx, hl.right hx]
  obtain ⟨hL, hL', -⟩ := smaller_spec hw (s (2 * i)) x
  obtain ⟨hR, hR', hR''⟩ := smaller_spec hw (s (2 * i + 1)) (smaller lt (s (2 * i)) x)
  refine ⟨?_, fun j z hj _ hz => ?_⟩
  · rcases hR with hR | ⟨hR, hlt⟩
    · rw [hR]
      rcases hL with hL | ⟨hL, hlt⟩
      · exact .inl hL
      · exact .inr ⟨2 * i, by omega, hL, hlt⟩
    · refine .inr ⟨2 * i + 1, by omega, hR, ?_⟩
      rcases hL with hL | ⟨-, hlt'⟩
      · rwa [hL] at hlt ⊢
      · exact hw.trans _ _ _ hlt hlt'
  · rcases (by omega : j = 2 * i ∨ j = 2 * i + 1) with rfl | rfl
    · exact hR'' z (hL' z hz)
    · exact hR' z hz

theorem siftDown_spec {n : ℕ} : ∀ (fuel i : ℕ) (s : Layout α) (h : Heap α) (x : α),
    n < fuel + i → Lays s h → Complete s n → DownOk lt s i → s i = some x →
    ∃ s' h' i', siftDown lt fuel h x = some h' ∧ Lays s' h' ∧ Complete s' n ∧ UpOk lt s' i' ∧
      s' i' = some x ∧ h'.nelts = h.nelts ∧ ∀ y, Has s' y ↔ Has s y := by
  intro fuel
  induction fuel with
  | zero =>
    intro i s h x hi _ hc _ hx
    have := hc.range hx; omega
  | succ fuel ih =>
    intro i s h x hi hl hc hd hx
    have hi1 := hc.range hx
    obtain ⟨hm, hmin⟩ := smallestOf_spec hw hl hx
    simp only [siftDown]
    rcases hm with he | ⟨c, hci, hsc, hlt⟩
    · rw [he] at hmin
      refine ⟨s, h, i, if_pos he, hl, hc, hd.up ?_, hx, rfl, fun _ => Iff.rfl⟩
      intro j hj hji a b ha hb
      rw [hj, hx] at hb; cases hb
      exact hmin j a hj hji ha
    · have hne : smallestOf lt h x ≠ x := fun e => by rw [e, hw.irrefl] at hlt; cases hlt
      rw [if_neg hne]
      have hsp : s (c / 2) = some x := hci ▸ hx
      have hl' := hl.swap hc (by omega) hsc hsp
      have hc' := hc.swap (hc.range hsc) (hc.range hsp)
      have hd' := hd.move hi1.1 hci hsc (fun j z hj hz => hmin j z hj (by omega) hz)
      rw [hci] at hl' hc'
      obtain ⟨s', h', i', he, h1, h2, h3, h4, h5, h6⟩ :=
        ih c _ _ x (by omega) hl' hc' hd' (by rw [swap_left]; exact hx)
      exact ⟨s', h', i', he, h1, h2, h3, h4, by rw [h5, heapNodeSwap_nelts], fun y => (h6 y).trans (has_swap y)⟩

end Sift

/-! ## One operation -/

section Ops
variable {s : Layout α} {h : Heap α} (hw : StrictWeakOrder lt) (hs : HeapAt lt s h)
include hw hs

theorem insert_spec {x : α} (hx : ¬ Has s x) (hn : h.nelts.toNat + 1 < 2 ^ 32) :
    ∃ s' h', heapInsert lt h x = some h' ∧ HeapAt lt s' h' ∧
      h'.nelts.toNat = h.nelts.toNat + 1 ∧ ∀ y, Has s' y ↔ y = x ∨ Has s y := by
  obtain ⟨hl, hc, ho⟩ := hs
  have hfresh : ∀ j, s j ≠ some x := fun j e => hx ⟨j, e⟩
  have hne : ∀ {j y}, s j = some y → y ≠ x := fun hj e => hfresh _ (e ▸ hj)
  have ht : (1 + h.nelts).toNat = h.nelts.toNat + 1 := by
    rw [UInt32.toNat_add, UInt32.toNat_one]; omega
  have ht' : (h.nelts + 1).toNat = h.nelts.toNat + 1 := by
    rw [UInt32.toNat_add, UInt32.toNat_one]; omega
  have hl0 : Lays s (h.store x { left := none, right := none, parent := none }) :=
    ⟨hl.root, fun hj => by rw [Heap.store_mem, if_neg (hne hj)]; exact hl.node hj⟩
  obtain ⟨parent, child, hwalk, hslot, hpar⟩ :=
    walk_path hl0 hc (t := 1 + h.nelts) (by omega) (by omega)
  rw [ht] at hslot hpar
  unfold heapInsert
  simp only [Heap.store_nelts, hwalk]
  have hload : (h.store x { left := none, right := none, parent := none }).load parent =
      s ((h.nelts.toNat + 1) / 2) := by
    rcases hpar with ⟨h1, rfl⟩ | h1
    · rw [h1, hc.zero]
      exact hl.root.trans (hc.none_of (by omega))
    · exact h1
  rw [hload]
  generalize hh1 : (h.store x { left := none, right := none, parent := none }).setParent x
    (s ((h.nelts.toNat + 1) / 2)) = h1
  have hmem : h1.mem x = ⟨none, none, s ((h.nelts.toNat + 1) / 2)⟩ := by
    subst hh1; simp [Heap.setParent]
  have hnelts : h1.nelts = h.nelts := by subst hh1; simp
  have hl1 : Lays s h1 := by
    subst hh1
    refine ⟨hl.root, fun hj => ?_⟩
    rw [Heap.setParent, Heap.store_mem, if_neg (hne hj)]
    exact hl0.node hj
  have hl2 := hl1.assign hc hslot (o := some x) (by omega) (hc.none_of (by omega))
    (hc.none_of (by omega)) (fun y hy => by cases hy; exact ⟨hfresh, hmem⟩)
  have hl3 : Lays (put s (h.nelts.toNat + 1) (some x))
      { h1.assign (some x) child with nelts := (h1.assign (some x) child).nelts + 1 } :=
    ⟨hl2.root, hl2.node⟩
  obtain ⟨s', h', he, k1, k2, k3, k4, k5⟩ := siftUp_spec hw loopFuel (h.nelts.toNat + 1) _ _ x
    (by unfold loopFuel; omega) hl3 (hc.push hfresh) (ho.push hc x) (put_same _ _ _)
  have hn' : h'.nelts.toNat = h.nelts.toNat + 1 := by rw [k4, assign_nelts, hnelts, ht']
  refine ⟨s', h', he, ⟨k1, by rw [hn']; exact k2, k3⟩, hn', fun y => ?_⟩
  rw [k5 y, has_put _ (fun _ _ => hc.inj)]
  have hnone := hc.none_of (i := h.nelts.toNat + 1) (by omega)
  simp [hnone, eq_comm]

theorem remove_spec {x : α} (hx : Has s x) :
    ∃ s' h', heapRemove lt h (some x) = some h' ∧ HeapAt lt s' h' ∧
      h'.nelts.toNat + 1 = h.nelts.toNat ∧ ∀ y, Has s' y ↔ Has s y ∧ y ≠ x := by
  obtain ⟨hl, hc, ho⟩ := hs
  obtain ⟨i, hi⟩ := hx
  have hir := hc.range hi
  have hn0 : h.nelts ≠ 0 := by
    intro e; rw [e] at hir; simp at hir; omega
  have hn1 : (h.nelts - 1).toNat + 1 = h.nelts.toNat := by
    rw [UInt32.toNat_sub_of_le _ _ (by rw [UInt32.le_iff_toNat_le, UInt32.toNat_one]; omega), UInt32.toNat_one]; omega
  have hlt32 := h.nelts.toNat_lt
  obtain ⟨_, max, hwalk, hslot, -⟩ := walk_path hl hc (t := h.nelts) (by omega) (by omega)
  obtain ⟨l, hlast⟩ := hc.get (i := h.nelts.toNat) (by omega) (by omega)
  -- the last node comes off
  have hl1 := hl.assign hc hslot (o := none) (by omega) (hc.none_of (by omega))
    (hc.none_of (by omega)) (fun _ hy => nomatch hy)
  have hc1 := hc.pop (by omega)
  have ho1 := ho.pop h.nelts.toNat
  have hload : ({ h with nelts := h.nelts - 1 } : Heap α).load max = some l := by
    have := hl.load hslot
    rw [hlast] at this
    cases max <;> exact this
  unfold heapRemove
  simp only [if_neg hn0, hwalk, hload]
  have hl2 : Lays (put s h.nelts.toNat none) (({ h with nelts := h.nelts - 1 } : Heap α).assign none max) := by
    cases max <;> exact ⟨hl1.root, hl1.node⟩
  generalize hh2 : ({ h with nelts := h.nelts - 1 } : Heap α).assign none max = h2 at hl2
  have hn2 : h2.nelts = h.nelts - 1 := by subst hh2; simp
  have hfree : ∀ j, put s h.nelts.toNat none j ≠ some l := by
    intro j e
    by_cases hj : j = h.nelts.toNat
    · rw [hj, put_same] at e; cases e
    · rw [put_other s _ hj] at e; exact hj (hc.inj e hlast)
  have hhas : ∀ y, Has (put s h.nelts.toNat none) y ↔ Has s y ∧ y ≠ l := by
    intro y
    rw [has_put _ (fun _ _ => hc.inj), hlast]
    simp [eq_comm]
  by_cases hxl : l = x
  · -- it was the last node itself
    subst hxl
    have hmin : some l ≠ h2.min := by rw [hl2.root]; exact (hfree 1).symm
    rw [if_pos rfl, if_neg hmin]
    exact ⟨_, h2, rfl, ⟨hl2, by rw [hn2, show (h.nelts - 1).toNat = h.nelts.toNat - 1 by omega]; exact hc1, ho1⟩,
      by rw [hn2]; exact hn1, hhas⟩
  · rw [if_neg (fun e => hxl (Option.some.inj e))]
    have hin : i ≠ h.nelts.toNat := fun e => hxl (by rw [e, hlast] at hi; exact Option.some.inj hi)
    have hi1 : put s h.nelts.toNat none i = some x := by rw [put_other s _ hin]; exact hi
    have hl3 := hl2.replace hc1 hi1 hfree
    have hc3 := hc1.replace (hc1.range hi1) (fun j _ => hfree j)
    have hd3 := ho1.replace hw hc1 (hc1.range hi1) l
    obtain ⟨s4, h4, i4, he4, k1, k2, k3, k4, k5, k6⟩ :=
      siftDown_spec hw loopFuel i _ _ l (by unfold loopFuel; omega) hl3 hc3 hd3 (put_same _ _ _)
    have hi4 := k2.range k4
    obtain ⟨s5, h5, he5, m1, m2, m3, m4, m5⟩ :=
      siftUp_spec hw loopFuel i4 _ _ l (by unfold loopFuel; omega) k1 k2 k3 k4
    have hn5 : h5.nelts = h.nelts - 1 := by rw [m4, k5, Replaceable.replace_nelts, hn2]
    refine ⟨s5, h5, by rw [he4]; exact he5, ⟨m1, ?_, m3⟩, by rw [hn5]; exact hn1, fun y => ?_⟩
    · rw [hn5, show (h.nelts - 1).toNat = h.nelts.toNat - 1 by omega]; exact m2
    · rw [m5, k6, has_put _ (fun _ _ => hc1.inj), hhas, hi1]
      constructor
      · rintro (e | ⟨⟨h1, h2⟩, h3⟩)
        · cases e; exact ⟨⟨_, hlast⟩, hxl⟩
        · exact ⟨h1, fun e => h3 (by rw [e])⟩
      · rintro ⟨h1, h2⟩
        by_cases hyl : l = y
        · exact .inl (by rw [hyl])
        · exact .inr ⟨⟨h1, Ne.symm hyl⟩, fun e => h2 (Option.some.inj e).symm⟩

end Ops

/-! ## What the heap promises -/

section Promise
omit [DecidableEq α]

/-- The node reached from `heap->min` by turning left or right on the bits of `i`
below its leading one. -/
def nodeAt (h : Heap α) (i : ℕ) : Option α :=
  if i = 0 then none
  else if i = 1 then h.min
  else
    match nodeAt h (i / 2) with
    | none => none
    | some p => if i % 2 = 0 then (h.mem p).left else (h.mem p).right
termination_by i
decreasing_by omega

/-- `h` is a well-formed min-heap of the nodes `S`. -/
structure WellFormed (lt : α → α → Bool) (h : Heap α) (S : Finset α) : Prop where
  /-- the complete binary tree of `nelts` nodes, filled left to right -/
  complete : ∀ i, (nodeAt h i).isSome = true ↔ 1 ≤ i ∧ i ≤ h.nelts.toNat
  once : ∀ i j x, nodeAt h i = some x → nodeAt h j = some x → i = j
  /-- `parent` points back to the node whose `left` or `right` led here -/
  parent : ∀ i x, nodeAt h i = some x → (h.mem x).parent = nodeAt h (i / 2)
  ordered : ∀ i x p, nodeAt h i = some x → nodeAt h (i / 2) = some p → lt x p = false
  nodes : ∀ x, x ∈ S ↔ ∃ i, nodeAt h i = some x
  empty : heapMin h = none ↔ S = ∅
  least : ∀ m, heapMin h = some m → m ∈ S ∧ ∀ x ∈ S, lt x m = false

theorem Lays.nodeAt {s : Layout α} {h : Heap α} {n : ℕ} (hl : Lays s h) (hc : Complete s n) (i : ℕ) :
    nodeAt h i = s i := by
  induction i using Nat.strongRecOn with
  | ind i ih =>
    unfold HeapInl.nodeAt
    split
    · next h0 => rw [h0, hc.zero]
    · split
      · next h1 => rw [h1]; exact hl.root
      · rw [ih (i / 2) (by omega)]
        cases hp : s (i / 2) with
        | none =>
          refine (hc.none_of fun hi => ?_).symm
          obtain ⟨y, hy⟩ := hc.get (i := i / 2) (by omega) (by omega)
          rw [hp] at hy; cases hy
        | some p =>
          simp only
          split
          · rw [hl.left hp]; congr 1; omega
          · rw [hl.right hp]; congr 1; omega

theorem HeapAt.wellFormed {s : Layout α} {h : Heap α} (hw : StrictWeakOrder lt) (hs : HeapAt lt s h)
    {S : Finset α} (hS : ∀ x, Has s x ↔ x ∈ S) : WellFormed lt h S := by
  obtain ⟨hl, hc, ho⟩ := hs
  have hn := hl.nodeAt hc
  constructor
  · intro i; rw [hn]; exact hc.filled i
  · intro i j x; rw [hn, hn]; exact hc.inj
  · intro i x; rw [hn, hn]; exact hl.parent
  · intro i x p; rw [hn, hn]; exact ho i x p
  · intro x; simp only [hn]; exact (hS x).symm
  · rw [heapMin, hl.root, Finset.eq_empty_iff_forall_notMem]
    constructor
    · rintro h1 x hx
      obtain ⟨i, hi⟩ := (hS x).mpr hx
      have hir := hc.range hi
      obtain ⟨y, hy⟩ := hc.get (i := 1) (by omega) (by omega)
      rw [h1] at hy; cases hy
    · intro h1
      cases he : s 1 with
      | none => rfl
      | some y => exact absurd ((hS y).mp ⟨1, he⟩) (h1 y)
  · intro m hm
    rw [heapMin, hl.root] at hm
    refine ⟨(hS m).mp ⟨1, hm⟩, fun x hx => ?_⟩
    obtain ⟨i, hi⟩ := (hS x).mpr hx
    exact ho.root_min hw hc hm i x hi

end Promise

/-! ## Runs -/

inductive Op (α : Type*) where
  | insert (x : α)
  | remove (x : α)
  | dequeue

def Op.run (lt : α → α → Bool) (h : Heap α) : Op α → Option (Heap α)
  | .insert x => heapInsert lt h x
  | .remove x => heapRemove lt h (some x)
  | .dequeue => heapDequeue lt h

/-- The heap, and which nodes have been inserted and not removed since. -/
structure HeapState (α : Type*) where
  heap : Heap α
  nodes : Finset α

namespace HeapState

/-- What callers of the heap observe: a node is inserted when it is not in the heap
and removed when it is. -/
def Allowed (s : HeapState α) : Op α → Prop
  | .insert x => x ∉ s.nodes
  | .remove x => x ∈ s.nodes
  | .dequeue => True

/-- The nodes after an operation; a dequeue takes the one `heap_min` returns. -/
def nodesAfter (s : HeapState α) : Op α → Finset α
  | .insert x => insert x s.nodes
  | .remove x => s.nodes.erase x
  | .dequeue => match heapMin s.heap with
    | some m => s.nodes.erase m
    | none => s.nodes

/-- Room for one more node number in `nelts`. -/
def Room (s : HeapState α) : Op α → Prop
  | .insert _ => s.nodes.card + 1 < 2 ^ 32
  | _ => True

end HeapState

/-- All sequences of insertions, removals and dequeues from `heap_init`. -/
def heapSystem (lt : α → α → Bool) : LTS (HeapState α) (Op α) where
  init s := (∃ mem, s.heap = heapInit mem) ∧ s.nodes = ∅
  step s op s' := s.Allowed op ∧ op.run lt s.heap = some s'.heap ∧ s'.nodes = s.nodesAfter op

/-- The invariant: the heap is laid out as a heap of exactly `nodes`. -/
def Sound (lt : α → α → Bool) (s : HeapState α) : Prop :=
  ∃ l, HeapAt lt l s.heap ∧ ∀ x, Has l x ↔ x ∈ s.nodes

omit [DecidableEq α] in
theorem Complete.card {l : Layout α} {n : ℕ} (hc : Complete l n) {S : Finset α}
    (hS : ∀ x, Has l x ↔ x ∈ S) : S.card = n := by
  have hS' : ∀ x ∈ S, ∃ i, l i = some x := fun x hx => (hS x).mpr hx
  choose! pos hpos using hS'
  rw [← Nat.card_Icc 1 n |>.trans (Nat.add_sub_cancel n 1)]
  refine Finset.card_bij (fun x _ => pos x) ?_ ?_ ?_
  · intro x hx
    exact Finset.mem_Icc.mpr (hc.range (hpos x hx))
  · intro x hx y hy e
    have h1 := hpos x hx
    rw [e, hpos y hy] at h1
    exact (Option.some.inj h1).symm
  · intro i hi
    obtain ⟨h1, h2⟩ := Finset.mem_Icc.mp hi
    obtain ⟨x, hx⟩ := hc.get h1 h2
    have hxS := (hS x).mp ⟨i, hx⟩
    exact ⟨x, hxS, hc.inj (hpos x hxS) hx⟩

omit [DecidableEq α] in
theorem sound_init {mem : α → HeapNode α} : Sound lt ⟨heapInit mem, ∅⟩ := by
  refine ⟨fun _ => none, ⟨⟨rfl, fun h => nomatch h⟩, ⟨?_, fun h => nomatch h⟩, fun _ _ _ h => nomatch h⟩, ?_⟩
  · intro i; simp [heapInit]; omega
  · intro x; simp [Has]

/-- **One step.** With room for one more node an allowed operation returns, and the
heap holds exactly the nodes it should. -/
theorem sound_step (hw : StrictWeakOrder lt) {s : HeapState α} (hs : Sound lt s) {op : Op α}
    (ha : s.Allowed op) (hr : s.Room op) :
    ∃ h', op.run lt s.heap = some h' ∧ Sound lt ⟨h', s.nodesAfter op⟩ := by
  obtain ⟨l, hl, hS⟩ := hs
  have remove : ∀ x, x ∈ s.nodes → ∃ h', heapRemove lt s.heap (some x) = some h' ∧
      Sound lt ⟨h', s.nodes.erase x⟩ := by
    intro x hx
    obtain ⟨l', h', he, hl', -, hS'⟩ := remove_spec hw hl ((hS x).mpr hx)
    refine ⟨h', he, l', hl', fun y => ?_⟩
    rw [hS', hS, Finset.mem_erase, and_comm]
  cases op with
  | insert x =>
    have hn := Complete.card hl.complete hS
    obtain ⟨l', h', he, hl', -, hS'⟩ := insert_spec hw hl (fun h => ha ((hS x).mp h))
      (by rw [← hn]; exact hr)
    refine ⟨h', he, l', hl', fun y => ?_⟩
    simp only [HeapState.nodesAfter]
    rw [hS', hS, Finset.mem_insert]
  | remove x => exact remove x ha
  | dequeue =>
    simp only [Op.run, heapDequeue, HeapState.nodesAfter, heapMin]
    cases hm : s.heap.min with
    | some m =>
      have hm1 : l 1 = some m := hl.lays.root.symm.trans hm
      exact remove m ((hS m).mp ⟨1, hm1⟩)
    | none =>
      -- an empty heap is left as it is
      have hm1 : l 1 = none := hl.lays.root.symm.trans hm
      have hn : s.heap.nelts = 0 := by
        have := (hl.complete.filled 1).not.mp (by simp [hm1])
        exact UInt32.toNat_inj.mp (by rw [UInt32.toNat_zero]; omega)
      exact ⟨s.heap, by simp [heapRemove, hn], l, hl, hS⟩

theorem sound_run (hw : StrictWeakOrder lt) :
    ((heapSystem lt).restrict HeapState.Room).Inductive (Sound lt) where
  init := by
    rintro ⟨h, S⟩ ⟨⟨mem, rfl⟩, rfl⟩
    exact sound_init
  step := by
    rintro s op ⟨h, S⟩ hs ⟨hroom, ha, hrun, rfl⟩
    obtain ⟨h', he, hs'⟩ := sound_step hw hs ha hroom
    rw [hrun] at he; cases he
    exact hs'

/-- **The timer heap over whole runs.** As long as fewer than 2^32 nodes are in the
heap at once, it is a well-formed min-heap of exactly the nodes inserted and not yet
removed after every operation, and every operation returns. -/
theorem wellFormed_run (hw : StrictWeakOrder lt) {s : HeapState α}
    (hr : ((heapSystem lt).restrict HeapState.Room).Reachable s) :
    WellFormed lt s.heap s.nodes ∧ ∀ op, s.Allowed op → s.Room op → ∃ h', op.run lt s.heap = some h' := by
  have hs := (sound_run hw).reachable hr
  refine ⟨?_, fun op ha hroom => ?_⟩
  · obtain ⟨l, hl, hS⟩ := hs
    exact hl.wellFormed hw hS
  · obtain ⟨h', he, -⟩ := sound_step hw hs ha hroom
    exact ⟨h', he⟩

theorem reachable_op (hw : StrictWeakOrder lt) {s : HeapState α}
    (hr : ((heapSystem lt).restrict HeapState.Room).Reachable s) (op : Op α)
    (ha : s.Allowed op) (hroom : s.Room op) :
    ∃ s', ((heapSystem lt).restrict HeapState.Room).Reachable s' ∧ s'.nodes = s.nodesAfter op := by
  obtain ⟨h', he, -⟩ := sound_step hw ((sound_run hw).reachable hr) ha hroom
  exact ⟨⟨h', s.nodesAfter op⟩, hr.step (l := op) ⟨hroom, ha, he, rfl⟩, rfl⟩

/-- Two timers due at 5 and 3: the second comes to the top. -/
theorem wellFormed_run_two :
    ∃ s : HeapState ℕ, s.nodes = {3, 5} ∧ WellFormed (fun a b => decide (a < b)) s.heap s.nodes ∧
      heapMin s.heap = some 3 := by
  have hw : StrictWeakOrder (fun a b : ℕ => decide (a < b)) := by
    constructor <;> intros <;> simp_all <;> omega
  have h0 : ((heapSystem fun a b : ℕ => decide (a < b)).restrict HeapState.Room).Reachable
      ⟨heapInit fun _ => ⟨none, none, none⟩, ∅⟩ := .init ⟨⟨_, rfl⟩, rfl⟩
  obtain ⟨s1, h1, n1⟩ := reachable_op hw h0 (.insert 5) (by simp [HeapState.Allowed])
    (by simp [HeapState.Room])
  have n1 : s1.nodes = {5} := by rw [n1]; rfl
  obtain ⟨s2, h2, n2⟩ := reachable_op hw h1 (.insert 3) (by simp [HeapState.Allowed, n1])
    (by simp [HeapState.Room, n1])
  have n2 : s2.nodes = {3, 5} := by rw [n2, HeapState.nodesAfter, n1]
  have hwf := (wellFormed_run hw h2).1
  refine ⟨s2, n2, hwf, ?_⟩
  have hmem : ∀ x, x ∈ s2.nodes ↔ x = 3 ∨ x = 5 := by simp [n2]
  cases hm : heapMin s2.heap with
  | none => exact absurd (hwf.empty.mp hm) (by rw [n2]; decide)
  | some m =>
    obtain ⟨k1, k2⟩ := hwf.least m hm
    have k3 := k2 3 ((hmem 3).mpr (.inl rfl))
    rcases (hmem m).mp k1 with rfl | rfl
    · rfl
    · simp at k3

/-! ## The limit of `nelts` -/

theorem reachable_range (k : ℕ) (hk : k < 2 ^ 32) :
    ∃ s : HeapState ℕ, ((heapSystem fun _ _ : ℕ => false).restrict HeapState.Room).Reachable s ∧
      s.nodes = Finset.range k := by
  have hw : StrictWeakOrder (fun _ _ : ℕ => false) := by constructor <;> simp
  induction k with
  | zero =>
    exact ⟨⟨heapInit fun _ => ⟨none, none, none⟩, ∅⟩, .init ⟨⟨_, rfl⟩, rfl⟩, rfl⟩
  | succ k ih =>
    obtain ⟨s, hr, hn⟩ := ih (by omega)
    obtain ⟨s', hr', hn'⟩ := reachable_op hw hr (.insert k) (by simp [HeapState.Allowed, hn])
      (by simp only [HeapState.Room, hn, Finset.card_range]; omega)
    exact ⟨s', hr', by rw [hn', HeapState.nodesAfter, hn, Finset.range_add_one]⟩

/-- With `nelts` at its limit the new node's number is 0: the node becomes `heap->min`
with the old root as its parent, and the count starts over. -/
theorem insert_wraps {h : Heap α} (hn : h.nelts = 4294967295) {x : α} (hx : ∀ p, lt x p = false) :
    ∃ h', heapInsert lt h x = some h' ∧ heapMin h' = some x ∧ h'.nelts = 0 ∧
      (h'.mem x).left = none ∧ (h'.mem x).right = none := by
  have h1 : (1 + h.nelts : UInt32) = 0 := by rw [hn]; rfl
  have h2 : (h.nelts + 1 : UInt32) = 0 := by rw [hn]; rfl
  have hpath : pathTo 0 0 0 = (0, 0) := by unfold pathTo; rfl
  have hsift : ∀ g : Heap α, siftUp lt loopFuel g x = some g := by
    intro g
    rw [show loopFuel = (2 ^ 32 - 1) + 1 from rfl]
    unfold siftUp
    split <;> simp [hx]
  unfold heapInsert
  simp only [Heap.store_nelts, h1, hpath, UInt32.toNat_zero, walk, hsift]
  refine ⟨_, rfl, ?_, ?_, ?_, ?_⟩
  · simp [heapMin, Heap.assign]
  · simp [Heap.assign, h2]
  · simp [Heap.assign]
  · simp [Heap.assign]

omit [DecidableEq α] in
theorem nodeAt_root {h : Heap α} {x : α} (hm : heapMin h = some x) (hl : (h.mem x).left = none)
    (hr : (h.mem x).right = none) {i : ℕ} {y : α} (hy : nodeAt h i = some y) : y = x := by
  induction i using Nat.strongRecOn generalizing y with
  | ind i ih =>
    unfold nodeAt at hy
    split at hy
    · cases hy
    · split at hy
      · exact Option.some.inj (hy.symm.trans hm)
      · cases hp : nodeAt h (i / 2) with
        | none => simp [hp] at hy
        | some p =>
          rw [hp, ih (i / 2) (by omega) hp] at hy
          simp [hl, hr] at hy

/-- **The heap does not survive 2^32 nodes.** -/
theorem full_heap_breaks : ¬ ∀ lt : ℕ → ℕ → Bool, StrictWeakOrder lt →
    ∀ s, (heapSystem lt).Reachable s → WellFormed lt s.heap s.nodes := by
  intro hall
  have hw : StrictWeakOrder (fun _ _ : ℕ => false) := by constructor <;> simp
  obtain ⟨s, hr, hn⟩ := reachable_range (2 ^ 32 - 1) (by decide)
  have hnelts : s.heap.nelts = 4294967295 := by
    obtain ⟨l, hl, hS⟩ := (sound_run hw).reachable hr
    have hcard := Complete.card hl.complete hS
    rw [hn, Finset.card_range] at hcard
    exact UInt32.toNat_inj.mp hcard.symm
  obtain ⟨h', he, hmin, hzero, -, -⟩ : ∃ h', heapInsert (fun _ _ => false) s.heap 4294967295 = some h' ∧ _ :=
    insert_wraps hnelts fun _ => rfl
  have hstep : (heapSystem fun _ _ : ℕ => false).step s (.insert 4294967295)
      ⟨h', s.nodesAfter (.insert 4294967295)⟩ := ⟨by simp [HeapState.Allowed, hn], he, rfl⟩
  have hr' := hr.of_restrict.step hstep
  have hwf := hall _ hw _ hr'
  -- `heap->min` is set and `nelts` is 0
  have h1 := (hwf.complete 1).mp (by
    unfold nodeAt
    rw [show h'.min = some 4294967295 from hmin]; rfl)
  rw [hzero] at h1
  simp at h1

end Libuv.L1.HeapInl
