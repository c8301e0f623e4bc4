import Mathlib.Tactic
import Mathlib.Data.UInt

/-!
# The timer heap (`heap-inl.h`)

`libuv/src/heap-inl.h`. Nodes are `struct heap_node`s embedded in user memory, so the
memory is a function from nodes to their three pointers and `NULL` is `none`. The
heap header holds the root pointer and `nelts`, an `unsigned int`: `UInt32`, with
its wrap-around. `less_than` reads only the structure the node is embedded in,
which no heap operation writes, so it is a fixed function on nodes.

An operation returns `none` where the C code dereferences `NULL` or where a loop
does not end within `loopFuel` rounds; `HeapRun` shows that neither happens on the
sequences the heap is made for.
-/
namespace Libuv.L1.HeapInl

variable {α : Type*}

/-- mirrors heap-inl.h:27-31 -/
structure HeapNode (α : Type*) where
  left : Option α
  right : Option α
  parent : Option α
  deriving DecidableEq

/-- `min` and `nelts` are the header (heap-inl.h:40-43), `mem` the nodes. -/
structure Heap (α : Type*) where
  min : Option α
  nelts : UInt32
  mem : α → HeapNode α

/-- mirrors heap-inl.h:62-65; the nodes are left alone. -/
def heapInit (mem : α → HeapNode α) : Heap α := { min := none, nelts := 0, mem := mem }

/-- mirrors heap-inl.h:67-69 -/
def heapMin (h : Heap α) : Option α := h.min

/-! ## Pointer stores -/

variable [DecidableEq α]

namespace Heap

/-- `*a = v` for a whole node. -/
def store (h : Heap α) (a : α) (v : HeapNode α) : Heap α :=
  { h with mem := fun x => if x = a then v else h.mem x }

def setLeft (h : Heap α) (a : α) (o : Option α) : Heap α := h.store a { h.mem a with left := o }
def setRight (h : Heap α) (a : α) (o : Option α) : Heap α := h.store a { h.mem a with right := o }
def setParent (h : Heap α) (a : α) (o : Option α) : Heap α := h.store a { h.mem a with parent := o }

/-- `if (p != NULL) p->parent = v`. -/
def adopt (h : Heap α) (p : Option α) (v : α) : Heap α :=
  match p with
  | some a => h.setParent a (some v)
  | none => h

/-- The pointer to `old` in `g` (the header when `g` is `NULL`) redirected to `new`:
`if (g == NULL) heap->min = new; else if (g->left == old) g->left = new; else g->right = new`. -/
def relink (h : Heap α) (g : Option α) (old new : α) : Heap α :=
  match g with
  | none => { h with min := some new }
  | some g => if (h.mem g).left = some old then h.setLeft g (some new) else h.setRight g (some new)

section Fields
variable (h : Heap α) (a x v : α) (o : Option α) (nd : HeapNode α)

@[simp] theorem store_mem : (h.store a nd).mem x = if x = a then nd else h.mem x := rfl
@[simp] theorem store_min : (h.store a nd).min = h.min := rfl
@[simp] theorem store_nelts : (h.store a nd).nelts = h.nelts := rfl

@[simp] theorem setLeft_left :
    ((h.setLeft a o).mem x).left = if x = a then o else (h.mem x).left := by
  unfold setLeft; rw [store_mem]; split <;> simp_all
@[simp] theorem setLeft_right : ((h.setLeft a o).mem x).right = (h.mem x).right := by
  unfold setLeft; rw [store_mem]; split <;> simp_all
@[simp] theorem setLeft_parent : ((h.setLeft a o).mem x).parent = (h.mem x).parent := by
  unfold setLeft; rw [store_mem]; split <;> simp_all
@[simp] theorem setRight_left : ((h.setRight a o).mem x).left = (h.mem x).left := by
  unfold setRight; rw [store_mem]; split <;> simp_all
@[simp] theorem setRight_right :
    ((h.setRight a o).mem x).right = if x = a then o else (h.mem x).right := by
  unfold setRight; rw [store_mem]; split <;> simp_all
@[simp] theorem setRight_parent : ((h.setRight a o).mem x).parent = (h.mem x).parent := by
  unfold setRight; rw [store_mem]; split <;> simp_all
@[simp] theorem setParent_left : ((h.setParent a o).mem x).left = (h.mem x).left := by
  unfold setParent; rw [store_mem]; split <;> simp_all
@[simp] theorem setParent_right : ((h.setParent a o).mem x).right = (h.mem x).right := by
  unfold setParent; rw [store_mem]; split <;> simp_all
@[simp] theorem setParent_parent :
    ((h.setParent a o).mem x).parent = if x = a then o else (h.mem x).parent := by
  unfold setParent; rw [store_mem]; split <;> simp_all

@[simp] theorem setLeft_min : (h.setLeft a o).min = h.min := rfl

@[simp] theorem setRight_min : (h.setRight a o).min = h.min := rfl
@[simp] theorem setParent_min : (h.setParent a o).min = h.min := rfl
@[simp] theorem setLeft_nelts : (h.setLeft a o).nelts = h.nelts := rfl
@[simp] theorem setRight_nelts : (h.setRight a o).nelts = h.nelts := rfl
@[simp] theorem setParent_nelts : (h.setParent a o).nelts = h.nelts := rfl
@[simp] theorem adopt_left (p : Option α) : ((h.adopt p v).mem x).left = (h.mem x).left := by
  cases p <;> simp [adopt]
@[simp] theorem adopt_right (p : Option α) : ((h.adopt p v).mem x).right = (h.mem x).right := by
  cases p <;> simp [adopt]
@[simp] theorem adopt_parent (p : Option α) :
    ((h.adopt p v).mem x).parent = if p = some x then some v else (h.mem x).parent := by
  cases p with
  | none => simp [adopt]
  | some a => simp [adopt, eq_comm]
@[simp] theorem adopt_min (p : Option α) : (h.adopt p v).min = h.min := by cases p <;> simp [adopt]
@[simp] theorem adopt_nelts (p : Option α) : (h.adopt p v).nelts = h.nelts := by
  cases p <;> simp [adopt]

variable (g : Option α) (old new : α)

@[simp] theorem relink_parent : ((h.relink g old new).mem x).parent = (h.mem x).parent := by
  cases g with
  | none => rfl
  | some g => simp only [relink]; split <;> simp
@[simp] theorem relink_min : (h.relink g old new).min = if g = none then some new else h.min := by
  cases g with
  | none => rfl
  | some g => simp only [relink]; split <;> simp
@[simp] theorem relink_nelts : (h.relink g old new).nelts = h.nelts := by
  cases g with
  | none => rfl
  | some g => simp only [relink]; split <;> simp
@[simp] theorem relink_left : ((h.relink g old new).mem x).left =
    if g = some x ∧ (h.mem x).left = some old then some new else (h.mem x).left := by
  cases g with
  | none => simp [relink]
  | some g =>
    simp only [relink, Option.some.injEq]
    split <;> by_cases hx : x = g <;> simp_all [eq_comm]
@[simp] theorem relink_right : ((h.relink g old new).mem x).right =
    if g = some x ∧ (h.mem x).left ≠ some old then some new else (h.mem x).right := by
  cases g with
  | none => simp [relink]
  | some g =>
    simp only [relink, Option.some.injEq]
    split <;> by_cases hx : x = g <;> simp_all [eq_comm]

end Fields

end Heap

/-! ## Swapping a node with its parent -/

/-- The two node structures exchanged, with the self references the exchange makes
put right: `child` points down to `parent`, which points up to `child`.
mirrors heap-inl.h:78-91 -/
def exchange (h : Heap α) (parent child : α) : Heap α :=
  let t := h.mem parent
  let h := h.store parent (h.mem child)
  let h := h.store child t
  let h := h.setParent parent (some child)
  if (h.mem child).left = some child then
    let h := h.setLeft child (some parent)
    h.adopt (h.mem child).right child
  else
    let h := h.setRight child (some parent)
    h.adopt (h.mem child).left child

/-- Swap parent with child. Child moves closer to the root, parent moves away.
mirrors heap-inl.h:72-104 -/
def heapNodeSwap (h : Heap α) (parent child : α) : Heap α :=
  let h := exchange h parent child
  let h := h.adopt (h.mem parent).left parent
  let h := h.adopt (h.mem parent).right parent
  h.relink (h.mem child).parent parent child

/-! ## The path to a position -/

/-- The loop `for (k = 0, n = ..; n >= 2; k += 1, n /= 2) path = (path << 1) | (n & 1)`.
mirrors heap-inl.h:122-124,166-168 -/
def pathTo (path k n : UInt32) : UInt32 × UInt32 :=
  if 2 ≤ n then pathTo ((path <<< 1) ||| (n &&& 1)) (k + 1) (n / 2) else (path, k)
termination_by n.toNat
decreasing_by
  rename_i h
  have h2 : 2 ≤ n.toNat := by simpa [UInt32.le_iff_toNat_le] using h
  simp only [UInt32.toNat_div, UInt32.reduceToNat]
  omega

/-- The places a `struct heap_node**` of this file points to. -/
inductive Slot (α : Type*) where
  | min
  | left (a : α)
  | right (a : α)
  deriving DecidableEq

/-- `*slot`. -/
def Heap.load (h : Heap α) : Slot α → Option α
  | .min => h.min
  | .left a => (h.mem a).left
  | .right a => (h.mem a).right

/-- `*slot = o`. -/
def Heap.assign (h : Heap α) (o : Option α) : Slot α → Heap α
  | .min => { h with min := o }
  | .left a => h.setLeft a o
  | .right a => h.setRight a o

/-- The traversal `while (k > 0) { parent = child; child = &(*child)->left/right; .. }`.
`none`: `*child` is `NULL`. heap_remove walks `max` the same way and keeps no `parent`.
mirrors heap-inl.h:127-136,171-179 -/
def walk (h : Heap α) : ℕ → UInt32 → Slot α → Slot α → Option (Slot α × Slot α)
  | 0, _, parent, child => some (parent, child)
  | k + 1, path, _, child =>
    match h.load child with
    | none => none
    | some a => walk h k (path >>> 1) child (if path &&& 1 ≠ 0 then .right a else .left a)

/-! ## Insertion and removal -/

section Ops
variable (lessThan : α → α → Bool)

/-- Rounds a sift loop is followed for: more than a heap has nodes. -/
def loopFuel : ℕ := 2 ^ 32

/-- mirrors heap-inl.h:146-147,235-236 -/
def siftUp : ℕ → Heap α → α → Option (Heap α)
  | 0, _, _ => none
  | fuel + 1, h, a =>
    match (h.mem a).parent with
    | none => some h
    | some p => if lessThan a p then siftUp fuel (heapNodeSwap h p a) a else some h

/-- `if (p != NULL && less_than(p, smallest)) smallest = p`. -/
def smaller (p : Option α) (smallest : α) : α :=
  match p with
  | some a => if lessThan a smallest then a else smallest
  | none => smallest

/-- The smallest of `child` and its children.
mirrors heap-inl.h:221-225 -/
def smallestOf (h : Heap α) (child : α) : α :=
  smaller lessThan (h.mem child).right (smaller lessThan (h.mem child).left child)

/-- mirrors heap-inl.h:220-229 -/
def siftDown : ℕ → Heap α → α → Option (Heap α)
  | 0, _, _ => none
  | fuel + 1, h, child =>
    let smallest := smallestOf lessThan h child
    if smallest = child then some h
    else siftDown fuel (heapNodeSwap h child smallest) child

/-- mirrors heap-inl.h:106-148 -/
def heapInsert (h : Heap α) (newnode : α) : Option (Heap α) :=
  let h := h.store newnode { left := none, right := none, parent := none }
  let pk := pathTo 0 0 (1 + h.nelts)
  match walk h pk.2.toNat pk.1 .min .min with
  | none => none
  | some (parent, child) =>
    let h := h.setParent newnode (h.load parent)
    let h := h.assign (some newnode) child
    let h := { h with nelts := h.nelts + 1 }
    siftUp lessThan loopFuel h newnode

/-- `child`, already unlinked, put in the place of `node`.
mirrors heap-inl.h:196-214 -/
def replaceNode (h : Heap α) (node child : α) : Heap α :=
  let h := h.setLeft child (h.mem node).left
  let h := h.setRight child (h.mem node).right
  let h := h.setParent child (h.mem node).parent
  let h := h.adopt (h.mem child).left child
  let h := h.adopt (h.mem child).right child
  h.relink (h.mem node).parent node child

/-- mirrors heap-inl.h:150-237 -/
def heapRemove (h : Heap α) (node : Option α) : Option (Heap α) :=
  if h.nelts = 0 then some h
  else
    let pk := pathTo 0 0 h.nelts
    match walk h pk.2.toNat pk.1 .min .min with
    | none => none
    | some (_, max) =>
      let h := { h with nelts := h.nelts - 1 }
      let child := h.load max
      let h := h.assign none max
      if child = node then
        some (if child = h.min then { h with min := none } else h)
      else
        match node, child with
        | some node, some child =>
          (siftDown lessThan loopFuel (replaceNode h node child) child).bind fun h =>
            siftUp lessThan loopFuel h child
        | _, _ => none

/-- mirrors heap-inl.h:239-241 -/
def heapDequeue (h : Heap α) : Option (Heap α) := heapRemove lessThan h h.min

end Ops

end Libuv.L1.HeapInl
