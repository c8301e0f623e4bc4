import Libuv.Core.Ring

/-!
# Intrusive queues (`queue.h`)

The macros of `libuv/src/queue.h`, store by store, on a memory of nodes. A queue is a
`Ring`: the head and the nodes it holds, in order.
-/
namespace Libuv.L1.Queue

open List

variable {α : Type*} [DecidableEq α]

def setNext (m : Links α) (a b : α) : Links α := { m with next := Function.update m.next a b }

def setPrev (m : Links α) (a b : α) : Links α := { m with prev := Function.update m.prev a b }

/-- mirrors queue.h:39-40 -/
def empty (m : Links α) (q : α) : Bool := q == m.next q

/-- mirrors queue.h:42-43 -/
def head (m : Links α) (q : α) : α := m.next q

/-- mirrors queue.h:45-50 -/
def init (m : Links α) (q : α) : Links α := setPrev (setNext m q q) q q

/-- mirrors queue.h:61-70 -/
def split (m : Links α) (h q n : α) : Links α :=
  let m := setPrev m n (m.prev h)
  let m := setNext m (m.prev n) n
  let m := setNext m n q
  let m := setPrev m h (m.prev q)
  let m := setNext m (m.prev h) h
  setPrev m q n

/-- mirrors queue.h:72-81 -/
def move (m : Links α) (h n : α) : Links α := if empty m h then init m n else split m h (head m h) n

/-- mirrors queue.h:83-90 -/
def insertHead (m : Links α) (h q : α) : Links α :=
  let m := setNext m q (m.next h)
  let m := setPrev m q h
  let m := setPrev m (m.next q) q
  setNext m h q

/-- mirrors queue.h:92-99 -/
def insertTail (m : Links α) (h q : α) : Links α :=
  let m := setNext m q h
  let m := setPrev m q (m.prev h)
  let m := setNext m (m.prev q) q
  setPrev m h q

/-- mirrors queue.h:101-106 -/
def remove (m : Links α) (q : α) : Links α :=
  let m := setNext m (m.prev q) (m.next q)
  setPrev m (m.next q) (m.prev q)

variable {m : Links α} {a b h n q : α} {l l' : List α}

@[simp] theorem setNext_next (x : α) : (setNext m a b).next x = if x = a then b else m.next x :=
  Function.update_apply _ _ _ _
@[simp] theorem setNext_prev : (setNext m a b).prev = m.prev := rfl
@[simp] theorem setPrev_prev (x : α) : (setPrev m a b).prev x = if x = a then b else m.prev x :=
  Function.update_apply _ _ _ _
@[simp] theorem setPrev_next : (setPrev m a b).next = m.next := rfl

theorem init_ring : Ring (init m h) h [] := by
  refine ⟨?_, by simp⟩
  simp [Linked, init]

theorem empty_iff (hr : Ring m h l) : empty m h = true ↔ l = [] := by
  unfold empty
  rw [beq_iff_eq, eq_comm, hr.next_head_eq_iff]

omit [DecidableEq α] in
theorem head_eq (hr : Ring m h (q :: l)) : head m h = q := hr.next_head

theorem insertHead_ring (hr : Ring m h l) (hq : q ∉ h :: l) : Ring (insertHead m h q) h (q :: l) := by
  obtain ⟨z, post, hz⟩ := exists_cons_of_ne_nil (l := l ++ [h]) (by simp)
  have hnext : m.next h = z := by rw [hr.next_head]; simp [hz]
  have hqh : h ≠ q := fun e => hq (by simp [e])
  have hzq : z ≠ q := by
    intro e
    have : q ∈ l ++ [h] := by rw [hz, e]; simp
    exact hq (by simpa [or_comm] using this)
  refine Ring.insert (l := []) (k := l) hr (by rfl : [h] = [] ++ [h]) hz hq ?_ ?_ ?_ ?_ ?_ ?_
  · simp [insertHead]
  · simp [insertHead, hnext, hzq.symm]
  · simp [insertHead, hnext, hqh.symm]
  · simp [insertHead, hnext]
  · intro a ha hne
    have haq : a ≠ q := fun e => hq (e ▸ ha)
    simp [insertHead, hne, haq]
  · intro a ha hne
    have haq : a ≠ q := fun e => hq (e ▸ ha)
    simp [insertHead, hnext, hne, haq]

theorem insertTail_ring (hr : Ring m h l) (hq : q ∉ h :: l) : Ring (insertTail m h q) h (l ++ [q]) := by
  obtain ⟨pre, x, hx⟩ := (eq_nil_or_concat' (h :: l)).resolve_left (by simp)
  have hprev : m.prev h = x := hr.prev_head hx
  have hqh : h ≠ q := fun e => hq (by simp [e])
  have hxq : x ≠ q := by
    intro e
    exact hq (by rw [hx, e]; simp)
  rw [← append_nil l] at hr hq
  refine Ring.insert hr hx rfl hq ?_ ?_ ?_ ?_ ?_ ?_
  · simp [insertTail, hprev]
  · simp [insertTail, hprev, hqh.symm]
  · simp [insertTail, hprev, hxq.symm]
  · simp [insertTail]
  · intro a ha hne
    have haq : a ≠ q := fun e => hq (e ▸ ha)
    simp [insertTail, hprev, hne, haq]
  · intro a ha hne
    have haq : a ≠ q := fun e => hq (e ▸ ha)
    simp [insertTail, hne, haq]

theorem remove_ring (hr : Ring m h (l ++ q :: l')) : Ring (remove m q) h (l ++ l') := by
  obtain ⟨pre, x, z, post, hx, hz, -, hpq, hnq, -⟩ := hr.around
  have he : remove m q = setPrev (setNext m x z) z x := by
    unfold remove
    simp [hpq, hnq]
  rw [he]
  refine Ring.erase hr hx hz ?_ ?_ ?_ ?_
  · simp
  · simp
  · intro a _ hne
    simp [hne]
  · intro a _ hne
    simp [hne]

/-! ## The other queues -/

section Other
variable {h' : α} {k : List α}

theorem insertHead_other (hr : Ring m h l) (ho : Ring m h' k) (hd : ∀ x ∈ h' :: k, x ≠ q ∧ x ∉ h :: l) :
    Ring (insertHead m h q) h' k := by
  obtain ⟨z, post, hz⟩ := exists_cons_of_ne_nil (l := l ++ [h]) (by simp)
  have hnext : m.next h = z := by rw [hr.next_head]; simp [hz]
  have hz' : z ∈ h :: l := by
    have : z ∈ l ++ [h] := by rw [hz]; simp
    simpa [or_comm] using this
  refine ho.congr (fun x hx => ?_) fun x hx => ?_
  · have hxh : x ≠ h := fun e => (hd x hx).2 (by simp [e])
    simp [insertHead, (hd x hx).1, hxh]
  · have hxz : x ≠ z := fun e => (hd x hx).2 (e ▸ hz')
    simp [insertHead, hnext, (hd x hx).1, hxz]

theorem insertTail_away {x : α} (hr : Ring m h l) (hxq : x ≠ q) (hx : x ∉ h :: l) :
    (insertTail m h q).next x = m.next x ∧ (insertTail m h q).prev x = m.prev x := by
  obtain ⟨pre, y, hy⟩ := (eq_nil_or_concat' (h :: l)).resolve_left (by simp)
  have hprev : m.prev h = y := hr.prev_head hy
  have hxy : x ≠ y := fun e => hx (by rw [e, hy]; simp)
  have hxh : x ≠ h := fun e => hx (by simp [e])
  refine ⟨?_, ?_⟩
  · simp [insertTail, hprev, hxq, hxy]
  · simp [insertTail, hxq, hxh]

theorem remove_away {x : α} (hr : Ring m h (l ++ q :: l')) (hx : x ∉ h :: (l ++ q :: l')) :
    (remove m q).next x = m.next x ∧ (remove m q).prev x = m.prev x := by
  obtain ⟨pre, y, z, post, hy, hz, -, hpq, hnq, -⟩ := hr.around
  have hym : y ∈ h :: l := by rw [hy]; simp
  have hzm : z ∈ l' ++ [h] := by rw [hz]; simp
  have hxy : x ≠ y := fun e => hx (by rw [e]; simp at hym ⊢; tauto)
  have hxz : x ≠ z := fun e => hx (by rw [e]; simp at hzm ⊢; tauto)
  refine ⟨?_, ?_⟩
  · simp [remove, hpq, hxy]
  · unfold remove
    simp [hpq, hnq, hxz]

theorem insertTail_other (hr : Ring m h l) (ho : Ring m h' k) (hd : ∀ x ∈ h' :: k, x ≠ q ∧ x ∉ h :: l) :
    Ring (insertTail m h q) h' k :=
  ho.congr (fun x hx => (insertTail_away hr (hd x hx).1 (hd x hx).2).1) fun x hx =>
    (insertTail_away hr (hd x hx).1 (hd x hx).2).2

theorem remove_other (hr : Ring m h (l ++ q :: l')) (ho : Ring m h' k) (hd : ∀ x ∈ h' :: k, x ∉ h :: (l ++ q :: l')) :
    Ring (remove m q) h' k :=
  ho.congr (fun x hx => (remove_away hr (hd x hx)).1) fun x hx => (remove_away hr (hd x hx)).2

end Other

/-! ## Moving -/

/-- The pointers `QUEUE_SPLIT` stores: `a` is the first node of `h` and `y` the last. -/
theorem split_next_prev {y : α} (ha : m.prev a = h) (hy : m.prev h = y) (han : a ≠ n)
    (x : α) :
    (split m h a n).next x = (if x = h then h else if x = n then a else if x = y then n else m.next x) ∧
      (split m h a n).prev x = if x = a then n else if x = h then h else if x = n then y else m.prev x := by
  simp [split, ha, hy, han]

theorem move_ring (hr : Ring m h l) (hn : n ∉ h :: l) : Ring (move m h n) h [] ∧ Ring (move m h n) n l := by
  have hnh : n ≠ h := fun e => hn (by simp [e])
  unfold move
  cases l with
  | nil =>
    rw [if_pos ((empty_iff hr).2 rfl)]
    refine ⟨hr.congr ?_ ?_, init_ring⟩ <;> simp [init, hnh.symm]
  | cons a rest =>
    rw [if_neg (by simp [empty_iff hr]), head_eq hr]
    obtain ⟨pre, y, hpre⟩ := (eq_nil_or_concat' (a :: rest)).resolve_left (by simp)
    have hnd := hr.nodup
    have hl := hr.linked
    have hsplit : h :: a :: rest = (h :: pre) ++ [y] := by rw [hpre]; rfl
    have hlast : m.prev h = y := hr.prev_head hsplit
    have han : a ≠ n := fun e => hn (by simp [e])
    have hah : a ≠ h := fun e => (nodup_cons.1 hnd).1 (by simp [e])
    have hfirst : m.prev a = h := hl.2.1
    have key := split_next_prev hfirst hlast han
    generalize split m h a n = m' at key
    have hy : y ∈ a :: rest := by rw [hpre]; simp
    have hyh : y ≠ h := fun e => (nodup_cons.1 hnd).1 (e ▸ hy)
    have hyn : y ≠ n := fun e => hn (mem_cons_of_mem _ (e ▸ hy))
    refine ⟨⟨⟨?_, ?_, trivial⟩, by simp⟩, ⟨?_, ?_⟩⟩
    · rw [(key h).1, if_pos rfl]
    · rw [(key h).2, if_neg hah.symm, if_pos rfl]
    · -- the nodes between the first and the last keep their pointers
      have hin : Linked m (a :: rest) := by
        have : Linked m (a :: rest ++ [h]) := hl.2.2
        rw [hpre, append_assoc, singleton_append, linked_append] at this
        rw [hpre]
        exact this.1
      have hin' : Linked m' (a :: rest) := by
        refine hin.congr (fun x hx => ?_) fun x hx => ?_
        · have hx' : x ∈ pre := by rwa [hpre, dropLast_concat] at hx
          have hxy : x ≠ y := by
            have h2 : (pre ++ [y]).Nodup := hpre ▸ (nodup_cons.1 hnd).2
            exact fun e => (nodup_append.1 h2).2.2 x hx' y (by simp) e
          have hmem : x ∈ a :: rest := by rw [hpre]; exact mem_append_left _ hx'
          rw [(key x).1, if_neg, if_neg, if_neg hxy]
          · exact fun e => hn (mem_cons_of_mem _ (e ▸ hmem))
          · exact fun e => (nodup_cons.1 hnd).1 (e ▸ hmem)
        · have hx' : x ∈ rest := hx
          rw [(key x).2, if_neg, if_neg, if_neg]
          · exact fun e => hn (by simp [← e, hx'])
          · exact fun e => (nodup_cons.1 hnd).1 (by simp [← e, hx'])
          · exact fun e => (nodup_cons.1 (nodup_cons.1 hnd).2).1 (e ▸ hx')
      rw [hpre, cons_append, append_assoc, singleton_append, ← cons_append, linked_append, cons_append, ← hpre]
      refine ⟨⟨?_, ?_, hin'⟩, ?_, ?_, trivial⟩
      · rw [(key n).1, if_neg hnh, if_pos rfl]
      · rw [(key a).2, if_pos rfl]
      · rw [(key y).1, if_neg hyh, if_neg hyn, if_pos rfl]
      · rw [(key n).2, if_neg han.symm, if_neg hnh, if_pos rfl]
    · exact nodup_cons.2 ⟨fun h => hn (mem_cons_of_mem _ h), (nodup_cons.1 hnd).2⟩

theorem move_away {x : α} (hr : Ring m h l) (hn : n ∉ h :: l) (hxn : x ≠ n) (hx : x ∉ h :: l) :
    (move m h n).next x = m.next x ∧ (move m h n).prev x = m.prev x := by
  have hxh : x ≠ h := fun e => hx (by simp [e])
  unfold move
  cases l with
  | nil =>
    rw [if_pos ((empty_iff hr).2 rfl)]
    simp [init, hxn]
  | cons a rest =>
    rw [if_neg (by simp [empty_iff hr]), head_eq hr]
    obtain ⟨pre, y, hpre⟩ := (eq_nil_or_concat' (a :: rest)).resolve_left (by simp)
    have hlast : m.prev h = y := hr.prev_head (by rw [hpre]; rfl : h :: a :: rest = (h :: pre) ++ [y])
    have hfirst : m.prev a = h := hr.linked.2.1
    have hxa : x ≠ a := fun e => hx (by simp [e])
    have hxy : x ≠ y := fun e => hx (by rw [e, hpre]; simp)
    have han : a ≠ n := fun e => hn (by simp [e])
    obtain ⟨h1, h2⟩ := split_next_prev hfirst hlast han x
    exact ⟨by simp [h1, hxh, hxn, hxy], by simp [h2, hxa, hxh, hxn]⟩

end Libuv.L1.Queue
