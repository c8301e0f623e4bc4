import Libuv.L1Data.Queue

/-!
# Walking a queue behind a saved pointer (`queue.h`)

A loop that saves the node behind the one it takes out, and runs code in between that may take
nodes out of the queue. `Walk m h q stale live`: the queue `h` holds `live`, and
following `next` from the saved `q` the loop meets the nodes of `stale` first, which are no longer in
the queue, and then those of `live`.

* `Walk.of_ring`: at the start nothing is stale.
* `Walk.remove`: a node that is taken out becomes stale if it stood first in the queue, and is
  not met otherwise.
* `Walk.next_stale`, `Walk.next_live`: the loop's own `QUEUE_REMOVE` does no harm at a stale node.
* `Walk.next_away`, `Walk.remove_away`: nodes of other queues are not touched.
-/
namespace Libuv.L1.Queue

open List

variable {α : Type*} [DecidableEq α]

/-- The first node, or the head of the queue itself. -/
def firstOr (h : α) (l : List α) : α := l.headD h

omit [DecidableEq α] in
@[simp] theorem firstOr_nil {h : α} : firstOr h [] = h := rfl

omit [DecidableEq α] in
@[simp] theorem firstOr_cons {h a : α} {l : List α} : firstOr h (a :: l) = a := rfl

/-- From `a` one meets the nodes of `l` and then `b`. -/
def Leads (m : Links α) (b : α) : α → List α → Prop
  | a, [] => a = b
  | a, c :: l => a = c ∧ Leads m b (m.next c) l

/-- `next` of the head is not looked at before the queue is walked to its end. -/
structure Walk (m : Links α) (h q : α) (stale live : List α) : Prop where
  ring : Ring (setNext m h (firstOr h live)) h live
  trail : Leads m (firstOr h live) q stale
  first : ∀ a ∈ stale.head?, m.prev a = h
  empty : stale = [] → live = [] → m.next h = h
  nodup : (stale ++ live).Nodup
  away : h ∉ stale

variable {m m' : Links α} {a b h h' q x : α} {k l stale live pre post : List α}

omit [DecidableEq α] in
theorem Leads.congr (hl : Leads m b a l) (hn : ∀ x ∈ l, m'.next x = m.next x) : Leads m' b a l := by
  induction l generalizing a with
  | nil => exact hl
  | cons c l ih =>
    refine ⟨hl.1, ?_⟩
    rw [hn c mem_cons_self]
    exact ih hl.2 fun x hx => hn x (mem_cons_of_mem _ hx)

omit [DecidableEq α] in
theorem Leads.concat (hl : Leads m b a l) (hn : m.next b = x) : Leads m x a (l ++ [b]) := by
  induction l generalizing a with
  | nil => exact ⟨hl, hn⟩
  | cons c l ih => exact ⟨hl.1, ih hl.2⟩

omit [DecidableEq α] in
theorem Leads.eq_firstOr (hl : Leads m b a l) : a = firstOr b l := by
  cases l with
  | nil => exact hl
  | cons c l => exact hl.1

omit [DecidableEq α] in
theorem firstOr_mem : firstOr h l = h ∧ l = [] ∨ firstOr h l ∈ l := by
  cases l with
  | nil => exact .inl ⟨rfl, rfl⟩
  | cons a l => exact .inr mem_cons_self

omit [DecidableEq α] in
theorem prev_first (hr : Ring m h l) : m.prev (firstOr h l) = h := by
  have hl := hr.linked
  cases l with
  | nil | cons a l => exact hl.2.1

omit [DecidableEq α] in
theorem next_head_first (hr : Ring m h l) : m.next h = firstOr h l := by
  rw [hr.next_head]
  cases l <;> rfl

omit [DecidableEq α] in
theorem prev_ne_head (hr : Ring m h (a :: (l ++ x :: k))) : m.prev x ≠ h := by
  obtain ⟨pre, y, -, -, hy, -, -, hxy, -, -⟩ := Ring.around (l := a :: l) (k := k) (q := x) hr
  rw [hxy]
  intro e
  have hnd : (h :: a :: l).Nodup := hr.nodup.sublist (by simp)
  rw [hy, e] at hnd
  cases pre with
  | nil => simp at hy
  | cons b pre =>
    have hb : h = b := (List.cons.inj hy).1
    rw [hb] at hnd
    simp at hnd

theorem remove_next (x y : α) (hy : m.prev a = y) : (remove m a).next x = if x = y then m.next a else m.next x := by
  simp [remove, hy]

theorem remove_prev (x y : α) (hy : m.prev a = y) : (remove m a).prev x = if x = m.next a then y else m.prev x := by
  simp [remove, hy]

namespace Walk

theorem of_ring (hr : Ring m h l) : Walk m h (head m h) [] l := by
  have hf : m.next h = firstOr h l := next_head_first hr
  refine ⟨hr.congr (fun a _ => ?_) fun _ _ => rfl, hf, by simp, fun _ hl => ?_, ?_, by simp⟩
  · rw [setNext_next]
    split
    · rename_i e
      rw [e, hf]
    · rfl
  · rw [hf, hl, firstOr_nil]
  · exact (nodup_cons.1 hr.nodup).2

theorem head_notMem (hw : Walk m h q stale live) : h ∉ stale ++ live := by
  intro hm
  rcases mem_append.1 hm with hm | hm
  · exact hw.away hm
  · exact (nodup_cons.1 hw.ring.nodup).1 hm

theorem saved (hw : Walk m h q stale live) : q = firstOr h (stale ++ live) := by
  rw [hw.trail.eq_firstOr]
  cases stale <;> rfl

theorem disjoint (hw : Walk m h q stale live) (ha : a ∈ stale) (hb : b ∈ h :: live) : a ≠ b := by
  intro e
  rw [e] at ha
  rcases mem_cons.1 hb with rfl | hb
  · exact hw.away ha
  · exact (nodup_append.1 hw.nodup).2.2 b ha b hb rfl

theorem prev_saved (hw : Walk m h q stale live) : m.prev q = h := by
  rw [hw.saved]
  cases hs : stale with
  | nil =>
    have := prev_first hw.ring
    rwa [setNext_prev] at this
  | cons a st => exact hw.first a (by rw [hs]; rfl)

theorem congr (hw : Walk m h q stale live) (hn : ∀ x ∈ h :: (stale ++ live), m'.next x = m.next x)
    (hp : ∀ x ∈ h :: (stale ++ live), m'.prev x = m.prev x) : Walk m' h q stale live := by
  have hlive : ∀ x ∈ h :: live, x ∈ h :: (stale ++ live) := fun x hx => by
    rcases mem_cons.1 hx with rfl | hx
    · exact mem_cons_self
    · exact mem_cons_of_mem _ (mem_append_right _ hx)
  have hstale : ∀ x ∈ stale, x ∈ h :: (stale ++ live) := fun x hx =>
    mem_cons_of_mem _ (mem_append_left _ hx)
  refine ⟨hw.ring.congr (fun x hx => ?_) fun x hx => hp x (hlive x hx), hw.trail.congr fun x hx => hn x (hstale x hx),
    fun a ha => (hp a (hstale a (mem_of_mem_head? ha))).trans (hw.first a ha), fun h1 h2 => ?_, hw.nodup, hw.away⟩
  · rw [setNext_next, setNext_next, hn x (hlive x hx)]
  · exact (hn h mem_cons_self).trans (hw.empty h1 h2)

theorem remove_behind (hw : Walk m h q stale (a :: (pre ++ x :: post))) :
    Walk (remove m x) h q stale (a :: (pre ++ post)) := by
  have hnd := hw.ring.nodup
  obtain ⟨ps, y, z, qs, hy, hz, hyx, hxy, hxz, hzx⟩ := Ring.around (l := a :: pre) (k := post) (q := x) hw.ring
  rw [setNext_prev] at hxy hzx
  have hxh : x ≠ h := fun e => (nodup_cons.1 hnd).1 (by simp [e])
  have hyh : y ≠ h := by
    have := prev_ne_head (l := pre) hw.ring
    rwa [setNext_prev, hxy] at this
  have hyl : y ∈ h :: a :: pre := by rw [hy]; simp
  rw [setNext_next, if_neg hxh] at hxz
  have hzl : z ∈ post ++ [h] := by rw [hz]; simp
  have hr : Ring (remove (setNext m h a) x) h (a :: (pre ++ post)) :=
    remove_ring (l := a :: pre) hw.ring
  have hlive : ∀ {b}, b ∈ a :: pre ∨ b ∈ post → b ∈ h :: a :: (pre ++ x :: post) := by
    intro b hb
    simp only [mem_cons, mem_append] at hb ⊢
    tauto
  refine ⟨hr.congr (fun b hb => ?_) fun b hb => ?_, hw.trail.congr fun b hb => ?_, fun b hb => ?_, fun _ hl => ?_,
    ?_, hw.away⟩
  · rw [firstOr_cons, setNext_next, remove_next b y hxy, remove_next b y (by rwa [setNext_prev]), setNext_next,
      setNext_next, if_neg hxh]
    by_cases hbh : b = h
    · rw [if_pos hbh, if_neg (by rw [hbh]; exact hyh.symm), if_pos hbh]
    · rw [if_neg hbh, if_neg hbh]
  · rw [setNext_prev, remove_prev b y hxy, remove_prev b y (by rwa [setNext_prev]), setNext_next, if_neg hxh,
      setNext_prev]
  · rw [remove_next b y hxy, if_neg]
    refine hw.disjoint hb ?_
    rcases mem_cons.1 hyl with rfl | hyl
    · exact mem_cons_self
    · exact hlive (.inl hyl)
  · rw [remove_prev b y hxy, if_neg, hw.first b hb]
    rw [hxz]
    refine hw.disjoint (mem_of_mem_head? hb) ?_
    rcases mem_append.1 hzl with hzl | hzl
    · exact hlive (.inr hzl)
    · rw [mem_singleton.1 hzl]
      exact mem_cons_self
  · cases hl
  · refine hw.nodup.sublist ?_
    simp

theorem remove_first (hw : Walk m h q stale (x :: post)) : Walk (remove m x) h q (stale ++ [x]) post := by
  have hnd := hw.ring.nodup
  have hxh : x ≠ h := fun e => (nodup_cons.1 hnd).1 (by simp [e])
  have hxp : m.prev x = h := prev_first hw.ring
  have hxz : m.next x = firstOr h post := by
    have hl := hw.ring.linked
    cases post with
    | nil => exact (by simpa [hxh] using hl.2.2.1 : m.next x = h)
    | cons c post => exact (by simpa [hxh] using hl.2.2.1 : m.next x = c)
  have hzl : firstOr h post ∈ h :: post := by
    rcases firstOr_mem (h := h) (l := post) with he | he
    · rw [he.1]
      exact mem_cons_self
    · exact mem_cons_of_mem _ he
  have hr : Ring (remove (setNext m h x) x) h post := remove_ring (l := []) hw.ring
  have htrail : Leads (remove m x) x q stale := by
    refine hw.trail.congr fun b hb => ?_
    rw [remove_next b h hxp, if_neg (hw.disjoint hb mem_cons_self)]
  refine ⟨hr.congr (fun b hb => ?_) fun b hb => ?_, htrail.concat ?_, fun b hb => ?_, fun hs => ?_, ?_, ?_⟩
  · rw [setNext_next, remove_next b h hxp, remove_next b h (by rwa [setNext_prev]), setNext_next, setNext_next,
      if_neg hxh, hxz]
    by_cases hbh : b = h
    · rw [if_pos hbh, if_pos hbh]
    · rw [if_neg hbh, if_neg hbh, if_neg hbh, if_neg hbh]
  · rw [setNext_prev, remove_prev b h hxp, remove_prev b h (by rwa [setNext_prev]), setNext_next, if_neg hxh,
      setNext_prev]
  · rw [remove_next x h hxp, if_neg hxh, hxz]
  · rw [remove_prev b h hxp]
    split
    · rfl
    · cases hs : stale with
      | nil =>
        rw [hs] at hb
        cases hb
        exact hxp
      | cons c st =>
        rw [hs] at hb
        exact hw.first b (by rw [hs]; exact hb)
  · exact absurd hs (by simp)
  · have := hw.nodup
    rwa [append_cons] at this
  · intro hm
    rcases mem_append.1 hm with hm | hm
    · exact hw.away hm
    · exact hxh (mem_singleton.1 hm).symm

theorem remove (hw : Walk m h q stale live) (hx : x ∈ live) :
    Walk (remove m x) h q (stale ++ if m.prev x = h then [x] else []) (live.erase x) := by
  cases live with
  | nil => cases hx
  | cons a live =>
    have hnd := (nodup_append.1 hw.nodup).2.1
    by_cases hax : x = a
    · subst hax
      have hp : m.prev x = h := prev_first hw.ring
      rw [if_pos hp, erase_cons_head]
      exact hw.remove_first
    · obtain ⟨pre, post, rfl⟩ := append_of_mem ((mem_cons.1 hx).resolve_left hax)
      have hxn : x ∉ a :: pre := by
        intro hm
        exact (nodup_append.1 hnd).2.2 x hm x (by simp) rfl
      have hp : m.prev x ≠ h := by
        have := prev_ne_head (l := pre) hw.ring
        rwa [setNext_prev] at this
      rw [if_neg hp, append_nil, ← cons_append, erase_append_right _ hxn, erase_cons_head]
      exact hw.remove_behind

theorem init_remove (hp : m.prev a = h) (x : α) :
    ((init (Queue.remove m a) a).next x = if x = a then a else if x = h then m.next a else m.next x) ∧
      (init (Queue.remove m a) a).prev x = if x = a then a else if x = m.next a then h else m.prev x := by
  refine ⟨?_, ?_⟩
  · simp [init, remove_next x h hp]
  · simp [init, remove_prev x h hp]

theorem next_stale (hw : Walk m h q (a :: stale) live) :
    q = a ∧ Walk (init (Queue.remove m a) a) h (m.next a) stale live := by
  have hq : q = a := hw.trail.1
  have hp : m.prev a = h := hw.first a rfl
  have hnd := hw.nodup
  have has : a ∉ stale := fun ha => (nodup_cons.1 hnd).1 (mem_append_left _ ha)
  have hal : a ∉ h :: live := fun ha => hw.disjoint mem_cons_self ha rfl
  have hah : a ≠ h := fun e => hal (e ▸ mem_cons_self)
  have hz : m.next a = firstOr (firstOr h live) stale := hw.trail.2.eq_firstOr
  have htrail : Leads (init (Queue.remove m a) a) (firstOr h live) (m.next a) stale := by
    refine hw.trail.2.congr fun x hx => ?_
    have hxa : x ≠ a := fun e => has (e ▸ hx)
    have hxh : x ≠ h := fun e => hw.away (e ▸ mem_cons_of_mem _ hx)
    rw [(init_remove hp x).1, if_neg hxa, if_neg hxh]
  refine ⟨hq, hw.ring.congr (fun x hx => ?_) fun x hx => ?_, htrail, fun x hx => ?_, fun hs hl => ?_,
    (nodup_cons.1 hnd).2, fun hm => hw.away (mem_cons_of_mem _ hm)⟩
  · have hxa : x ≠ a := fun e => hal (e ▸ hx)
    rw [setNext_next, setNext_next, (init_remove hp x).1]
    split <;> rfl
  · have hxa : x ≠ a := fun e => hal (e ▸ hx)
    rw [setNext_prev, (init_remove hp x).2, if_neg hxa]
    split
    · -- the node behind the stale ones is the first of the queue, which points back at the head
      rename_i hxz
      cases stale with
      | nil =>
        have := prev_first hw.ring
        rw [hxz, hz]
        exact this.symm
      | cons b stale =>
        have hxb : x = b := hxz.trans hz
        have hb : b ∈ a :: b :: stale := by simp
        exact absurd rfl (hw.disjoint hb (hxb ▸ hx))
    · rfl
  · have hxs : x ∈ stale := mem_of_mem_head? hx
    have hxa : x ≠ a := fun e => has (e ▸ hxs)
    have hxz : x = m.next a := by
      rw [hz]
      cases stale with
      | nil => cases hx
      | cons b stale => exact (Option.some.inj hx).symm
    rw [(init_remove hp x).2, if_neg hxa, if_pos hxz]
  · rw [(init_remove hp h).1, if_neg hah.symm, if_pos rfl, hz, hs, hl]
    rfl

theorem next_live (hw : Walk m h q [] (a :: live)) :
    q = a ∧ Walk (init (Queue.remove m a) a) h (m.next a) [] live := by
  obtain ⟨hq, hw'⟩ := next_stale (hw.remove_first : Walk _ h q ([] ++ [a]) live)
  have hnd := hw.ring.nodup
  have hah : a ≠ h := fun e => (nodup_cons.1 hnd).1 (by simp [e])
  have hp : m.prev a = h := prev_first hw.ring
  have hn : (Queue.remove m a).next a = m.next a := by rw [remove_next a h hp, if_neg hah]
  have hp' : (Queue.remove m a).prev a = h := by
    rw [remove_prev a h hp]
    split
    · rfl
    · exact hp
  -- taking the node out twice is taking it out once
  rw [hn] at hw'
  refine ⟨hq, hw'.congr (fun x _ => ?_) fun x _ => ?_⟩
  · rw [(init_remove hp x).1, (init_remove hp' x).1, hn, remove_next x h hp]
    split
    · rfl
    · split <;> rfl
  · rw [(init_remove hp x).2, (init_remove hp' x).2, hn, remove_prev x h hp]
    split
    · rfl
    · split <;> rfl

theorem done (hw : Walk m h h stale live) : stale = [] ∧ live = [] ∧ Queue.empty m h = true := by
  have hq := hw.saved
  have hnm := hw.head_notMem
  have hs : stale ++ live = [] := by
    rcases firstOr_mem (h := h) (l := stale ++ live) with he | he
    · exact he.2
    · exact absurd (hq ▸ he) hnm
  obtain ⟨h1, h2⟩ := append_eq_nil_iff.1 hs
  refine ⟨h1, h2, ?_⟩
  unfold Queue.empty
  rw [hw.empty h1 h2, beq_self_eq_true]

theorem next_away (hw : Walk m h q stale live) (hq : q ≠ h) (hx : x ∉ h :: (stale ++ live)) :
    (init (Queue.remove m q) q).next x = m.next x ∧ (init (Queue.remove m q) q).prev x = m.prev x := by
  have hmem : ∀ {b l}, (∀ y ∈ l, y ∈ stale ++ live) → b = firstOr h l → x ≠ b := by
    intro b l hl hb e
    refine hx ?_
    rw [e, hb]
    rcases firstOr_mem (h := h) (l := l) with he | he
    · rw [he.1]
      exact mem_cons_self
    · exact mem_cons_of_mem _ (hl _ he)
  have hxq : x ≠ q := hmem (fun _ hy => hy) hw.saved
  have hxh : x ≠ h := fun e => hx (by simp [e])
  have hxz : x ≠ m.next q := by
    cases stale with
    | cons a stale =>
      obtain ⟨rfl, hw'⟩ := hw.next_stale
      exact hmem (fun y hy => mem_cons_of_mem _ hy) hw'.saved
    | nil =>
      cases live with
      | nil => exact absurd hw.saved hq
      | cons a live =>
        obtain ⟨rfl, hw'⟩ := hw.next_live
        exact hmem (fun y hy => mem_cons_of_mem _ hy) hw'.saved
  rw [(init_remove hw.prev_saved x).1, (init_remove hw.prev_saved x).2, if_neg hxq, if_neg hxq, if_neg hxh, if_neg hxz]
  exact ⟨rfl, rfl⟩

theorem remove_away (hw : Walk m h q stale live) (ha : a ∈ live) (hx : x ∉ h :: live) :
    (Queue.remove m a).next x = m.next x ∧ (Queue.remove m a).prev x = m.prev x := by
  obtain ⟨pre, post, rfl⟩ := append_of_mem ha
  obtain ⟨h1, h2⟩ := Queue.remove_away hw.ring hx
  obtain ⟨-, y, z, -, -, -, -, hpa, -, -⟩ := hw.ring.around
  have hah : a ≠ h := fun e => (nodup_cons.1 hw.ring.nodup).1 (by simp [e])
  have hxh : x ≠ h := fun e => hx (by simp [e])
  rw [setNext_prev] at hpa
  rw [remove_next x y (by rwa [setNext_prev]), setNext_next, setNext_next, if_neg hah, if_neg hxh] at h1
  rw [remove_prev x y (by rwa [setNext_prev]), setNext_next, if_neg hah] at h2
  rw [remove_next x y hpa, remove_prev x y hpa]
  exact ⟨h1, h2⟩

end Walk

end Libuv.L1.Queue
