import Libuv.Core.Ordered
import Libuv.L2Loop.Signal

/-!
# Signal watchers: the tree and the operations

What the operations of `Signal` do to a state whose tree is in order.

* `signalStop_*`, `startLocked_*`: one field each.
-/
namespace Libuv.L2.Signal

open List Function

/-! ## The order -/

theorem compare_neg_iff (a b : Key) :
    compare a b < 0 ↔ a.signum < b.signum ∨ a.signum = b.signum ∧ (a.oneShot.toNat < b.oneShot.toNat ∨
      a.oneShot.toNat = b.oneShot.toNat ∧ (a.loop < b.loop ∨ a.loop = b.loop ∧ a.addr < b.addr)) := by
  simp only [compare]
  split_ifs <;> omega

theorem compare_pos_iff (a b : Key) : 0 < compare a b ↔ compare b a < 0 := by
  rw [compare_neg_iff]
  simp only [compare]
  split_ifs <;> omega

theorem compare_trans {a b c : Key} (hab : compare a b < 0) (hbc : compare b c < 0) : compare a c < 0 := by
  rw [compare_neg_iff] at *
  omega

theorem compare_total {a b : Key} (h : a.addr ≠ b.addr) (hab : ¬compare a b < 0) : compare b a < 0 := by
  rw [compare_neg_iff] at *
  omega

theorem lookup_iff (signum : ℤ) (a : Key) : 0 < compare ⟨signum, false, 0, 0⟩ a ↔ a.signum < signum := by
  rw [compare_pos_iff, compare_neg_iff]
  simp only [Bool.toNat_false]
  omega

theorem signum_le {a b : Key} (h : compare a b < 0) : a.signum ≤ b.signum := by
  rw [compare_neg_iff] at h
  omega

/-! ## Fields -/

section Fields
variable (s : State) (h : ℕ) (r : Handle) (g : Ghost) (n : ℤ) (b : Bool) (L : ℕ) (pc : Pc)

@[simp] theorem put_handles : (put s h r).handles = update s.handles h r := rfl
@[simp] theorem put_tree : (put s h r).tree = s.tree := rfl
@[simp] theorem put_disp : (put s h r).disp = s.disp := rfl
@[simp] theorem put_pipe : (put s h r).pipe = s.pipe := rfl
@[simp] theorem put_pc : (put s h r).pc = s.pc := rfl
@[simp] theorem mark_pc : (mark s h g).pc = s.pc := rfl
@[simp] theorem mark_disp : (mark s h g).disp = s.disp := rfl
@[simp] theorem mark_pipe : (mark s h g).pipe = s.pipe := rfl
@[simp] theorem mark_tree : (mark s h g).tree = s.tree := rfl
@[simp] theorem setPc_tree : (s.setPc L pc).tree = s.tree := rfl

@[simp] theorem mark_handles : (mark s h g).handles = s.handles := rfl
@[simp] theorem mark_ghost : (mark s h g).ghost = update s.ghost h g := rfl
@[simp] theorem put_closingHandles : (put s h r).closingHandles = s.closingHandles := rfl
@[simp] theorem mark_closingHandles : (mark s h g).closingHandles = s.closingHandles := rfl
@[simp] theorem put_ghost : (put s h r).ghost = s.ghost := rfl

@[simp] theorem setPc_handles : (s.setPc L pc).handles = s.handles := rfl
@[simp] theorem setPc_disp : (s.setPc L pc).disp = s.disp := rfl
@[simp] theorem setPc_pipe : (s.setPc L pc).pipe = s.pipe := rfl
@[simp] theorem setPc_pc : (s.setPc L pc).pc = update s.pc L pc := rfl
@[simp] theorem setPc_closingHandles : (s.setPc L pc).closingHandles = s.closingHandles := rfl
@[simp] theorem setPc_ghost : (s.setPc L pc).ghost = s.ghost := rfl

end Fields

/-! ## The tree -/

def Sorted (s : State) : Prop := s.tree.Pairwise fun x y => compare (key s x) (key s y) < 0

/-- The tree is in order and holds the handles that are started. -/
structure Tree (s : State) : Prop where
  sorted : Sorted s
  mem : ∀ h, h ∈ s.tree ↔ (s.handles h).signum ≠ 0

section Tree
variable {s t : State} {h x : ℕ} {n : ℤ}

theorem Sorted.nodup (hs : Sorted s) : s.tree.Nodup := by
  apply hs.imp
  rintro a b hab rfl
  rw [compare_neg_iff] at hab
  omega

theorem Sorted.matching_eq (hs : Sorted s) (n : ℤ) : matching s n = s.tree.filter fun x => (s.handles x).signum = n := by
  have e : (fun x => decide (0 < compare ⟨n, false, 0, 0⟩ (key s x))) = fun x => decide ((s.handles x).signum < n) := by
    funext x
    exact decide_eq_decide.2 (lookup_iff n (key s x))
  rw [matching, e]
  exact Ordered.range_eq_filter (hs.imp signum_le)

theorem Sorted.mem_matching (hs : Sorted s) : h ∈ matching s n ↔ h ∈ s.tree ∧ (s.handles h).signum = n := by
  rw [hs.matching_eq, mem_filter, decide_eq_true_eq]

theorem Sorted.matching_nodup (hs : Sorted s) (n : ℤ) : (matching s n).Nodup := by
  rw [hs.matching_eq]
  exact hs.nodup.filter _

theorem Sorted.firstHandle_none (hs : Sorted s) : firstHandle s n = none ↔ ∀ x ∈ s.tree, (s.handles x).signum ≠ n := by
  rw [firstHandle, head?_eq_none_iff, eq_nil_iff_forall_not_mem]
  apply forall_congr'
  intro x
  rw [hs.mem_matching, not_and]

theorem Sorted.firstHandle_some (hs : Sorted s) (hf : firstHandle s n = some h) :
    (h ∈ s.tree ∧ (s.handles h).signum = n) ∧
      ((s.handles h).oneShot = true → ∀ x ∈ s.tree, (s.handles x).signum = n → (s.handles x).oneShot = true) := by
  obtain ⟨l, hl⟩ := head?_eq_some_iff.1 hf
  have hm : ∀ x, x ∈ h :: l ↔ x ∈ s.tree ∧ (s.handles x).signum = n := by
    intro x
    rw [← hl]
    exact hs.mem_matching
  have hh := (hm h).1 (.head _)
  refine ⟨hh, fun ho x hx hxn => ?_⟩
  rcases mem_cons.1 ((hm x).2 ⟨hx, hxn⟩) with rfl | hxl
  · exact ho
  · have hp : (h :: l).Pairwise fun x y => compare (key s x) (key s y) < 0 := by
      rw [← hl, hs.matching_eq]
      exact List.Pairwise.filter _ hs
    have hlt := rel_of_pairwise_cons hp hxl
    rw [compare_neg_iff] at hlt
    simp only [key, hh.2, hxn, ho, Bool.toNat_true] at hlt
    cases hox : (s.handles x).oneShot with
    | true => rfl
    | false =>
      simp only [hox, Bool.toNat_false] at hlt
      omega

theorem Sorted.congr (hs : Sorted s) (ht : t.tree = s.tree) (hk : ∀ x ∈ s.tree, key t x = key s x) : Sorted t := by
  unfold Sorted
  rw [ht]
  apply List.Pairwise.imp_of_mem _ hs
  intro a b ha hb hab
  rwa [hk a ha, hk b hb]

theorem Sorted.erase (hs : Sorted s) (ht : t.tree = s.tree.erase h) (hk : ∀ x, x ≠ h → key t x = key s x) : Sorted t := by
  unfold Sorted
  rw [ht]
  apply List.Pairwise.imp_of_mem _ (hs.sublist erase_sublist)
  intro a b ha hb hab
  rwa [hk a (hs.nodup.mem_erase_iff.1 ha).1, hk b (hs.nodup.mem_erase_iff.1 hb).1]

theorem Tree.congr (hs : Tree s) (ht : t.tree = s.tree) (hk : ∀ x, (t.handles x).signum = (s.handles x).signum ∧
    (x ∈ s.tree → key t x = key s x)) : Tree t where
  sorted := hs.sorted.congr ht fun x hx => (hk x).2 hx
  mem x := by
    rw [ht, (hk x).1]
    exact hs.mem x

theorem Tree.mem_matching (hs : Tree s) (hn : n ≠ 0) : h ∈ matching s n ↔ (s.handles h).signum = n := by
  rw [hs.sorted.mem_matching, hs.mem]
  constructor
  · exact And.right
  · intro e
    exact ⟨e ▸ hn, e⟩

theorem Tree.matching_zero (hs : Tree s) : matching s 0 = [] := by
  rw [hs.sorted.matching_eq]
  apply filter_eq_nil_iff.2
  intro x hx
  simpa using (hs.mem x).1 hx

theorem Tree.erase (hs : Tree s) (ht : t.tree = s.tree.erase h) (h0 : (t.handles h).signum = 0)
    (hk : ∀ x, x ≠ h → t.handles x = s.handles x) : Tree t where
  sorted := by
    apply hs.sorted.erase ht
    intro x hx
    simp [key, hk x hx]
  mem x := by
    rw [ht, hs.sorted.nodup.mem_erase_iff, hs.mem]
    rcases eq_or_ne x h with rfl | hne
    · simp [h0]
    · simp [hne, hk x hne]

theorem Tree.insert {u : State} (hs : Tree s) (h0 : (s.handles h).signum = 0) (hi : (u.handles h).signum ≠ 0)
    (hu : u.tree = s.tree) (hk : ∀ x, x ≠ h → u.handles x = s.handles x) : Tree { u with tree := insert u h } := by
  have hmem : h ∉ s.tree := fun hm => (hs.mem h).1 hm h0
  have hne : ∀ x ∈ s.tree, x ≠ h := by
    rintro x hx rfl
    exact hmem hx
  have hkey : ∀ x ∈ s.tree, key u x = key s x := by
    intro x hx
    simp [key, hk x (hne x hx)]
  have e : Signal.insert u h = Ordered.insertAt (fun x => decide (compare (key u x) (key u h) < 0)) h s.tree := by
    rw [← hu]
    rfl
  constructor
  · change (Signal.insert u h).Pairwise fun x y => compare (key u x) (key u y) < 0
    rw [e]
    apply Ordered.pairwise_insertAt
    · exact fun _ _ _ => compare_trans
    · have hsorted : Sorted u := hs.sorted.congr hu hkey
      rwa [Sorted, hu] at hsorted
    · intro x _ hx
      simpa using hx
    · intro x hx hxh
      exact compare_total (hne x hx) (by simpa using hxh)
  · intro x
    rw [e, Ordered.mem_insertAt, hs.mem]
    rcases eq_or_ne x h with rfl | hxh
    · simp [hi]
    · simp [hxh, hk x hxh]

end Tree

/-! ## The handler -/

/-- The handler writes a message for `h`. -/
def Heard (s : State) (n : ℤ) (ok : ℕ → Bool) (h : ℕ) : Prop := h ∈ matching s n ∧ ok h = true

instance (s : State) (n : ℤ) (ok : ℕ → Bool) (h : ℕ) : Decidable (Heard s n ok h) := by unfold Heard; infer_instance

section Handler
variable {n : ℤ} {ok : ℕ → Bool} {l : List ℕ}

theorem deliver_foldl_tree (s : State) : (l.foldl (deliver n ok) s).tree = s.tree ∧ (l.foldl (deliver n ok) s).disp = s.disp ∧
    (l.foldl (deliver n ok) s).pc = s.pc ∧ (l.foldl (deliver n ok) s).closingHandles = s.closingHandles := by
  induction l generalizing s with
  | nil => exact ⟨rfl, rfl, rfl, rfl⟩
  | cons x l ih =>
    have h1 : (deliver n ok s x).tree = s.tree ∧ (deliver n ok s x).disp = s.disp ∧ (deliver n ok s x).pc = s.pc ∧
        (deliver n ok s x).closingHandles = s.closingHandles := by
      unfold deliver
      split <;> exact ⟨rfl, rfl, rfl, rfl⟩
    obtain ⟨a, b, c, d⟩ := ih (deliver n ok s x)
    exact ⟨a.trans h1.1, b.trans h1.2.1, c.trans h1.2.2.1, d.trans h1.2.2.2⟩

theorem deliver_ne {s : State} {x h : ℕ} (hx : h ≠ x) :
    (deliver n ok s x).handles h = s.handles h ∧ (deliver n ok s x).ghost h = s.ghost h := by
  unfold deliver
  split
  · simp only [mark_handles, put_handles, mark_ghost, update_of_ne hx]
    exact ⟨trivial, rfl⟩
  · exact ⟨rfl, rfl⟩

theorem deliver_self (s : State) (h : ℕ) :
    (deliver n ok s h).handles h =
        (if ok h then { s.handles h with caughtSignals := u32 ((s.handles h).caughtSignals + 1) } else s.handles h) ∧
      (deliver n ok s h).ghost h = if ok h then { s.ghost h with delivered := true } else s.ghost h := by
  unfold deliver
  split
  · simp
  · exact ⟨rfl, rfl⟩

theorem deliver_foldl_handles (hl : l.Nodup) (s : State) (h : ℕ) :
    (l.foldl (deliver n ok) s).handles h =
        (if h ∈ l ∧ ok h = true then { s.handles h with caughtSignals := u32 ((s.handles h).caughtSignals + 1) }
          else s.handles h) ∧
      (l.foldl (deliver n ok) s).ghost h =
        if h ∈ l ∧ ok h = true then { s.ghost h with delivered := true } else s.ghost h := by
  induction l generalizing s with
  | nil => exact ⟨by simp, by simp⟩
  | cons x l ih =>
    obtain ⟨hx, hl⟩ := nodup_cons.1 hl
    rw [foldl_cons, (ih hl _).1, (ih hl _).2]
    rcases eq_or_ne h x with rfl | hne
    · have h1 : ¬(h ∈ l ∧ ok h = true) := fun hh => hx hh.1
      have h2 : (h ∈ h :: l ∧ ok h = true) ↔ ok h = true := by simp
      simp only [if_neg h1, h2]
      exact deliver_self s h
    · have h2 : (h ∈ x :: l ∧ ok h = true) ↔ (h ∈ l ∧ ok h = true) := by simp [hne]
      simp only [h2, (deliver_ne hne).1, (deliver_ne hne).2]
      exact ⟨trivial, trivial⟩

/-- The messages that the handler writes into the pipe of the loop `L`. -/
def written (s : State) (n : ℤ) (ok : ℕ → Bool) (l : List ℕ) (L : ℕ) : List Msg :=
  (l.filter fun h => ok h ∧ (s.handles h).loop = L).map fun h => ⟨h, n, (s.ghost h).starts⟩

theorem deliver_foldl_pipe (hl : l.Nodup) (s : State) (L : ℕ) :
    (l.foldl (deliver n ok) s).pipe L = s.pipe L ++ written s n ok l L := by
  induction l generalizing s with
  | nil => simp [written]
  | cons x l ih =>
    obtain ⟨hx, hl⟩ := nodup_cons.1 hl
    have hrest : written (deliver n ok s x) n ok l L = written s n ok l L := by
      have hne : ∀ y ∈ l, y ≠ x := by
        rintro y hy rfl
        exact hx hy
      unfold written
      have hf : l.filter (fun h => ok h ∧ ((deliver n ok s x).handles h).loop = L) =
          l.filter (fun h => ok h ∧ (s.handles h).loop = L) := by
        apply filter_congr
        intro y hy
        rw [(deliver_ne (hne y hy)).1]
      rw [hf]
      apply map_congr_left
      intro y hy
      rw [(deliver_ne (hne y (mem_filter.1 hy).1)).2]
    rw [foldl_cons, ih hl, hrest]
    by_cases hok : ok x = true
    · have hp : (deliver n ok s x).pipe = update s.pipe (s.handles x).loop
          (s.pipe (s.handles x).loop ++ [⟨x, n, (s.ghost x).starts⟩]) := by
        unfold deliver
        rw [if_pos hok]
        rfl
      rw [hp]
      rcases eq_or_ne L (s.handles x).loop with rfl | hL
      · simp [written, hok]
      · rw [update_of_ne hL]
        simp [written, hok, hL.symm]
    · have hp : deliver n ok s x = s := by
        unfold deliver
        rw [if_neg hok]
      rw [hp]
      simp [written, hok]

end Handler

section Arrive
variable {s : State} (hs : Tree s) (n : ℤ) (ok : ℕ → Bool)

theorem arrive_eq : arrive s n ok =
    match s.disp n with
    | .dfl => s
    | .handler reset => (matching s n).foldl (deliver n ok)
        { s with disp := if reset then update s.disp n .dfl else s.disp } := by
  unfold arrive
  cases s.disp n with
  | dfl => rfl
  | handler reset => cases reset <;> rfl

theorem arrive_frame : (arrive s n ok).tree = s.tree ∧ (arrive s n ok).pc = s.pc ∧
    (arrive s n ok).closingHandles = s.closingHandles := by
  rw [arrive_eq]
  cases s.disp n with
  | dfl => exact ⟨rfl, rfl, rfl⟩
  | handler reset =>
    obtain ⟨a, _, c, d⟩ := @deliver_foldl_tree n ok (matching s n)
      { s with disp := if reset then update s.disp n .dfl else s.disp }
    exact ⟨a, c, d⟩

theorem arrive_disp : (arrive s n ok).disp = if s.disp n = .handler true then update s.disp n .dfl else s.disp := by
  rw [arrive_eq]
  cases hd : s.disp n with
  | dfl => rfl
  | handler reset =>
    refine (deliver_foldl_tree _).2.1.trans ?_
    cases reset <;> rfl

include hs

theorem arrive_handles (h : ℕ) : (arrive s n ok).handles h =
    if s.disp n ≠ .dfl ∧ Heard s n ok h then { s.handles h with caughtSignals := u32 ((s.handles h).caughtSignals + 1) }
    else s.handles h := by
  rw [arrive_eq]
  cases hd : s.disp n with
  | dfl => simp
  | handler reset =>
    have := (@deliver_foldl_handles n ok _ (hs.sorted.matching_nodup n)
      { s with disp := if reset then update s.disp n .dfl else s.disp } h).1
    simpa [Heard] using this

theorem arrive_ghost (h : ℕ) : (arrive s n ok).ghost h =
    if s.disp n ≠ .dfl ∧ Heard s n ok h then { s.ghost h with delivered := true } else s.ghost h := by
  rw [arrive_eq]
  cases hd : s.disp n with
  | dfl => simp
  | handler reset =>
    have := (@deliver_foldl_handles n ok _ (hs.sorted.matching_nodup n)
      { s with disp := if reset then update s.disp n .dfl else s.disp } h).2
    simpa [Heard] using this

theorem arrive_pipe (L : ℕ) : (arrive s n ok).pipe L =
    s.pipe L ++ if s.disp n = .dfl then [] else written s n ok (matching s n) L := by
  rw [arrive_eq]
  cases hd : s.disp n with
  | dfl => simp
  | handler reset =>
    exact deliver_foldl_pipe (hs.sorted.matching_nodup n)
      { s with disp := if reset then update s.disp n .dfl else s.disp } L

theorem mem_written {L : ℕ} {m : Msg} (hm : m ∈ written s n ok (matching s n) L) :
    n ≠ 0 ∧ (s.handles m.handle).signum = n ∧ (s.handles m.handle).loop = L ∧ m.signum = n ∧
      m.start = (s.ghost m.handle).starts := by
  obtain ⟨h, hf, rfl⟩ := mem_map.1 hm
  obtain ⟨hh, hl⟩ := mem_filter.1 hf
  simp only [decide_eq_true_eq] at hl
  have hn : n ≠ 0 := by
    rintro rfl
    rw [hs.matching_zero] at hh
    cases hh
  exact ⟨hn, (hs.mem_matching hn).1 hh, hl.2, rfl, rfl⟩

theorem Tree.arrive : Tree (arrive s n ok) := by
  apply hs.congr (arrive_frame n ok).1
  intro x
  simp only [key, arrive_handles hs]
  split <;> exact ⟨rfl, fun _ => rfl⟩

end Arrive

/-! ## Stop -/

section Stop
variable {s : State} (h : ℕ)

theorem signalStop_frame : (signalStop s h).pipe = s.pipe ∧ (signalStop s h).pc = s.pc ∧
    (signalStop s h).closingHandles = s.closingHandles ∧ (signalStop s h).ghost = s.ghost := by
  unfold signalStop
  dsimp only
  split_ifs
  · exact ⟨rfl, rfl, rfl, rfl⟩
  · split
    · exact ⟨rfl, rfl, rfl, rfl⟩
    · split_ifs <;> exact ⟨rfl, rfl, rfl, rfl⟩

theorem signalStop_handles :
    (signalStop s h).handles = update s.handles h { s.handles h with signum := 0 } := by
  unfold signalStop
  dsimp only
  split_ifs with h0
  · rw [← h0, update_eq_self]
  · split
    · rfl
    · split_ifs <;> rfl

theorem Tree.signalStop (hs : Tree s) : Tree (signalStop s h) := by
  apply hs.erase (h := h)
  · unfold Signal.signalStop
    dsimp only
    split_ifs with h0
    · have hm : h ∉ s.tree := fun hm => (hs.mem h).1 hm h0
      rw [erase_of_not_mem hm]
    · split
      · rfl
      · split_ifs <;> rfl
  · rw [signalStop_handles, update_self]
  · intro x hx
    rw [signalStop_handles, update_of_ne hx]

theorem Tree.sorted_erase (hs : Tree s) : Sorted { s with tree := s.tree.erase h } :=
  hs.sorted.erase rfl fun _ _ => rfl

theorem signalStop_disp (hs : Tree s) {x : ℕ} (hx : x ≠ h) (hi : (s.handles x).signum ≠ 0) :
    (signalStop s h).disp (s.handles x).signum = s.disp (s.handles x).signum ∨
      (signalStop s h).disp (s.handles x).signum = .handler true ∧ (s.handles x).oneShot = true := by
  have hmem : x ∈ s.tree.erase h := hs.sorted.nodup.mem_erase_iff.2 ⟨hx, (hs.mem x).2 hi⟩
  unfold signalStop
  dsimp only
  split_ifs with h0
  · exact .inl rfl
  by_cases hn : (s.handles x).signum = (s.handles h).signum
  · split
    next hf => exact absurd hn ((hs.sorted_erase h).firstHandle_none.1 hf x hmem)
    next first hf =>
      split_ifs with hreg
      · have hall := ((hs.sorted_erase h).firstHandle_some hf).2 hreg.1 x hmem hn
        refine .inr ⟨?_, hall⟩
        rw [hn]
        exact update_self ..
      · exact .inl rfl
  · left
    split
    · exact update_of_ne hn ..
    · split_ifs
      · exact update_of_ne hn ..
      · rfl

theorem Tree.put (hs : Tree s) {r : Handle} (hr : r.signum = (s.handles h).signum)
    (hk : r.oneShot = (s.handles h).oneShot ∧ r.loop = (s.handles h).loop) : Tree (put s h r) := by
  refine @Tree.congr s (Signal.put s h r) hs rfl fun x => ?_
  rcases eq_or_ne x h with rfl | hx
  · simp [key, hr, hk]
  · simp [key, hx]

theorem close_frame : (close s h).pipe = s.pipe ∧ (close s h).pc = s.pc ∧ (close s h).ghost = s.ghost ∧
    (close s h).closingHandles = update s.closingHandles (s.handles h).loop
      (h :: s.closingHandles (s.handles h).loop) := by
  obtain ⟨hpipe, hpc, hcl, hg⟩ := signalStop_frame (s := put s h { s.handles h with closing := true }) h
  refine ⟨hpipe, hpc, hg, ?_⟩
  simp [close, signalStop_handles, hcl]

theorem close_handles :
    (close s h).handles = update s.handles h { s.handles h with closing := true, signum := 0 } := by
  simp [close, signalStop_handles]

theorem Tree.close (hs : Tree s) : Tree (close s h) := by
  have hput : Tree (Signal.put s h { s.handles h with closing := true }) := hs.put h rfl ⟨rfl, rfl⟩
  exact (hput.signalStop h).congr rfl fun x => ⟨rfl, fun _ => rfl⟩

theorem complete_frame : (complete s h).pipe = s.pipe ∧ (complete s h).pc = s.pc ∧
    (complete s h).closingHandles = s.closingHandles ∧ (complete s h).ghost = s.ghost := by
  unfold complete
  dsimp only
  split_ifs
  · exact signalStop_frame h
  · exact ⟨rfl, rfl, rfl, rfl⟩

theorem complete_handles : (complete s h).handles = update s.handles h
    { s.handles h with
      dispatchedSignals := u32 ((s.handles h).dispatchedSignals + 1)
      signum := if (s.handles h).oneShot then 0 else (s.handles h).signum } := by
  unfold complete
  dsimp only
  split_ifs with ho
  · simp [signalStop_handles]
  · rfl

theorem Tree.complete (hs : Tree s) : Tree (complete s h) := by
  have hput : Tree (Signal.put s h
      { s.handles h with dispatchedSignals := u32 ((s.handles h).dispatchedSignals + 1) }) := hs.put h rfl ⟨rfl, rfl⟩
  unfold Signal.complete
  dsimp only
  split_ifs
  · exact hput.signalStop h
  · exact hput

end Stop

/-! ## Start -/

/-- The kernel does not refuse: nothing is to be installed, or the number is valid. -/
def Accepted (valid : ℤ → Bool) (s : State) (n : ℤ) (oneshot : Bool) : Prop := registers s n oneshot = true → valid n = true

instance (valid : ℤ → Bool) (s : State) (n : ℤ) (oneshot : Bool) : Decidable (Accepted valid s n oneshot) := by
  unfold Accepted; infer_instance

/-- `t` is `s` with `h` started. -/
structure Started (s t : State) (h signalCb : ℕ) (n : ℤ) (oneshot : Bool) : Prop where
  handles : t.handles = Function.update s.handles h
    { s.handles h with signum := n, oneShot := (s.handles h).oneShot || oneshot, signalCb := signalCb }
  disp : t.disp = if registers s n oneshot = true then Function.update s.disp n (.handler oneshot) else s.disp
  pipe : t.pipe = s.pipe
  pc : t.pc = s.pc
  closingHandles : t.closingHandles = s.closingHandles
  ghost : t.ghost = Function.update s.ghost h ((s.ghost h).start oneshot)

section Start
variable {valid : ℤ → Bool} {s : State} {h signalCb : ℕ} {n : ℤ} {oneshot : Bool}

theorem startLocked_refused (ha : ¬Accepted valid s n oneshot) : startLocked valid s h signalCb n oneshot = s := by
  have hc : registers s n oneshot = true ∧ ¬valid n = true := Classical.not_imp.1 ha
  simp only [startLocked, signalStart, if_pos hc, Bool.false_eq_true, if_false]

/-- The state in which `RB_INSERT` is called. -/
def inserting (s : State) (h : ℕ) (n : ℤ) (oneshot : Bool) : State :=
  put (if registers s n oneshot then registerHandler s n oneshot else s) h
    { s.handles h with signum := n, oneShot := (s.handles h).oneShot || oneshot }

theorem startLocked_accepted (ha : Accepted valid s n oneshot) :
    startLocked valid s h signalCb n oneshot =
      let u := inserting s h n oneshot
      mark (put { u with tree := insert u h } h
        { s.handles h with signum := n, oneShot := (s.handles h).oneShot || oneshot, signalCb := signalCb })
        h ((s.ghost h).start oneshot) := by
  have hc : ¬(registers s n oneshot = true ∧ ¬valid n = true) := fun hc => hc.2 (ha hc.1)
  simp only [startLocked, signalStart, if_neg hc, if_true, inserting]
  split_ifs <;> simp [registerHandler, put]

theorem startLocked_started (ha : Accepted valid s n oneshot) :
    Started s (startLocked valid s h signalCb n oneshot) h signalCb n oneshot := by
  rw [startLocked_accepted ha]
  unfold inserting
  constructor <;> split_ifs <;> simp [registerHandler, put, mark]

theorem Tree.startLocked (hs : Tree s) (h0 : (s.handles h).signum = 0) (hn : n ≠ 0) :
    Tree (startLocked valid s h signalCb n oneshot) := by
  by_cases ha : Accepted valid s n oneshot
  · have hu : Tree { inserting s h n oneshot with tree := Signal.insert (inserting s h n oneshot) h } := by
      apply hs.insert h0
      · simpa [inserting] using hn
      · unfold inserting
        split_ifs <;> rfl
      · intro x hx
        unfold inserting
        split_ifs <;> simp [hx, registerHandler]
    rw [startLocked_accepted ha]
    refine @Tree.congr _ _ hu rfl fun x => ?_
    rcases eq_or_ne x h with rfl | hx
    · simp [key, inserting]
    · simp [key, hx]
  · rwa [startLocked_refused ha]

theorem Tree.registers_false (hs : Tree s) (hr : registers s n oneshot = false) :
    ∃ x, (s.handles x).signum = n ∧ (oneshot = false → (s.handles x).oneShot = false) := by
  unfold registers at hr
  split at hr
  · cases hr
  next first hf =>
    refine ⟨first, (hs.sorted.firstHandle_some hf).1.2, ?_⟩
    rintro rfl
    simpa using hr

theorem Tree.registers_true (hs : Tree s) (hn : n ≠ 0) (hr : registers s n oneshot = true) :
    oneshot = false ∨ ∀ x, (s.handles x).signum ≠ n := by
  unfold registers at hr
  split at hr
  next hf =>
    refine .inr fun x hx => ?_
    exact hs.sorted.firstHandle_none.1 hf x ((hs.mem x).2 (hx ▸ hn)) hx
  next first hf =>
    simp only [Bool.and_eq_true, Bool.not_eq_true'] at hr
    exact .inl hr.1

end Start

end Libuv.L2.Signal
