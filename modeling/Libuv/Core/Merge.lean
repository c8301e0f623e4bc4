import Mathlib.Data.List.Perm.Basic
import Mathlib.Order.Basic
import Mathlib.Tactic

/-!
# Filling up a sorted list from a table

`fill f g bs as` merges the list `as`, sorted by `g`, with those entries of the table `bs`, sorted by
`f` without repetition, whose key no element of `as` has: both are read from the front, and an entry that compares
equal to the element before it is passed over together with it.

* `fill_perm`: all of `as`, and the entries that `as` lacks.
* `fill_sorted`: in the order of the keys.
-/
namespace Libuv.Merge

open List

variable {α β κ : Type*} [LinearOrder κ] (f : β → κ) (g : α → κ)

def fill : List β → List α → List (β ⊕ α)
  | [], as => as.map .inr
  | b :: bs, [] => .inl b :: fill bs []
  | b :: bs, a :: as =>
    if f b < g a then .inl b :: fill bs (a :: as)
    else if f b = g a then .inr a :: fill bs as
    else .inr a :: fill (b :: bs) as
termination_by bs as => bs.length + as.length

def key : β ⊕ α → κ := Sum.elim f g

/-- The entries that have no element of their key. -/
def missing (bs : List β) (as : List α) : List β := bs.filter fun b => as.all fun a => decide (g a ≠ f b)

variable {f g} {a : α} {b : β} {as : List α} {bs : List β}

theorem mem_missing : b ∈ missing f g bs as ↔ b ∈ bs ∧ ∀ a ∈ as, g a ≠ f b := by
  simp [missing]

@[simp] theorem missing_nil : missing f g bs ([] : List α) = bs := by
  simp [missing]

theorem missing_cons_right (h : ∀ b ∈ bs, g a ≠ f b) : missing f g bs (a :: as) = missing f g bs as := by
  refine filter_congr fun b hb => ?_
  simp [h b hb]

theorem missing_of_lt (ha : (a :: as).Pairwise fun a a' => g a ≤ g a') (hlt : f b < g a) :
    missing f g (b :: bs) (a :: as) = b :: missing f g bs (a :: as) := by
  have hmem : ∀ x ∈ a :: as, g x ≠ f b := by
    intro x hx
    rcases mem_cons.1 hx with rfl | hx
    · exact hlt.ne'
    · exact (hlt.trans_le ((pairwise_cons.1 ha).1 x hx)).ne'
  rw [missing, filter_cons_of_pos]
  · rfl
  · simpa using hmem

theorem missing_of_eq (hb : (b :: bs).Pairwise fun b b' => f b < f b') (heq : f b = g a) :
    missing f g (b :: bs) (a :: as) = missing f g bs as := by
  have hm : missing f g (b :: bs) (a :: as) = missing f g bs (a :: as) := by
    rw [missing, filter_cons_of_neg]
    · rfl
    · simp [heq]
  rw [hm]
  exact missing_cons_right fun b' hb' => heq ▸ ((pairwise_cons.1 hb).1 b' hb').ne

theorem missing_of_gt (hb : (b :: bs).Pairwise fun b b' => f b < f b') (hgt : g a < f b) :
    missing f g (b :: bs) (a :: as) = missing f g (b :: bs) as := by
  refine missing_cons_right fun b' hb' => ?_
  rcases mem_cons.1 hb' with rfl | hb'
  · exact hgt.ne
  · exact (hgt.trans ((pairwise_cons.1 hb).1 b' hb')).ne

/-- What `fill` takes from both lists. -/
theorem fill_perm (hb : bs.Pairwise fun b b' => f b < f b') (ha : as.Pairwise fun a a' => g a ≤ g a') :
    (fill f g bs as).Perm ((missing f g bs as).map .inl ++ as.map .inr) := by
  induction bs, as using fill.induct f g with
  | case1 as => simp [fill, missing]
  | case2 b bs ih =>
    rw [fill]
    simpa [missing] using ih (pairwise_cons.1 hb).2 ha
  | case3 b bs a as hlt ih =>
    rw [fill, if_pos hlt, missing_of_lt ha hlt]
    exact (ih (pairwise_cons.1 hb).2 ha).cons _
  | case4 b bs a as hlt heq ih =>
    rw [fill, if_neg hlt, if_pos heq, missing_of_eq hb heq]
    exact ((ih (pairwise_cons.1 hb).2 (pairwise_cons.1 ha).2).cons _).trans perm_middle.symm
  | case5 b bs a as hlt hne ih =>
    have hgt : g a < f b := lt_of_le_of_ne (not_lt.1 hlt) fun e => hne e.symm
    rw [fill, if_neg hlt, if_neg hne, missing_of_gt hb hgt]
    exact ((ih hb (pairwise_cons.1 ha).2).cons _).trans perm_middle.symm

theorem mem_fill (hb : bs.Pairwise fun b b' => f b < f b') (ha : as.Pairwise fun a a' => g a ≤ g a') {x : β ⊕ α}
    (hx : x ∈ fill f g bs as) : (∃ b ∈ bs, x = .inl b) ∨ ∃ a ∈ as, x = .inr a := by
  rcases mem_append.1 ((fill_perm hb ha).mem_iff.1 hx) with h | h
  · obtain ⟨b, hb, rfl⟩ := mem_map.1 h
    exact .inl ⟨b, (mem_missing.1 hb).1, rfl⟩
  · obtain ⟨a, ha, rfl⟩ := mem_map.1 h
    exact .inr ⟨a, ha, rfl⟩

theorem fill_sorted (hb : bs.Pairwise fun b b' => f b < f b') (ha : as.Pairwise fun a a' => g a ≤ g a') :
    (fill f g bs as).Pairwise fun x y => key f g x ≤ key f g y := by
  induction bs, as using fill.induct f g with
  | case1 as =>
    rw [fill]
    exact pairwise_map.2 ha
  | case2 b bs ih =>
    obtain ⟨hb1, hb2⟩ := pairwise_cons.1 hb
    rw [fill]
    refine pairwise_cons.2 ⟨fun x hx => ?_, ih hb2 ha⟩
    rcases mem_fill hb2 ha hx with ⟨b', hb', rfl⟩ | ⟨a', ha', -⟩
    · exact (hb1 b' hb').le
    · cases ha'
  | case3 b bs a as hlt ih =>
    obtain ⟨hb1, hb2⟩ := pairwise_cons.1 hb
    rw [fill, if_pos hlt]
    refine pairwise_cons.2 ⟨fun x hx => ?_, ih hb2 ha⟩
    rcases mem_fill hb2 ha hx with ⟨b', hb', rfl⟩ | ⟨a', ha', rfl⟩
    · exact (hb1 b' hb').le
    · rcases mem_cons.1 ha' with rfl | ha'
      · exact hlt.le
      · exact hlt.le.trans ((pairwise_cons.1 ha).1 a' ha')
  | case4 b bs a as hlt heq ih =>
    obtain ⟨hb1, hb2⟩ := pairwise_cons.1 hb
    obtain ⟨ha1, ha2⟩ := pairwise_cons.1 ha
    rw [fill, if_neg hlt, if_pos heq]
    refine pairwise_cons.2 ⟨fun x hx => ?_, ih hb2 ha2⟩
    rcases mem_fill hb2 ha2 hx with ⟨b', hb', rfl⟩ | ⟨a', ha', rfl⟩
    · exact heq.ge.trans (hb1 b' hb').le
    · exact ha1 a' ha'
  | case5 b bs a as hlt hne ih =>
    obtain ⟨hb1, hb2⟩ := pairwise_cons.1 hb
    obtain ⟨ha1, ha2⟩ := pairwise_cons.1 ha
    have hge : g a ≤ f b := not_lt.1 hlt
    rw [fill, if_neg hlt, if_neg hne]
    refine pairwise_cons.2 ⟨fun x hx => ?_, ih hb ha2⟩
    rcases mem_fill hb ha2 hx with ⟨b', hb', rfl⟩ | ⟨a', ha', rfl⟩
    · rcases mem_cons.1 hb' with rfl | hb'
      · exact hge
      · exact hge.trans (hb1 b' hb').le
    · exact ha1 a' ha'

end Libuv.Merge
