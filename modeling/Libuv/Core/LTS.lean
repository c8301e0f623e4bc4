import Mathlib.Tactic.TypeStar

/-!
# Labelled transition systems

The semantics every stateful model of this development is given: `LTS` is an
initial predicate and a labelled step relation. `Run` is a finite execution with
its labels, `Reachable` the end of one from an initial state.

* `Inductive.reachable`: a predicate that holds initially and is preserved by
  every step holds in every reachable state.
* `Inductive.with_`: an invariant may be proved inductive relative to one that is
  already known.
* `TraceInductive.run`: the same for a predicate of the labels performed so far
  and the state reached, the form in which "at most once" and "never before" are
  stated.
* `History.refines`: what is reached in one system is related to what is reached by the
  same labels in another that can follow it.
* `LTS.restrict`: the runs all of whose steps meet a condition on the state before
  the step and its label.
-/
namespace Libuv

structure LTS (S L : Type*) where
  init : S → Prop
  step : S → L → S → Prop

namespace LTS

variable {S L : Type*} (T : LTS S L)

/-- `Run s ls s'`: performing the labels `ls` in order leads from `s` to `s'`. -/
inductive Run : S → List L → S → Prop
  | nil (s : S) : Run s [] s
  | snoc {s t u : S} {ls : List L} {l : L} : Run s ls t → T.step t l u → Run s (ls ++ [l]) u

/-- `ls` is the history of some run from an initial state to `s`. -/
def History (ls : List L) (s : S) : Prop := ∃ s₀, T.init s₀ ∧ T.Run s₀ ls s

def Reachable (s : S) : Prop := ∃ ls, T.History ls s

/-- The runs of `T` whose steps all meet `C`. -/
def restrict (C : S → L → Prop) : LTS S L where
  init := T.init
  step s l s' := C s l ∧ T.step s l s'

structure Inductive (P : S → Prop) : Prop where
  init : ∀ s, T.init s → P s
  step : ∀ s l s', P s → T.step s l s' → P s'

structure TraceInductive (P : List L → S → Prop) : Prop where
  init : ∀ s, T.init s → P [] s
  step : ∀ ls s l s', P ls s → T.step s l s' → P (ls ++ [l]) s'

variable {T}

theorem History.nil {s : S} (h : T.init s) : T.History [] s := ⟨s, h, .nil s⟩

theorem History.snoc {s s' : S} {ls : List L} {l : L} (h : T.History ls s) (hs : T.step s l s') :
    T.History (ls ++ [l]) s' := by
  obtain ⟨s₀, h0, hr⟩ := h
  exact ⟨s₀, h0, .snoc hr hs⟩

theorem Reachable.init {s : S} (h : T.init s) : T.Reachable s := ⟨[], .nil h⟩

theorem Reachable.step {s s' : S} {l : L} (h : T.Reachable s) (hs : T.step s l s') :
    T.Reachable s' := by
  obtain ⟨ls, hl⟩ := h
  exact ⟨_, hl.snoc hs⟩

/-- A step along a label that is given, for runs written out. -/
theorem Reachable.next {s s' : S} (h : T.Reachable s) (l : L) (hs : T.step s l s') : T.Reachable s' := h.step hs

theorem History.foldlM {f : S → L → Option S} (hf : ∀ s l t, f s l = some t → T.step s l t) {w ls : List L}
    {s t : S} (hs : T.History ls s) (h : w.foldlM f s = some t) : T.History (ls ++ w) t := by
  induction w generalizing s ls with
  | nil =>
    cases h
    rwa [List.append_nil]
  | cons l w ih =>
    obtain ⟨u, hu, ht⟩ := Option.bind_eq_some_iff.1 h
    rw [List.append_cons]
    exact ih (hs.snoc (hf s l u hu)) ht

theorem Reachable.foldlM {f : S → L → Option S} (hf : ∀ s l t, f s l = some t → T.step s l t) {w : List L}
    {s t : S} (hs : T.Reachable s) (h : w.foldlM f s = some t) : T.Reachable t := by
  obtain ⟨ls, hl⟩ := hs
  exact ⟨_, hl.foldlM hf h⟩

theorem TraceInductive.run {P : List L → S → Prop} (hP : T.TraceInductive P) {ls : List L} {s : S}
    (h : T.History ls s) : P ls s := by
  obtain ⟨s₀, h0, hr⟩ := h
  induction hr with
  | nil => exact hP.init _ h0
  | snoc _ hs ih => exact hP.step _ _ _ _ ih hs

theorem Inductive.trace {P : S → Prop} (hP : T.Inductive P) : T.TraceInductive (fun _ s => P s) where
  init := hP.init
  step _ s l s' := hP.step s l s'

theorem Inductive.reachable {P : S → Prop} (hP : T.Inductive P) {s : S} (h : T.Reachable s) :
    P s := by
  obtain ⟨ls, hl⟩ := h
  exact hP.trace.run hl

theorem History.before {s : S} {a b : List L} {l : L} (h : T.History (a ++ l :: b) s) :
    ∃ t t', T.History a t ∧ T.step t l t' := by
  obtain ⟨s₀, h0, hr⟩ := h
  generalize hls : a ++ l :: b = ls at hr
  induction hr generalizing b with
  | nil => exact absurd hls (by simp)
  | @snoc t u ls l' hr hs ih =>
    rcases List.eq_nil_or_concat b with rfl | ⟨b, x, rfl⟩
    · obtain ⟨rfl, e⟩ := List.append_inj' hls rfl
      cases e
      exact ⟨t, u, ⟨_, h0, hr⟩, hs⟩
    · rw [List.concat_eq_append, ← List.cons_append, ← List.append_assoc] at hls
      exact ih (List.append_inj' hls rfl).1

theorem Run.append {s t u : S} {a b : List L} (h : T.Run s a t) (h' : T.Run t b u) : T.Run s (a ++ b) u := by
  induction h' with
  | nil => rwa [List.append_nil]
  | snoc _ hs ih =>
    rw [← List.append_assoc]
    exact .snoc ih hs

theorem Run.of_restrict {C : S → L → Prop} {s s' : S} {ls : List L} (h : (T.restrict C).Run s ls s') :
    T.Run s ls s' := by
  induction h with
  | nil => exact .nil _
  | snoc _ hs ih => exact .snoc ih hs.2

theorem Reachable.of_restrict {C : S → L → Prop} {s : S} (h : (T.restrict C).Reachable s) :
    T.Reachable s := by
  obtain ⟨ls, s₀, h0, hr⟩ := h
  exact ⟨ls, s₀, h0, hr.of_restrict⟩

theorem Reachable.restrict_mono {C D : S → L → Prop} (hCD : ∀ s l, C s l → D s l) {s : S}
    (h : (T.restrict C).Reachable s) : (T.restrict D).Reachable s := by
  obtain ⟨ls, s₀, h0, hr⟩ := h
  refine ⟨ls, s₀, h0, ?_⟩
  induction hr with
  | nil => exact .nil _
  | snoc _ hs ih => exact .snoc ih ⟨hCD _ _ hs.1, hs.2⟩

theorem History.refines {S' : Type*} {U : LTS S' L} {R : S → S' → Prop} (hi : ∀ s, T.init s → ∃ u, U.init u ∧ R s u)
    (hs : ∀ s u l t, U.Reachable u → R s u → T.step s l t → ∃ v, U.step u l v ∧ R t v) {ls : List L} {s : S}
    (h : T.History ls s) : ∃ u, U.History ls u ∧ R s u := by
  obtain ⟨s₀, h0, hr⟩ := h
  induction hr with
  | nil =>
    obtain ⟨u, hu, hR⟩ := hi _ h0
    exact ⟨u, .nil hu, hR⟩
  | snoc _ hst ih =>
    obtain ⟨u, hu, hR⟩ := ih
    obtain ⟨v, hv, hR'⟩ := hs _ _ _ _ ⟨_, hu⟩ hR hst
    exact ⟨v, hu.snoc hv, hR'⟩

/-- An invariant proved inductive with the help of an earlier one. -/
theorem Inductive.with_ {P Q : S → Prop} (hP : T.Inductive P) (hi : ∀ s, T.init s → Q s)
    (hs : ∀ s l s', P s → Q s → T.step s l s' → Q s') : T.Inductive (fun s => P s ∧ Q s) where
  init s h := ⟨hP.init s h, hi s h⟩
  step s l s' h hst := ⟨hP.step s l s' h.1 hst, hs s l s' h.1 h.2 hst⟩

theorem Inductive.restrict {P : S → Prop} (hP : T.Inductive P) (C : S → L → Prop) :
    (T.restrict C).Inductive P where
  init := hP.init
  step s l s' h hst := hP.step s l s' h hst.2

end LTS

end Libuv
