import Mathlib.Data.List.Basic
import Mathlib.Tactic.Common

/-!
# Command lines

A command line is split where it is blank outside of quotes. In an argument 2k backslashes before a quote stand for
k and the quote starts or ends quoting, 2k + 1 stand for k and the quote stands for itself, and any other backslash
stands for itself. `escape` doubles the backslashes before a quote, and before the end, and puts one more before the
quote.

* `scan_escape`: an escaped argument between quotes is read as it was.
* `split_render`: so are arguments that are quoted where they have to be and separated by a blank.
* `split_skipName`: the arguments behind the first are also read as they were where the first is taken for a program
  name, in which backslashes do nothing, if it has no quote.
* `emit_reverse`: a loop from the end of the argument to its beginning writes the escaped argument backwards.
-/
namespace Libuv.CommandLine

open List

structure Marks (α : Type*) where
  blank : α → Bool
  quote : α
  slash : α
  quote_ne_slash : quote ≠ slash
  blank_quote : blank quote = false
  blank_slash : blank slash = false

/-- Between two arguments, or in one: within quotes or not, with the backslashes just read and what the argument is
so far without them. -/
inductive Scan (α : Type*)
  | between
  | arg (quoted : Bool) (slashes : ℕ) (text : List α)

namespace Marks
variable {α : Type*} [DecidableEq α] (m : Marks α)

def slashes (n : ℕ) : List α := List.replicate n m.slash

/-- A character of an argument; `done` are the arguments before. -/
def inArg (done : List (List α)) (quoted : Bool) (n : ℕ) (text : List α) (c : α) : List (List α) × Scan α :=
  if c = m.slash then (done, .arg quoted (n + 1) text)
  else if c = m.quote then
    if n % 2 = 0 then (done, .arg (!quoted) 0 (text ++ m.slashes (n / 2)))
    else (done, .arg quoted 0 (text ++ m.slashes (n / 2) ++ [c]))
  else if !quoted && m.blank c then (done ++ [text ++ m.slashes n], .between)
  else (done, .arg quoted 0 (text ++ m.slashes n ++ [c]))

def feed : List (List α) × Scan α → α → List (List α) × Scan α
  | (done, .between), c => if m.blank c then (done, .between) else m.inArg done false 0 [] c
  | (done, .arg quoted n text), c => m.inArg done quoted n text c

def finish : List (List α) × Scan α → List (List α)
  | (done, .between) => done
  | (done, .arg _ n text) => done ++ [text ++ m.slashes n]

def split (line : List α) : List (List α) := m.finish (line.foldl m.feed ([], .between))

def skipName : Bool → List α → List α
  | _, [] => []
  | quoted, c :: cs =>
    if c = m.quote then skipName (!quoted) cs
    else if !quoted && m.blank c then c :: cs
    else skipName quoted cs

/-! ## Quoting -/

/-- What `c` makes of the flag `backslashes are doubled`, going towards the beginning. -/
def hitStep (hit : Bool) (c : α) : Bool := (hit && decide (c = m.slash)) || decide (c = m.quote)

/-- `s` begins with backslashes and then a quote, or the end. -/
def hit (s : List α) : Bool := s.foldr (fun c h => m.hitStep h c) true

def escape : List α → List α
  | [] => []
  | c :: s =>
    if m.hit s = true ∧ c = m.slash then m.slash :: c :: escape s
    else if c = m.quote then m.slash :: c :: escape s
    else c :: escape s

def wrap (s : List α) : List α := m.quote :: m.escape s ++ [m.quote]

/-- No blank and no quote, so it can stand as it is. -/
def bare (s : List α) : Bool := s.all fun c => !m.blank c && decide (c ≠ m.quote)

def quoteArg (s : List α) : List α := if s ≠ [] ∧ m.bare s = true then s else m.wrap s

def render (sep : α) : List (List α) → List α
  | [] => []
  | [s] => m.quoteArg s
  | s :: ss => m.quoteArg s ++ sep :: render sep ss

omit [DecidableEq α] in
@[simp] theorem slashes_zero : m.slashes 0 = [] := rfl

omit [DecidableEq α] in
theorem slashes_succ (n : ℕ) (s : List α) : m.slashes (n + 1) ++ s = m.slashes n ++ m.slash :: s := by
  rw [slashes, replicate_succ', append_assoc]
  rfl

theorem hit_cons (c : α) (s : List α) : m.hit (c :: s) = m.hitStep (m.hit s) c := rfl

theorem hitStep_slash (hit : Bool) : m.hitStep hit m.slash = hit := by simp [hitStep, m.quote_ne_slash.symm]

theorem hitStep_quote (hit : Bool) : m.hitStep hit m.quote = true := by simp [hitStep]

theorem hitStep_other (hit : Bool) {c : α} (hs : c ≠ m.slash) (hq : c ≠ m.quote) : m.hitStep hit c = false := by
  simp [hitStep, hs, hq]

theorem escape_slash (s : List α) :
    m.escape (m.slash :: s) = if m.hit s then m.slash :: m.slash :: m.escape s else m.slash :: m.escape s := by
  rw [escape]
  split
  · next h => rw [if_pos h.1]
  · next h => rw [if_neg fun e => h ⟨e, rfl⟩, if_neg m.quote_ne_slash.symm]

theorem escape_quote (s : List α) : m.escape (m.quote :: s) = m.slash :: m.quote :: m.escape s := by
  rw [escape, if_neg fun e => m.quote_ne_slash e.2, if_pos rfl]

theorem escape_other {c : α} (hs : c ≠ m.slash) (hq : c ≠ m.quote) (s : List α) :
    m.escape (c :: s) = c :: m.escape s := by
  rw [escape, if_neg fun e => hs e.2, if_neg hq]

/-! ## Reading -/

section Read
variable (done : List (List α)) (quoted : Bool) (n : ℕ) (text : List α)

theorem inArg_slash : m.inArg done quoted n text m.slash = (done, .arg quoted (n + 1) text) := if_pos rfl

theorem inArg_toggle : m.inArg done quoted (2 * n) text m.quote = (done, .arg (!quoted) 0 (text ++ m.slashes n)) := by
  simp [inArg, m.quote_ne_slash]

theorem inArg_quote :
    m.inArg done quoted (2 * n + 1) text m.quote = (done, .arg quoted 0 (text ++ m.slashes n ++ [m.quote])) := by
  have hdiv : (2 * n + 1) / 2 = n := by omega
  simp [inArg, m.quote_ne_slash, hdiv]

theorem inArg_other {c : α} (hs : c ≠ m.slash) (hq : c ≠ m.quote) (hb : quoted = true ∨ m.blank c = false) :
    m.inArg done quoted n text c = (done, .arg quoted 0 (text ++ m.slashes n ++ [c])) := by
  rcases hb with rfl | hb
  · simp [inArg, hs, hq]
  · simp [inArg, hs, hq, hb]

theorem inArg_blank {c : α} (hb : m.blank c = true) :
    m.inArg done false n text c = (done ++ [text ++ m.slashes n], .between) := by
  have hs : c ≠ m.slash := by
    rintro rfl
    simp [m.blank_slash] at hb
  have hq : c ≠ m.quote := by
    rintro rfl
    simp [m.blank_quote] at hb
  simp [inArg, hs, hq, hb]

end Read

/-- **An escaped argument is read as it was**, up to the quote that ends it. The backslashes read so far count twice
if those to come do. -/
theorem scan_escape (s : List α) (done : List (List α)) (n : ℕ) (text : List α) :
    (m.escape s ++ [m.quote]).foldl m.feed (done, .arg true (if m.hit s then 2 * n else n) text) =
      (done, .arg false 0 (text ++ m.slashes n ++ s)) := by
  induction s generalizing n text with
  | nil => simp [escape, hit, feed, inArg_toggle]
  | cons c s ih =>
    by_cases hc : c = m.slash
    · -- one more backslash, or two, as for those before
      subst hc
      have hend : text ++ m.slashes n ++ m.slash :: s = text ++ m.slashes (n + 1) ++ s := by
        rw [append_assoc, append_assoc, slashes_succ]
      rw [hend, ← ih (n + 1), hit_cons, hitStep_slash, escape_slash]
      cases m.hit s
      · simp [feed, inArg_slash]
      · simp [feed, inArg_slash, Nat.mul_add]
    · by_cases hq : c = m.quote
      · subst hq
        have h0 := ih 0 (text ++ m.slashes n ++ [m.quote])
        simp only [Nat.mul_zero, ite_self] at h0
        rw [hit_cons, hitStep_quote, if_pos rfl, escape_quote, cons_append, cons_append, foldl_cons, feed,
          inArg_slash, foldl_cons, feed, inArg_quote, h0]
        simp
      · have h0 := ih 0 (text ++ m.slashes n ++ [c])
        simp only [Nat.mul_zero, ite_self] at h0
        rw [hit_cons, m.hitStep_other _ hc hq, if_neg Bool.false_ne_true, m.escape_other hc hq, cons_append,
          foldl_cons, feed, m.inArg_other done true n text hc hq (.inl rfl), h0]
        simp

variable {s : List α}

theorem scan_bare (h : m.bare s = true) (done : List (List α)) (n : ℕ) (text : List α) :
    ∃ k t, s.foldl m.feed (done, .arg false n text) = (done, .arg false k t) ∧
      t ++ m.slashes k = text ++ m.slashes n ++ s := by
  induction s generalizing n text with
  | nil => exact ⟨n, text, rfl, (append_nil _).symm⟩
  | cons c s ih =>
    simp only [bare, all_cons, Bool.and_eq_true, Bool.not_eq_true', decide_eq_true_eq] at h
    obtain ⟨⟨hb, hq⟩, hs⟩ := h
    rw [foldl_cons]
    by_cases hc : c = m.slash
    · subst hc
      obtain ⟨k, t, h1, h2⟩ := ih hs (n + 1) text
      refine ⟨k, t, by rwa [feed, inArg_slash], ?_⟩
      rw [h2, append_assoc, slashes_succ, append_assoc]
    · obtain ⟨k, t, h1, h2⟩ := ih hs 0 (text ++ m.slashes n ++ [c])
      refine ⟨k, t, by rwa [feed, m.inArg_other done false n text hc hq (.inr hb)], ?_⟩
      rw [h2]
      simp

theorem scan_quoteArg (s : List α) (done : List (List α)) :
    ∃ k t, (m.quoteArg s).foldl m.feed (done, .between) = (done, .arg false k t) ∧ t ++ m.slashes k = s := by
  unfold quoteArg
  split
  · next h =>
    obtain ⟨hne, hbare⟩ := h
    obtain ⟨k, t, h1, h2⟩ := m.scan_bare hbare done 0 []
    refine ⟨k, t, ?_, by simpa using h2⟩
    cases s with
    | nil => exact absurd rfl hne
    | cons c s =>
      have hb : m.blank c = false := by
        simp only [bare, all_cons, Bool.and_eq_true, Bool.not_eq_true'] at hbare
        exact hbare.1.1
      simpa [feed, hb] using h1
  · refine ⟨0, s, ?_, by simp⟩
    have h := m.scan_escape s done 0 []
    have hopen := m.inArg_toggle done false 0 []
    simp only [Nat.mul_zero, ite_self, slashes_zero, append_nil, nil_append, Bool.not_false] at h hopen
    simp [wrap, feed, m.blank_quote, hopen, h]

/-- **The arguments of a rendered command line are the ones it was made from.** -/
theorem split_render {sep : α} (hsep : m.blank sep = true) (ss : List (List α)) : m.split (m.render sep ss) = ss := by
  suffices h : ∀ done, m.finish ((m.render sep ss).foldl m.feed (done, .between)) = done ++ ss from h []
  induction ss with
  | nil => exact fun done => (append_nil done).symm
  | cons s ss ih =>
    intro done
    obtain ⟨k, t, h1, h2⟩ := m.scan_quoteArg s done
    cases ss with
    | nil =>
      rw [render, h1, finish, h2]
    | cons s' ss =>
      rw [render, foldl_append, h1, foldl_cons, feed, m.inArg_blank done k t hsep, h2, ih]
      · simp
      · simp

/-! ## The program name -/

theorem skipName_quoted (h : m.quote ∉ s) (rest : List α) :
    m.skipName true (s ++ m.quote :: rest) = m.skipName false rest := by
  induction s with
  | nil => simp [skipName]
  | cons c s ih =>
    rw [mem_cons, not_or] at h
    simp [skipName, Ne.symm h.1, ih h.2]

theorem skipName_bare (h : m.bare s = true) (rest : List α) :
    m.skipName false (s ++ rest) = m.skipName false rest := by
  induction s with
  | nil => rfl
  | cons c s ih =>
    simp only [bare, all_cons, Bool.and_eq_true, Bool.not_eq_true', decide_eq_true_eq] at h
    obtain ⟨⟨hb, hq⟩, hs⟩ := h
    simp [skipName, hb, hq, ih hs]

theorem mem_escape {c : α} (h : c ∈ m.escape s) : c ∈ s ∨ c = m.slash := by
  induction s with
  | nil => cases h
  | cons d s ih =>
    rw [escape] at h
    split at h
    · simp only [mem_cons] at h ⊢
      tauto
    · split at h <;> simp only [mem_cons] at h ⊢ <;> tauto

theorem mem_quoteArg {c : α} (h : c ∈ m.quoteArg s) : c ∈ s ∨ c = m.slash ∨ c = m.quote := by
  unfold quoteArg at h
  split at h
  · exact .inl h
  · simp only [wrap, cons_append, mem_cons, mem_append, not_mem_nil, or_false] at h
    rcases h with rfl | h | rfl
    · exact .inr (.inr rfl)
    · exact (m.mem_escape h).imp_right .inl
    · exact .inr (.inr rfl)

theorem skipName_quoteArg (h : m.quote ∉ s) (rest : List α) :
    m.skipName false (m.quoteArg s ++ rest) = m.skipName false rest := by
  unfold quoteArg
  split
  · next hb => exact m.skipName_bare hb.2 rest
  · have hq : m.quote ∉ m.escape s := fun hm => (m.mem_escape hm).elim h m.quote_ne_slash
    simp [wrap, skipName, m.skipName_quoted hq]

theorem split_skipName {sep : α} (hsep : m.blank sep = true) (hs : m.quote ∉ s) (ss : List (List α)) :
    m.split (m.skipName false (m.render sep (s :: ss))) = ss := by
  have hq : sep ≠ m.quote := by
    rintro rfl
    simp [m.blank_quote] at hsep
  cases ss with
  | nil =>
    rw [render, ← append_nil (m.quoteArg s), m.skipName_quoteArg hs]
    rfl
  | cons s' ss =>
    rw [render, m.skipName_quoteArg hs]
    · have hskip : m.skipName false (sep :: m.render sep (s' :: ss)) = sep :: m.render sep (s' :: ss) := by
        simp [skipName, hq, hsep]
      have hrest := m.split_render hsep (s' :: ss)
      simpa [hskip, split, feed, hsep] using hrest
    · simp

/-! ## Writing -/

theorem escape_plain (hq : m.quote ∉ s) (hs : m.slash ∉ s) : m.escape s = s := by
  induction s with
  | nil => rfl
  | cons c s ih =>
    rw [mem_cons, not_or] at hq hs
    simp [escape, Ne.symm hq.1, Ne.symm hs.1, ih hq.2 hs.2]

theorem length_escape_le (s : List α) : (m.escape s).length ≤ 2 * s.length := by
  induction s with
  | nil => exact Nat.le_refl _
  | cons c s ih =>
    rw [escape]
    split
    · simp only [length_cons]
      omega
    · split <;> simp only [length_cons] <;> omega

theorem length_quoteArg_le (s : List α) : (m.quoteArg s).length ≤ 2 * s.length + 2 := by
  have := m.length_escape_le s
  unfold quoteArg
  split
  · omega
  · simp only [wrap, cons_append, length_cons, length_append, length_nil]
    omega

/-- The escaped form of `s.reverse`, backwards: the loop that writes it. -/
def emit : Bool → List α → List α
  | _, [] => []
  | hit, c :: s =>
    if hit = true ∧ c = m.slash then c :: m.slash :: emit hit s
    else if c = m.quote then c :: m.slash :: emit true s
    else c :: emit false s

theorem emit_append (s t : List α) (hit : Bool) :
    m.emit hit (s ++ t) = m.emit hit s ++ m.emit (s.foldl m.hitStep hit) t := by
  induction s generalizing hit with
  | nil => rfl
  | cons c s ih =>
    rw [cons_append, emit, emit, foldl_cons]
    split
    · next h =>
      rw [ih, h.2, hitStep_slash]
      rfl
    · next h =>
      split
      · next hq =>
        rw [ih, hq, hitStep_quote]
        rfl
      · next hq =>
        have hh : m.hitStep hit c = false := by
          by_cases hc : c = m.slash
          · subst hc
            rw [hitStep_slash]
            exact Bool.eq_false_iff.2 fun e => h ⟨e, rfl⟩
          · exact m.hitStep_other hit hc hq
        rw [ih, hh]
        rfl

theorem emit_reverse (s : List α) : m.emit true s.reverse = (m.escape s).reverse := by
  induction s with
  | nil => rfl
  | cons c s ih =>
    have hh : s.reverse.foldl m.hitStep true = m.hit s := foldl_reverse
    rw [reverse_cons, emit_append, ih, hh, escape]
    split
    · next h => simp [emit, h]
    · next h =>
      split
      · next hq => simp [emit, hq, m.quote_ne_slash]
      · next hq => simp [emit, h, hq]

end Marks

end Libuv.CommandLine
