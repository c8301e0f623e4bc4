import Libuv.Core.Punycode
import Libuv.L1Data.Idna

/-!
# The label encoder is the RFC 3492 encoder

On a label that is valid UTF-8 every pass over the bytes is a pass over the code points
(`forEach_encode`). The 32-bit encoder then follows `Punycode.rounds` round by round for as
long as the deltas fit, and fails with `UV_E2BIG` at the first one that does not.

* `toascii_label`: the output for every label below 2^32 code points
* `toascii_label_long`: the counters wrap around on longer ones
-/
namespace Libuv.L1.Idna

open List
open Punycode (Coder)

/-! ## Passes over the code points -/

theorem Begins.not_fooled {bs p : List UInt8} {c : ℕ} (h : Begins bs c p) : ¬Fooled bs := by
  intro hf
  match bs, hf with
  | [a, d], hf =>
    obtain ⟨h1, h2, -⟩ := hf
    rcases begins_iff.1 h with ⟨h3, -⟩ | ⟨-, h3, -⟩ | ⟨-, -, _, _, he, -⟩ | ⟨-, -, _, _, _, he, -⟩
    · omega
    · omega
    · cases he
    · cases he
  | a :: c' :: d :: q, hf =>
    rcases hf with ⟨h1, h2, -, htop, -⟩ | ⟨h1, h2, hf⟩
    · rcases begins_iff.1 h with ⟨h3, -⟩ | ⟨-, h3, -⟩ | ⟨-, -, _, _, he, ht, -⟩ | ⟨h3, -⟩
      · omega
      · omega
      · cases he
        exact htop ht.2
      · omega
    · rcases begins_iff.1 h with ⟨h3, -⟩ | ⟨-, h3, -⟩ | ⟨-, h3, -⟩ | ⟨-, -, _, _, _, he, ht, -⟩
      · omega
      · omega
      · omega
      · cases he
        exact hf.2.1 ht

theorem decode1_encode {c : ℕ} (hc : Scalar c) (p : List UInt8) : utf8Decode1 (encode c ++ p) = (c, p) := by
  have hb : Begins (encode c ++ p) c p := ⟨hc, rfl⟩
  obtain ⟨a, q, haq⟩ := exists_cons_of_ne_nil (append_ne_nil_of_left_ne_nil (encode_ne_nil c) p)
  rw [haq] at hb ⊢
  have hcorrect : Correct (a :: q) := by
    by_cases h1 : a.toNat < 128
    · exact (correct_ascii h1).2 hb.not_fooled
    · exact (correct_lead h1).2 hb.not_fooled
  exact ((hcorrect c p).2 hb).1

theorem forEach_encode {σ : Type} {cs : List ℕ} (hs : ∀ c ∈ cs, Scalar c) (x : σ)
    (body : ℕ → σ → Except Exit (ForInStep σ)) : forEach (cs.flatMap encode) x body = forIn cs x body := by
  induction cs generalizing x with
  | nil => rw [flatMap_nil, forEach]; rfl
  | cons c cs ih =>
    have hd := decode1_encode (hs c mem_cons_self) (cs.flatMap encode)
    have ih := ih (fun c' h => hs c' (mem_cons_of_mem c h))
    rw [flatMap_cons, forIn_cons]
    obtain ⟨a, q, haq⟩ := exists_cons_of_ne_nil (append_ne_nil_of_left_ne_nil (encode_ne_nil c) (cs.flatMap encode))
    rw [haq] at hd ⊢
    rw [forEach, hd]
    cases body c x with
    | error e => rfl
    | ok r =>
      cases r with
      | done x => rfl
      | yield x => exact ih x

theorem u32_of_lt {n : ℕ} (h : n < 2 ^ 32) : u32 n = n := Nat.mod_eq_of_lt h

theorem u32_succ (n : ℕ) : u32 (u32 n + 1) = u32 (n + 1) := Nat.mod_add_mod n (2 ^ 32) 1

theorem Scalar.ne_max {c : ℕ} (h : Scalar c) : c ≠ UINT_MAX := by
  unfold Scalar UINT_MAX at *
  omega

/-! ## The output -/

def putAll (de : ℕ) (d : List UInt8) (cs : List ℕ) : List UInt8 := cs.foldl (put de) d

theorem putAll_append (de : ℕ) (d : List UInt8) (as bs : List ℕ) :
    putAll de d (as ++ bs) = putAll de (putAll de d as) bs := foldl_append

theorem putAll_eq (de : ℕ) (d : List UInt8) (cs : List ℕ) :
    putAll de d cs = d ++ (cs.map UInt8.ofNat).take (de - d.length) := by
  induction cs generalizing d with
  | nil => simp [putAll]
  | cons c cs ih =>
    have hcons : putAll de d (c :: cs) = putAll de (put de d c) cs := rfl
    rw [hcons, ih]
    by_cases h : d.length < de
    · have hroom : de - d.length = de - (d.length + 1) + 1 := by omega
      simp [put, h, hroom]
    · have hroom : de - d.length = 0 := by omega
      simp [put, h, hroom]

/-! ## The first two passes -/

theorem count_encode {cs : List ℕ} (hs : ∀ c ∈ cs, Scalar c) (d : List UInt8) :
    count (cs.flatMap encode) d = .ok (u32 (cs.filter (· < 128)).length, u32 (cs.filter (128 ≤ ·)).length) := by
  have key (cs : List ℕ) (hs : ∀ c ∈ cs, Scalar c) (h todo : ℕ) :
      (forIn cs (u32 h, u32 todo) fun c p =>
        if c = UINT_MAX then .error (.ret UV_EINVAL d)
        else if c < 128 then .ok (.yield (u32 (p.1 + 1), p.2))
        else .ok (.yield (p.1, u32 (p.2 + 1))) : Except Exit (ℕ × ℕ)) =
      .ok (u32 (h + (cs.filter (· < 128)).length), u32 (todo + (cs.filter (128 ≤ ·)).length)) := by
    induction cs generalizing h todo with
    | nil => rfl
    | cons c cs ih =>
      have ih := ih fun c' hc => hs c' (mem_cons_of_mem c hc)
      have hc := (hs c mem_cons_self).ne_max
      rw [forIn_cons]
      by_cases hlt : c < 128
      · simp only [hc, hlt, if_true, if_false, u32_succ, filter_cons, Nat.not_le.2 hlt, decide_true, decide_false]
        refine (ih (h + 1) todo).trans ?_
        simp [Nat.add_assoc, Nat.add_comm]
      · simp only [hc, hlt, if_true, if_false, u32_succ, filter_cons, Nat.le_of_not_lt hlt, decide_true, decide_false]
        refine (ih h (todo + 1)).trans ?_
        simp [Nat.add_assoc, Nat.add_comm]
  unfold count
  rw [forEach_encode hs]
  have h0 : u32 0 = 0 := rfl
  simpa [h0] using key cs hs 0 0

theorem writeAscii_encode {cs : List ℕ} (hs : ∀ c ∈ cs, Scalar c) {h : ℕ} (hh : h = (cs.filter (· < 128)).length)
    (hlt : h < 2 ^ 32) (de : ℕ) (d : List UInt8) :
    ∃ x, writeAscii h de (cs.flatMap encode) d = .ok (x, putAll de d (cs.filter (· < 128))) := by
  have key (cs : List ℕ) (hs : ∀ c ∈ cs, Scalar c) (x : ℕ) (d : List UInt8) (hx : x + (cs.filter (· < 128)).length = h) :
      ∃ x', (forIn cs (x, d) fun c p =>
        if c = UINT_MAX then .error .abort
        else if 127 < c then .ok (.yield p)
        else
          let d := put de p.2 c
          let x := u32 (p.1 + 1)
          if x = h then .ok (.done (x, d)) else .ok (.yield (x, d)) : Except Exit (ℕ × List UInt8)) =
        .ok (x', putAll de d (cs.filter (· < 128))) := by
    induction cs generalizing x d with
    | nil => exact ⟨x, rfl⟩
    | cons c cs ih =>
      have ih := ih fun c' hc => hs c' (mem_cons_of_mem c hc)
      have hc := (hs c mem_cons_self).ne_max
      rw [forIn_cons]
      by_cases h127 : 127 < c
      · have hge : ¬c < 128 := by omega
        simp only [filter_cons, hge, decide_false] at hx ⊢
        simp only [hc, h127, if_true, if_false]
        exact ih x d (by simpa using hx)
      · have hge : c < 128 := by omega
        simp only [filter_cons, hge, decide_true, if_true, length_cons] at hx ⊢
        have hx1 : u32 (x + 1) = x + 1 := u32_of_lt (by omega)
        simp only [hc, h127, if_false, hx1]
        by_cases hlast : x + 1 = h
        · have hnil : cs.filter (· < 128) = [] := length_eq_zero_iff.1 (by omega)
          rw [if_pos hlast, hnil]
          exact ⟨x + 1, rfl⟩
        · rw [if_neg hlast]
          exact ih (x + 1) (put de d c) (by omega)
  unfold writeAscii
  rw [forEach_encode hs]
  exact key cs hs 0 d (by omega)

/-! ## The minimum -/

theorem findMin_encode {cs : List ℕ} (hs : ∀ c ∈ cs, Scalar c) {n m : ℕ} (hm : (cs.filter (n ≤ ·)).min? = some m) :
    findMin n (cs.flatMap encode) = .ok m := by
  have key (cs : List ℕ) (hs : ∀ c ∈ cs, Scalar c) (m : ℕ) :
      (forIn cs m fun c m =>
        if c = UINT_MAX then .error .abort
        else if n ≤ c then .ok (.yield (if c < m then c else m))
        else .ok (.yield m) : Except Exit ℕ) = .ok ((cs.filter (n ≤ ·)).foldl min m) := by
    induction cs generalizing m with
    | nil => rfl
    | cons c cs ih =>
      have ih := ih fun c' hc => hs c' (mem_cons_of_mem c hc)
      have hc := (hs c mem_cons_self).ne_max
      rw [forIn_cons]
      by_cases hn : n ≤ c
      · have hmin : (if c < m then c else m) = min m c := by split <;> omega
        simp only [hc, hn, if_true, if_false, hmin, filter_cons, decide_true, foldl_cons]
        exact ih (min m c)
      · simp only [hc, hn, if_false, filter_cons, decide_false]
        exact ih m
  unfold findMin
  rw [forEach_encode hs, key cs hs]
  obtain ⟨c, l, hcl⟩ := exists_cons_of_ne_nil (l := cs.filter (n ≤ ·)) (by intro h; rw [h] at hm; cases hm)
  have hle : c ≤ UINT_MAX := by
    have := (hs c (mem_filter.1 (hcl ▸ mem_cons_self)).1).1
    unfold UINT_MAX
    omega
  rw [hcl, min?_cons', Option.some.injEq] at hm
  rw [hcl, foldl_cons, Nat.min_eq_right hle, hm]

/-! ## One code point -/

theorem alphabet_eq : ∀ d < 36, alphabet.getD d 0 = Punycode.digitCode d := by decide

theorem tOf_eq (bias k : ℕ) : tOf bias k = Punycode.threshold bias k := by
  unfold tOf Punycode.threshold
  grind

theorem writeDelta_eq (de bias k q : ℕ) (d : List UInt8) :
    writeDelta de bias k q d = putAll de d ((Punycode.varint bias k q).map Punycode.digitCode) := by
  induction q using Nat.strongRecOn generalizing k d with
  | _ q ih =>
    have hb := Punycode.threshold_bounds bias k
    rw [writeDelta, Punycode.varint]
    simp only [tOf_eq]
    by_cases h : q < Punycode.threshold bias k
    · rw [dif_pos h, dif_pos h, alphabet_eq q (by omega)]
      rfl
    · have hmod := Nat.mod_lt (q - Punycode.threshold bias k) (show 0 < 36 - Punycode.threshold bias k by omega)
      rw [dif_neg h, dif_neg h, ih _ (Punycode.quot_lt h), alphabet_eq _ (by omega)]
      rfl

theorem adaptBias_eq (delta bias : ℕ) : adaptBias delta bias = Punycode.scale delta bias := by
  induction delta using Nat.strongRecOn generalizing bias with
  | _ delta ih =>
    rw [adaptBias, Punycode.scale]
    by_cases h : 455 < delta
    · rw [dif_pos h, dif_pos h, ih _ (Nat.div_lt_self (by omega) (by decide))]
    · rw [dif_neg h, dif_neg h]

def Enc.coder (e : Enc) : Coder := ⟨e.h, e.bias, e.first⟩

/-- From `e` to `e'` the encoder has written `deltas`. -/
structure Wrote (de : ℕ) (deltas : List ℕ) (e e' : Enc) : Prop where
  n : e'.n = e.n
  coder : e'.coder = e.coder.after deltas
  todo : e'.todo + deltas.length = e.todo
  d : e'.d = putAll de e.d ((e.coder.digits deltas).map Punycode.digitCode)

theorem Wrote.append {de : ℕ} {ds es : List ℕ} {e e₁ e₂ : Enc} (h₁ : Wrote de ds e e₁) (h₂ : Wrote de es e₁ e₂) :
    Wrote de (ds ++ es) e e₂ := by
  refine ⟨h₂.n.trans h₁.n, ?_, ?_, ?_⟩
  · rw [h₂.coder, h₁.coder]
    exact foldl_append.symm
  · have := h₁.todo
    have := h₂.todo
    rw [length_append]
    omega
  · rw [Punycode.digits_append, map_append, putAll_append, ← h₁.d, ← h₁.coder, h₂.d]

theorem writeCodePoint_wrote {e : Enc} (de : ℕ) (hd : e.delta < 2 ^ 32) (hh : e.h + 1 < 2 ^ 32) (ht : 0 < e.todo)
    (ht' : e.todo < 2 ^ 32) : Wrote de [e.delta] e (writeCodePoint de e) := by
  have h1 : u32 (e.h + 1) = e.h + 1 := u32_of_lt hh
  refine ⟨rfl, ?_, ?_, ?_⟩
  · have hdamp : e.delta / 2 / 350 = e.delta / 700 := Nat.div_div_eq_div_mul _ _ _
    have hfit : ∀ x ≤ e.delta / 2, u32 (x + x / (e.h + 1)) = x + x / (e.h + 1) := fun x hx => by
      have := Nat.div_le_self x (e.h + 1)
      exact u32_of_lt (by omega)
    simp only [writeCodePoint, Enc.coder, Coder.after, foldl_cons, foldl_nil, Coder.next, Punycode.adapt, h1,
      adaptBias_eq]
    cases e.first with
    | true =>
      simp only [if_true]
      rw [hfit _ (Nat.div_le_self _ _), hdamp]
    | false =>
      simp only [Bool.false_eq_true, if_false]
      rw [hfit _ (Nat.le_refl _)]
  · have hdec : u32 (e.todo + UINT_MAX) = e.todo - 1 := by
      unfold u32 UINT_MAX
      omega
    simp only [writeCodePoint, hdec, length_singleton]
    omega
  · simp [writeCodePoint, writeDelta_eq, Coder.digits, Enc.coder]

/-! ## One pass -/

/-- A pass whose deltas fit, what it leaves included. -/
def Fits (p : List ℕ × ℕ × ℕ) : Prop := (∀ d ∈ p.1, d < 2 ^ 32) ∧ p.2.1 < 2 ^ 32

theorem not_fits (m h : ℕ) (r : List ℕ) {delta : ℕ} (hd : 2 ^ 32 ≤ delta) : ¬Fits (Punycode.pass m delta h r) := by
  intro ⟨hall, hlast⟩
  rcases Punycode.pass_ge m delta h r with ⟨d, hd', hge⟩ | hge
  · have := hall d hd'
    omega
  · omega

/-- **The inner loop is a pass of the reference encoder**, or fails because a delta of it does not fit. -/
theorem visit_pass (de : ℕ) (r : List ℕ) (hs : ∀ c ∈ r, Scalar c) (e : Enc) (hd : e.delta < 2 ^ 32)
    (hh : e.h + r.count e.n < 2 ^ 32) (ht : r.count e.n ≤ e.todo) (ht' : e.todo < 2 ^ 32) :
    (Fits (Punycode.pass e.n e.delta e.h r) ∧ ∃ e', (forIn r e (visit de) : Except Exit Enc) = .ok e' ∧
      Wrote de (Punycode.pass e.n e.delta e.h r).1 e e' ∧ e'.delta = (Punycode.pass e.n e.delta e.h r).2.1) ∨
    (¬Fits (Punycode.pass e.n e.delta e.h r) ∧ ∃ d, (forIn r e (visit de) : Except Exit Enc) = .error (.ret UV_E2BIG d)) := by
  induction r generalizing e with
  | nil => exact .inl ⟨⟨nofun, hd⟩, e, rfl, ⟨rfl, rfl, rfl, rfl⟩, rfl⟩
  | cons c r ih =>
    have ih := ih fun c' hc => hs c' (mem_cons_of_mem c hc)
    have hc := (hs c mem_cons_self).ne_max
    rw [forIn_cons]
    rcases Nat.lt_trichotomy c e.n with hlt | heq | hgt
    · have hne : c ≠ e.n := Nat.ne_of_lt hlt
      rw [count_cons_of_ne hne] at hh ht
      simp only [Punycode.pass, hlt, hne, if_true, if_false]
      by_cases hover : e.delta + 1 = 2 ^ 32
      · have hz : u32 (e.delta + 1) = 0 := by rw [hover]; rfl
        refine .inr ⟨not_fits _ _ _ (Nat.le_of_eq hover.symm), e.d, ?_⟩
        simp only [visit, hc, hlt, hz, and_self, if_true, if_false]
        rfl
      · have hfit : u32 (e.delta + 1) = e.delta + 1 := u32_of_lt (by omega)
        have hv : visit de c e = .ok (.yield { e with delta := e.delta + 1 }) := by
          simp [visit, hc, hlt, hfit, hne]
        rw [hv]
        rcases ih { e with delta := e.delta + 1 } (by simp only; omega) hh ht ht' with ⟨hf, e', hrun, hw, hd'⟩ | hbad
        · exact .inl ⟨hf, e', hrun, ⟨hw.n, hw.coder, hw.todo, hw.d⟩, hd'⟩
        · exact .inr hbad
    · rw [heq, count_cons_self] at hh ht
      have hw := writeCodePoint_wrote de hd (by omega) (by omega) ht'
      have hv : visit de c e = .ok (.yield (writeCodePoint de e)) := by
        have hn : e.n ≠ UINT_MAX := heq ▸ hc
        simp [visit, hn, heq]
      have hhandled : (writeCodePoint de e).h = e.h + 1 := u32_of_lt (by omega)
      have hleft : (writeCodePoint de e).todo + 1 = e.todo := hw.todo
      have hn : (writeCodePoint de e).n = e.n := rfl
      have hzero : (writeCodePoint de e).delta = 0 := rfl
      have hpass : Punycode.pass e.n e.delta e.h (c :: r) =
          (e.delta :: (Punycode.pass e.n 0 (e.h + 1) r).1, (Punycode.pass e.n 0 (e.h + 1) r).2) := by
        simp [Punycode.pass, heq]
      have hfits : Fits (Punycode.pass e.n e.delta e.h (c :: r)) ↔ Fits (Punycode.pass e.n 0 (e.h + 1) r) := by
        rw [hpass]
        exact and_congr_left fun _ => by rw [forall_mem_cons]; exact and_iff_right hd
      have ih := ih (writeCodePoint de e) (by rw [hzero]; decide) (by rw [hn, hhandled]; omega) (by rw [hn]; omega) (by omega)
      rw [hhandled] at ih
      rw [hv, hfits]
      rcases ih with ⟨hf, e', hrun, hw', hd'⟩ | hbad
      · exact .inl ⟨hf, e', hrun, by rw [hpass]; exact hw.append hw', by rw [hpass]; exact hd'⟩
      · exact .inr hbad
    · have hne : c ≠ e.n := Nat.ne_of_gt hgt
      have hnlt : ¬c < e.n := Nat.lt_asymm hgt
      rw [count_cons_of_ne hne] at hh ht
      have hv : visit de c e = .ok (.yield e) := by simp [visit, hc, hnlt, hne]
      simp only [Punycode.pass, hnlt, hne, if_false]
      rw [hv]
      exact ih e hd hh ht ht'

/-! ## The rounds -/

/-- The state before a round: what is below `n` is done, the rest is to do. -/
structure Between (cs : List ℕ) (e : Enc) : Prop where
  h : e.h = (cs.filter (· < e.n)).length
  todo : e.todo = (cs.filter (e.n ≤ ·)).length
  delta : e.delta < 2 ^ 32

theorem length_split (cs : List ℕ) (n : ℕ) : (cs.filter (· < n)).length + (cs.filter (n ≤ ·)).length = cs.length := by
  induction cs with
  | nil => rfl
  | cons c cs ih =>
    by_cases hc : c < n
    · simp [hc, Nat.not_le.2 hc, ← ih]; omega
    · simp [hc, Nat.le_of_not_lt hc, ← ih]; omega

theorem length_succ (cs : List ℕ) (m : ℕ) : (cs.filter (m ≤ ·)).length = cs.count m + (cs.filter (m + 1 ≤ ·)).length := by
  induction cs with
  | nil => rfl
  | cons c cs ih =>
    rcases Nat.lt_trichotomy c m with hc | rfl | hc
    · have h1 : ¬m + 1 ≤ c := by omega
      simp only [filter_cons, count_cons_of_ne (Nat.ne_of_lt hc), Nat.not_le.2 hc, h1, decide_false, Bool.false_eq_true,
        if_false, ih]
    · have h1 : ¬c + 1 ≤ c := by omega
      simp only [filter_cons, count_cons_self, le_refl, h1, decide_true, decide_false, Bool.false_eq_true, if_true, if_false,
        length_cons, ih]
      omega
    · have h1 : m + 1 ≤ c := by omega
      simp only [filter_cons, count_cons_of_ne (Nat.ne_of_gt hc), Nat.le_of_lt hc, h1, decide_true, if_true,
        length_cons, ih]
      omega

variable {cs : List ℕ}

/-- **A round** handles the smallest code point left. It ends with what `Punycode.pass` leaves, or fails because one
of the deltas does not fit. -/
theorem round_spec (hs : ∀ c ∈ cs, Scalar c) (hlen : cs.length < 2 ^ 32) (de : ℕ) {e : Enc} (hb : Between cs e)
    (ht : 0 < e.todo) : ∃ m, (cs.filter (e.n ≤ ·)).min? = some m ∧ findMin e.n (cs.flatMap encode) = .ok m ∧
      ∀ p, p = Punycode.pass m (e.delta + (m - e.n) * (e.h + 1)) e.h cs →
        ((∀ d ∈ p.1, d < 2 ^ 32) ∧ ∃ e', round de (cs.flatMap encode) e = .ok e' ∧ Between cs e' ∧ e'.n = m + 1 ∧
          e'.delta = p.2.1 + 1 ∧ e'.coder = e.coder.after p.1 ∧
          e'.d = putAll de e.d ((e.coder.digits p.1).map Punycode.digitCode)) ∨
        ((∃ d ∈ p.1, 2 ^ 32 ≤ d) ∧ ∃ d, round de (cs.flatMap encode) e = .error (.ret UV_E2BIG d)) := by
  have hne : cs.filter (e.n ≤ ·) ≠ [] := ne_nil_of_length_pos (by rw [← hb.todo]; exact ht)
  obtain ⟨m, hm⟩ := Option.isSome_iff_exists.1 (isSome_min?_of_ne_nil hne)
  obtain ⟨hmem, hnm, hmin⟩ := Punycode.filter_lt_of_min hm
  have hfind := findMin_encode hs hm
  refine ⟨m, hm, hfind, ?_⟩
  rintro p rfl
  have hsplit := length_split cs e.n
  have hleft := Punycode.pass_left hmem (e.delta + (m - e.n) * (e.h + 1)) e.h
  have hmlt : m < 2 ^ 32 := by have := (hs m hmem).1; omega
  have hx : u32 (m + 2 ^ 32 - e.n) = m - e.n := by unfold u32; omega
  have hy : u32 (e.h + 1) = e.h + 1 := u32_of_lt (by have := hb.h; have := hb.todo; omega)
  have hdelta := hb.delta
  have hover : (UINT_MAX - e.delta) / (e.h + 1) < m - e.n ↔ 2 ^ 32 ≤ e.delta + (m - e.n) * (e.h + 1) := by
    have hmax : UINT_MAX = 4294967295 := rfl
    rw [Nat.div_lt_iff_lt_mul (show 0 < e.h + 1 by omega)]
    omega
  have hround : round de (cs.flatMap encode) e =
      if (UINT_MAX - e.delta) / (e.h + 1) < m - e.n then .error (.ret UV_E2BIG e.d)
      else (forIn cs { e with delta := u32 (e.delta + u32 ((m - e.n) * (e.h + 1))), n := m } (visit de)).map
        fun e => { e with delta := u32 (e.delta + 1), n := u32 (e.n + 1) } := by
    rw [round, hfind, Except.bind, hx, hy]
    simp [forEach_encode hs]
  rw [hround]
  by_cases ho : 2 ^ 32 ≤ e.delta + (m - e.n) * (e.h + 1)
  · rw [if_pos (hover.2 ho)]
    refine .inr ⟨?_, e.d, rfl⟩
    by_contra hall
    simp only [not_exists, not_and, not_le] at hall
    exact not_fits m e.h cs ho ⟨hall, hleft.trans hlen⟩
  rw [if_neg fun h => ho (hover.1 h), u32_of_lt (show (m - e.n) * (e.h + 1) < 2 ^ 32 by omega), u32_of_lt (Nat.lt_of_not_le ho)]
  have hcount := length_succ cs m
  have hbelow : (cs.filter (· < e.n)).length = (cs.filter (· < m)).length := by rw [Punycode.filter_eq_of_min hm]
  have habove := length_split cs m
  have hnext := length_split cs (m + 1)
  rcases visit_pass de cs hs { e with delta := e.delta + (m - e.n) * (e.h + 1), n := m } (Nat.lt_of_not_le ho)
    (by have := hb.h; simp only; omega) (by have := hb.todo; simp only; omega) (by have := hb.todo; simp only; omega)
    with ⟨hf, e', hrun, hw, hd'⟩ | ⟨hf, d, hrun⟩
  · have hn : u32 (e'.n + 1) = m + 1 := by
      rw [hw.n]
      have := (hs m hmem).1
      exact u32_of_lt (by simp only; omega)
    have hdelta' : u32 (e'.delta + 1) = (Punycode.pass m (e.delta + (m - e.n) * (e.h + 1)) e.h cs).2.1 + 1 := by
      rw [hd']
      exact u32_of_lt (by simp only; omega)
    have hds := (Punycode.pass_handled m (e.delta + (m - e.n) * (e.h + 1)) e.h cs).2
    have hh' : e'.h = e.h + cs.count m := by
      have := congrArg Coder.handled hw.coder
      rw [Punycode.after_handled] at this
      exact this.trans (by rw [hds]; rfl)
    have htodo : e'.todo + cs.count m = e.todo := by have := hw.todo; rwa [hds] at this
    have hh := hb.h
    have ht := hb.todo
    rw [hrun]
    refine .inl ⟨hf.1, _, rfl, ⟨?_, ?_, ?_⟩, hn, ?_, hw.coder, hw.d⟩
    · simp only [hn]; omega
    · simp only [hn]; omega
    · simp only [hdelta']; omega
    · exact hdelta'
  · rw [hrun]
    refine .inr ⟨?_, d, rfl⟩
    by_contra hall
    simp only [not_exists, not_and, not_le] at hall
    exact hf ⟨hall, hleft.trans hlen⟩

theorem rounds_done (de fuel : ℕ) {e : Enc} (hb : Between cs e) (h0 : e.todo = 0) :
    rounds de (cs.flatMap encode) fuel e = .ok e ∧ Punycode.rounds cs e.n e.delta e.h = [] := by
  have hnil : cs.filter (e.n ≤ ·) = [] := length_eq_zero_iff.1 (hb.todo.symm.trans h0)
  refine ⟨?_, Punycode.rounds_none (by rw [hnil]; rfl) _ _⟩
  cases fuel <;> rw [rounds, if_pos h0]

/-- **The rounds write the deltas that are left**, or fail because one of them does not fit. Each round leaves less
to do. -/
theorem rounds_run (hs : ∀ c ∈ cs, Scalar c) (hlen : cs.length < 2 ^ 32) (de fuel : ℕ) {e : Enc} (hb : Between cs e)
    (hfuel : e.todo ≤ fuel) : ∀ ds, ds = Punycode.rounds cs e.n e.delta e.h →
      ((∀ d ∈ ds, d < 2 ^ 32) ∧ ∃ e', rounds de (cs.flatMap encode) fuel e = .ok e' ∧
        e'.d = putAll de e.d ((e.coder.digits ds).map Punycode.digitCode)) ∨
      ((∃ d ∈ ds, 2 ^ 32 ≤ d) ∧ ∃ d, rounds de (cs.flatMap encode) fuel e = .error (.ret UV_E2BIG d)) := by
  rintro ds rfl
  induction fuel generalizing e with
  | zero =>
    obtain ⟨hrun, hnil⟩ := @rounds_done cs de 0 e hb (by omega)
    rw [hrun, hnil]
    exact .inl ⟨nofun, e, rfl, rfl⟩
  | succ fuel ih =>
    by_cases h0 : e.todo = 0
    · obtain ⟨hrun, hnil⟩ := @rounds_done cs de (fuel + 1) e hb h0
      rw [hrun, hnil]
      exact .inl ⟨nofun, e, rfl, rfl⟩
    obtain ⟨m, hm, -, hround⟩ := round_spec hs hlen de hb (Nat.pos_of_ne_zero h0)
    have hrun : rounds de (cs.flatMap encode) (fuel + 1) e =
        (round de (cs.flatMap encode) e).bind (rounds de (cs.flatMap encode) fuel) := by rw [rounds, if_neg h0]
    have hhandled := (Punycode.pass_handled m (e.delta + (m - e.n) * (e.h + 1)) e.h cs).1
    rw [hrun, Punycode.rounds_some hm]
    generalize Punycode.pass m (e.delta + (m - e.n) * (e.h + 1)) e.h cs = p at hround hhandled
    rcases hround p rfl with ⟨hfits, e', hok, hb', hn', hdelta', hcoder', hd'⟩ | ⟨⟨d, hd, hge⟩, d', herr⟩
    · have hh' : e'.h = p.2.2 := by
        rw [hhandled]
        have := congrArg Coder.handled hcoder'
        rwa [Punycode.after_handled] at this
      have hless : e'.todo < e.todo := by
        rw [hb'.todo, hb.todo, hn']
        exact Punycode.left_lt hm
      rw [hok, ← hn', ← hdelta', ← hh']
      rcases ih hb' (by omega) with ⟨hall, e'', hrun', hd''⟩ | ⟨⟨d, hd, hge⟩, d', herr⟩
      · refine .inl ⟨forall_mem_append.2 ⟨hfits, hall⟩, e'', hrun', ?_⟩
        rw [hd'', hcoder', hd', Punycode.digits_append, map_append, putAll_append]
      · exact .inr ⟨⟨d, mem_append_right _ hd, hge⟩, d', herr⟩
    · rw [herr]
      exact .inr ⟨⟨d, mem_append_left _ hd, hge⟩, d', rfl⟩

def Round (de : ℕ) (s : List UInt8) (e e' : Enc) : Prop := 0 < e.todo ∧ round de s e = .ok e'

theorem between_round (hs : ∀ c ∈ cs, Scalar c) (hlen : cs.length < 2 ^ 32) {de : ℕ} {e e' : Enc} (hb : Between cs e)
    (h : Relation.ReflTransGen (Round de (cs.flatMap encode)) e e') : Between cs e' := by
  induction h with
  | refl => exact hb
  | tail _ hstep ih =>
    obtain ⟨ht, hr⟩ := hstep
    obtain ⟨m, -, -, hround⟩ := round_spec hs hlen de ih ht
    rcases hround _ rfl with ⟨-, e₁, hok, hb', -⟩ | ⟨-, d, herr⟩
    · rw [hr] at hok
      cases hok
      exact hb'
    · rw [hr] at herr
      cases herr

/-! ## The label -/

def prefixCodes : List ℕ := "xn--".toList.map Char.toNat

/-- Before the rounds: the prefix, the ASCII characters and the delimiter are written. Both counts have room. -/
theorem enter_counts (hs : ∀ c ∈ cs, Scalar c) (hh : (cs.filter (· < 128)).length < 2 ^ 32)
    (htodo : (cs.filter (128 ≤ ·)).length < 2 ^ 32) (hne : ∃ c ∈ cs, 128 ≤ c) (de : ℕ) (d : List UInt8) :
    enter de (cs.flatMap encode) d = .ok ⟨128, (cs.filter (· < 128)).length, (cs.filter (128 ≤ ·)).length, 72, 0, true,
      putAll de d (prefixCodes ++ (Punycode.basic cs ++ if Punycode.basic cs = [] then [] else [45]))⟩ := by
  obtain ⟨x, hascii⟩ := writeAscii_encode hs rfl hh de (putAll de d prefixCodes)
  obtain ⟨c, hc, h128⟩ := hne
  have hpos : 0 < (cs.filter (128 ≤ ·)).length :=
    length_pos_of_mem (mem_filter.2 ⟨hc, by simpa using h128⟩)
  have hascii : writeAscii (cs.filter (· < 128)).length de (cs.flatMap encode) (("xn--".toList.map Char.toNat).foldl (put de) d) =
    .ok (x, putAll de (putAll de d prefixCodes) (Punycode.basic cs)) := hascii
  unfold enter
  rw [count_encode hs, u32_of_lt hh, u32_of_lt htodo]
  simp only [Except.bind, hpos, if_true, hascii, Nat.ne_of_gt hpos, if_false]
  rw [putAll_append, putAll_append]
  by_cases hb : Punycode.basic cs = []
  · have h0 : ¬0 < (cs.filter (· < 128)).length := by rw [← Punycode.basic, hb]; decide
    rw [if_neg h0, if_pos hb]
    rfl
  · have h0 : 0 < (cs.filter (· < 128)).length := length_pos_iff.2 hb
    rw [if_pos h0, if_neg hb]
    rfl

theorem enter_encode (hs : ∀ c ∈ cs, Scalar c) (hlen : cs.length < 2 ^ 32) (hne : ∃ c ∈ cs, 128 ≤ c) (de : ℕ) (d : List UInt8) :
    ∃ e, enter de (cs.flatMap encode) d = .ok e ∧ Between cs e ∧ e.n = 128 ∧ e.delta = 0 ∧
      e.coder = ⟨(Punycode.basic cs).length, 72, true⟩ ∧
      e.d = putAll de d (prefixCodes ++ (Punycode.basic cs ++ if Punycode.basic cs = [] then [] else [45])) := by
  have hsplit := length_split cs 128
  exact ⟨_, enter_counts hs (by omega) (by omega) hne de d, ⟨rfl, rfl, Nat.two_pow_pos 32⟩, rfl, rfl, rfl, rfl⟩

theorem encode_ascii (h : ∀ c ∈ cs, c < 128) : cs.flatMap encode = cs.map UInt8.ofNat := by
  induction cs with
  | nil => rfl
  | cons c cs ih =>
    have hc : c ≤ 0x7F := Nat.le_of_lt_succ (h c mem_cons_self)
    rw [flatMap_cons, ih fun c' hc' => h c' (mem_cons_of_mem c hc'), encode, if_pos hc]
    rfl

theorem enter_ascii (hlen : cs.length < 2 ^ 32) (hall : ∀ c ∈ cs, c < 128) (de : ℕ) (d : List UInt8) :
    enter de (cs.flatMap encode) d =
      .error (.ret (toInt cs.length) (d ++ (cs.flatMap encode).take (de - d.length))) := by
  have hs : ∀ c ∈ cs, Scalar c := fun c hc => by
    have := hall c hc
    exact ⟨by omega, by omega⟩
  have hself : cs.filter (· < 128) = cs := filter_eq_self.2 fun c hc => by simpa using hall c hc
  have hnone : cs.filter (128 ≤ ·) = [] := filter_eq_nil_iff.2 fun c hc => by simpa using hall c hc
  obtain ⟨x, hascii⟩ := writeAscii_encode hs rfl (by rwa [hself]) de d
  have hcount := count_encode hs d
  rw [hself] at hascii hcount
  rw [hnone, u32_of_lt hlen] at hcount
  have h0 : u32 ([] : List ℕ).length = 0 := rfl
  unfold enter
  rw [hcount, h0]
  simp only [Except.bind, Nat.lt_irrefl, if_false, if_true, hascii]
  rw [putAll_eq, encode_ascii hall]

theorem label_ascii (hlen : cs.length < 2 ^ 32) (hall : ∀ c ∈ cs, c < 128) (de : ℕ) (d : List UInt8) (fuel : ℕ) :
    toasciiLabel fuel de (cs.flatMap encode) d = .ret (toInt cs.length) (d ++ (cs.flatMap encode).take (de - d.length)) := by
  rw [toasciiLabel, enter_ascii hlen hall]
  rfl

theorem label_spec (hs : ∀ c ∈ cs, Scalar c) (hlen : cs.length < 2 ^ 32) (hne : ∃ c ∈ cs, 128 ≤ c) (de : ℕ) (d : List UInt8)
    {fuel : ℕ} (hfuel : cs.length ≤ fuel) :
    ((∀ delta ∈ Punycode.deltas cs, delta < 2 ^ 32) ∧ toasciiLabel fuel de (cs.flatMap encode) d =
      .ret 0 (d ++ ((prefixCodes ++ Punycode.encode cs).map UInt8.ofNat).take (de - d.length))) ∨
    ((∃ delta ∈ Punycode.deltas cs, 2 ^ 32 ≤ delta) ∧ ∃ d', toasciiLabel fuel de (cs.flatMap encode) d = .ret UV_E2BIG d') := by
  obtain ⟨e, henter, hb, hn, hdelta, hcoder, hd⟩ := enter_encode hs hlen hne de d
  have hh : e.h = (Punycode.basic cs).length := congrArg Coder.handled hcoder
  have hds : Punycode.deltas cs = Punycode.rounds cs e.n e.delta e.h := by rw [hn, hdelta, hh]; rfl
  have htodo : e.todo ≤ fuel := by
    rw [hb.todo]
    exact (length_filter_le _ _).trans hfuel
  unfold toasciiLabel
  rw [henter]
  rcases rounds_run hs hlen de fuel hb htodo _ hds with ⟨hall, e', hrun, hd'⟩ | ⟨hbig, d', hrun⟩
  · refine .inl ⟨hall, ?_⟩
    rw [Except.bind, hrun]
    have hout : e'.d = putAll de d (prefixCodes ++ Punycode.encode cs) := by
      rw [hd', hd, hcoder, ← putAll_append]
      rfl
    simp [hout, putAll_eq]
  · refine .inr ⟨hbig, d', ?_⟩
    rw [Except.bind, hrun]

theorem label_wraps (hs : ∀ c ∈ cs, Scalar c) (hnone : cs.filter (· < 128) = []) (hlen : u32 cs.length = 0) (fuel de : ℕ)
    (d : List UInt8) : toasciiLabel fuel de (cs.flatMap encode) d = .ret 0 d := by
  have hself : cs.filter (128 ≤ ·) = cs := filter_eq_self.2 fun c hc => by
    simpa using filter_eq_nil_iff.1 hnone c hc
  have hcount := count_encode hs d
  have h0 : u32 ([] : List ℕ).length = 0 := rfl
  obtain ⟨x, hascii⟩ := writeAscii_encode hs rfl (by rw [hnone]; exact Nat.two_pow_pos 32) de d
  rw [hnone] at hcount hascii
  rw [hself, hlen, h0] at hcount
  rw [length_nil] at hascii
  unfold toasciiLabel enter
  rw [hcount]
  simp only [Except.bind, Nat.lt_irrefl, if_false, if_true, hascii]
  rfl

/-- **`uv__idna_toascii_label` is the encoder of RFC 3492** on every label that is the UTF-8 encoding of fewer than
2^32 code points. It appends, as far as there is room, an all-ASCII label as it is, and otherwise `xn--` and the
Punycode of the code points, which the decoder reads as the code points; it fails, with `UV_E2BIG`, exactly where one of
the deltas is 2^32 or more. No assertion fails, and every round finds the smallest code point that is left. -/
theorem toascii_label (cs : List ℕ) (hs : ∀ c ∈ cs, Scalar c) (hlen : cs.length < 2 ^ 32) (d : List UInt8) (de fuel : ℕ)
    (hfuel : cs.length ≤ fuel) :
    ((∀ c ∈ cs, c < 128) → toasciiLabel fuel de (cs.flatMap encode) d =
      .ret (toInt cs.length) (d ++ (cs.flatMap encode).take (de - d.length))) ∧ ((∃ c ∈ cs, 128 ≤ c) →
      ((∀ delta ∈ Punycode.deltas cs, delta < 2 ^ 32) → toasciiLabel fuel de (cs.flatMap encode) d =
        .ret 0 (d ++ ((prefixCodes ++ Punycode.encode cs).map UInt8.ofNat).take (de - d.length))) ∧
      ((∃ delta ∈ Punycode.deltas cs, 2 ^ 32 ≤ delta) → ∃ d', toasciiLabel fuel de (cs.flatMap encode) d = .ret UV_E2BIG d')) ∧
    Punycode.decode (Punycode.encode cs) = some cs ∧
    ∀ e e', enter de (cs.flatMap encode) d = .ok e → Relation.ReflTransGen (Round de (cs.flatMap encode)) e e' → 0 < e'.todo →
      ∃ m, findMin e'.n (cs.flatMap encode) = .ok m ∧ m ∈ cs ∧ e'.n ≤ m ∧ ∀ c ∈ cs, e'.n ≤ c → m ≤ c := by
  refine ⟨fun hall => ?_, fun hne => ⟨fun hfit => ?_, fun ⟨delta, hmem, hge⟩ => ?_⟩, Punycode.decode_encode cs, ?_⟩
  · exact label_ascii hlen hall de d fuel
  · rcases label_spec hs hlen hne de d hfuel with ⟨-, hret⟩ | ⟨⟨delta, hmem, hge⟩, -⟩
    · exact hret
    · exact absurd (hfit delta hmem) (Nat.not_lt.2 hge)
  · rcases label_spec hs hlen hne de d hfuel with ⟨hall, -⟩ | ⟨-, hret⟩
    · exact absurd (hall delta hmem) (Nat.not_lt.2 hge)
    · exact hret
  · intro e e' henter hreach ht
    by_cases hne : ∃ c ∈ cs, 128 ≤ c
    · obtain ⟨e₀, he₀, hb, -⟩ := enter_encode hs hlen hne de d
      rw [henter] at he₀
      cases he₀
      obtain ⟨m, hm, hfind, -⟩ := round_spec hs hlen de (between_round hs hlen hb hreach) ht
      exact ⟨m, hfind, Punycode.filter_lt_of_min hm⟩
    · have hall : ∀ c ∈ cs, c < 128 := fun c hc => Nat.lt_of_not_le fun h => hne ⟨c, hc, h⟩
      rw [enter_ascii hlen hall] at henter
      cases henter

/-- `ü` becomes `xn--tda`. -/
theorem toascii_label_tda :
    toasciiLabel 1 63 [0xC3, 0xBC] [] = .ret 0 ("xn--tda".toList.map fun ch => UInt8.ofNat ch.toNat) := by
  have hs : ∀ c ∈ [0xFC], Scalar c := by simp [Scalar]
  have hdeltas : Punycode.deltas [0xFC] = [124] := by
    have h1 : ([0xFC].filter (128 ≤ ·)).min? = some 0xFC := by decide
    have h2 : ([0xFC].filter (0xFD ≤ ·)).min? = none := by decide
    rw [Punycode.deltas, Punycode.rounds_some h1, Punycode.rounds_none h2]
    decide
  have hvarint : Punycode.varint 72 36 124 = [19, 3, 0] := by
    rw [Punycode.varint, Punycode.varint, Punycode.varint]
    decide
  have hencode : Punycode.encode [0xFC] = [116, 100, 97] := by
    simp [Punycode.encode, hdeltas, Punycode.basic, Coder.digits, hvarint, Punycode.digitCode]
  have hlabel := ((toascii_label [0xFC] hs (by decide) [] 63 1 (by decide)).2.1 ⟨0xFC, by decide, by decide⟩).1
    (by rw [hdeltas]; decide)
  rw [hencode] at hlabel
  exact hlabel

/-- **The counters of longer labels wrap around.** 2^32 times U+0080 is taken for no code point at all, and nothing is
written. The length of an ASCII label is returned as an `int`: 2^32 - 7 is `UV_E2BIG`. -/
theorem toascii_label_long :
    ¬(∀ cs : List ℕ, (∀ c ∈ cs, Scalar c) → (∃ c ∈ cs, 128 ≤ c) →
      toasciiLabel cs.length 100 (cs.flatMap encode) [] = .ret 0 (((prefixCodes ++ Punycode.encode cs).map UInt8.ofNat).take 100) ∨
      ∃ d', toasciiLabel cs.length 100 (cs.flatMap encode) [] = .ret UV_E2BIG d') ∧
    ¬(∀ cs : List ℕ, (∀ c ∈ cs, Scalar c) → ∀ d', toasciiLabel cs.length 100 (cs.flatMap encode) [] = .ret UV_E2BIG d' →
      ∃ delta ∈ Punycode.deltas cs, 2 ^ 32 ≤ delta) := by
  constructor
  · intro hall
    obtain ⟨cs, hlen, hmem⟩ : ∃ cs : List ℕ, cs.length = 2 ^ 32 ∧ ∀ c ∈ cs, c = 0x80 :=
      ⟨List.replicate (2 ^ 32) 0x80, length_replicate, fun c hc => (mem_replicate.1 hc).2⟩
    have hs : ∀ c ∈ cs, Scalar c := fun c hc => by rw [hmem c hc]; exact ⟨by decide, by decide⟩
    have hnone : cs.filter (· < 128) = [] := filter_eq_nil_iff.2 fun c hc => by rw [hmem c hc]; decide
    have hzero : u32 cs.length = 0 := by rw [hlen, u32, Nat.mod_self]
    have hne : cs ≠ [] := ne_nil_of_length_pos (by rw [hlen]; exact Nat.two_pow_pos 32)
    obtain ⟨c, hc⟩ := exists_mem_of_ne_nil cs hne
    rcases hall cs hs ⟨c, hc, by rw [hmem c hc]⟩ with h | ⟨d', h⟩
    · rw [label_wraps hs hnone hzero, prefixCodes] at h
      simp at h
    · rw [label_wraps hs hnone hzero] at h
      simp [UV_E2BIG] at h
  · intro hall
    obtain ⟨cs, hlen, hmem⟩ : ∃ cs : List ℕ, cs.length = 2 ^ 32 - 7 ∧ ∀ c ∈ cs, c = 97 :=
      ⟨List.replicate (2 ^ 32 - 7) 97, length_replicate, fun c hc => (mem_replicate.1 hc).2⟩
    have hs : ∀ c ∈ cs, Scalar c := fun c hc => by rw [hmem c hc]; exact ⟨by decide, by decide⟩
    have hascii : ∀ c ∈ cs, c < 128 := fun c hc => by rw [hmem c hc]; decide
    have hnil : Punycode.deltas cs = [] := by
      refine Punycode.rounds_none ?_ _ _
      rw [filter_eq_nil_iff.2 fun c hc => by rw [hmem c hc]; decide]
      rfl
    have hret := enter_ascii (by rw [hlen]; norm_num) hascii 100 []
    rw [hlen] at hret
    obtain ⟨delta, hd, -⟩ := hall cs hs _ (by rw [toasciiLabel, hret]; rfl)
    rw [hnil] at hd
    cases hd

end Libuv.L1.Idna
