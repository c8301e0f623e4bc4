import Mathlib.Tactic

/-!
# UTF-8 decoding (`idna.c`)

`uv__utf8_decode1` reads one code point from the bytes between `*p` and `pe`: a list, of
which it returns the rest with the code point. `unsigned` values stay far below 2^32 and
are natural numbers; `(unsigned) -1` is `UINT_MAX`.

`encode` is the table of RFC 3629, section 3, and `Correct` says that the decoder accepts
a list of bytes exactly where it begins with the encoding of a scalar value, and returns
that value and what follows the encoding.

* `decode1_correct_iff`: it does, except on `Fooled` inputs, which it accepts although they
  are malformed.
* `decode1_fooled`: `E1 00 00` is one.
-/
namespace Libuv.L1.Idna

open List

def UINT_MAX : ℕ := 2 ^ 32 - 1

/-! ## The decoder -/

/-- What follows the `switch`.
mirrors idna.c:69-89 -/
def checkSequence (min a b c d : ℕ) : ℕ :=
  if 0x80 ≠ 0xC0 &&& (b ^^^ c ^^^ d) then UINT_MAX
  else
    let b := b &&& 63
    let c := c &&& 63
    let d := d &&& 63
    let a := (a <<< 18) ||| (b <<< 12) ||| (c <<< 6) ||| d
    if a < min then UINT_MAX
    else if 0x10FFFF < a then UINT_MAX
    else if 0xD800 ≤ a ∧ a ≤ 0xDFFF then UINT_MAX
    else a

/-- `case 1`, with the byte that is there and what follows it; falls through to `case 0`.
mirrors idna.c:56-66 -/
def case1 (a : ℕ) (d : UInt8) (p : List UInt8) : ℕ × List UInt8 :=
  if 0xBF < a then (checkSequence 0x80 0 0x80 (0x80 ||| (a &&& 31)) d.toNat, p) else (UINT_MAX, d :: p)

/-- `case 2`; falls through to `case 1`.
mirrors idna.c:46-55 -/
def case2 (a : ℕ) (c d : UInt8) (p : List UInt8) : ℕ × List UInt8 :=
  if 0xDF < a then (checkSequence 0x800 0 (0x80 ||| (a &&& 15)) c.toNat d.toNat, p) else case1 a c (d :: p)

/-- `default`; falls through to `case 2`.
mirrors idna.c:36-45 -/
def case3 (a : ℕ) (b c d : UInt8) (p : List UInt8) : ℕ × List UInt8 :=
  if 0xEF < a then (checkSequence 0x10000 (a &&& 7) b.toNat c.toNat d.toNat, p) else case2 a b c (d :: p)

/-- mirrors idna.c:26-90 -/
def utf8Decode1Slow (p : List UInt8) (a : ℕ) : ℕ × List UInt8 :=
  if 0xF7 < a then (UINT_MAX, p)
  else
    match p with
    | [] => (UINT_MAX, p)
    | [d] => case1 a d []
    | [c, d] => case2 a c d []
    | b :: c :: d :: p => case3 a b c d p

/-- mirrors idna.c:92-103; `*p < pe` is asserted. -/
def utf8Decode1 : List UInt8 → ℕ × List UInt8
  | [] => (UINT_MAX, [])
  | a :: p => if a.toNat < 128 then (a.toNat, p) else utf8Decode1Slow p a.toNat

/-! ## UTF-8 -/

def Scalar (c : ℕ) : Prop := c ≤ 0x10FFFF ∧ ¬ (0xD800 ≤ c ∧ c ≤ 0xDFFF)

def encode (c : ℕ) : List UInt8 :=
  if c ≤ 0x7F then [.ofNat c]
  else if c ≤ 0x7FF then [.ofNat (0xC0 + c / 64), .ofNat (0x80 + c % 64)]
  else if c ≤ 0xFFFF then [.ofNat (0xE0 + c / 4096), .ofNat (0x80 + c / 64 % 64), .ofNat (0x80 + c % 64)]
  else [.ofNat (0xF0 + c / 262144), .ofNat (0x80 + c / 4096 % 64), .ofNat (0x80 + c / 64 % 64), .ofNat (0x80 + c % 64)]

theorem encode_ne_nil (c : ℕ) : encode c ≠ [] := by
  unfold encode
  split_ifs <;> exact cons_ne_nil _ _

/-- `bs` begins with the encoding of the scalar value `c`, and `p` follows it. -/
def Begins (bs : List UInt8) (c : ℕ) (p : List UInt8) : Prop := Scalar c ∧ bs = encode c ++ p

/-- The decoder accepts what it should, and nothing else. -/
def Correct (bs : List UInt8) : Prop := ∀ c p, utf8Decode1 bs = (c, p) ∧ c ≠ UINT_MAX ↔ Begins bs c p

def top (b : UInt8) : ℕ := b.toNat / 64

def codePoint (a b c d : ℕ) : ℕ := a * 262144 + b % 64 * 4096 + c % 64 * 64 + d % 64

/-- Neither overlong nor too large nor a surrogate. -/
def Allowed (min c : ℕ) : Prop := min ≤ c ∧ Scalar c

/-- The malformed inputs that are let through: a lead byte of a longer sequence than there
are bytes left is taken for one of a shorter sequence, and continuation bytes that are not
of the form `10xxxxxx` cancel out in the exclusive or. -/
def Fooled : List UInt8 → Prop
  | [a, d] => 0xE0 ≤ a.toNat ∧ a.toNat ≤ 0xF7 ∧ top d = 2 ∧ 0x80 ≤ codePoint 0 0 (a.toNat % 32) d.toNat
  | a :: c :: d :: p =>
    0xE0 ≤ a.toNat ∧ a.toNat ≤ 0xEF ∧ top c = top d ∧ top d ≠ 2 ∧
        Allowed 0x800 (codePoint 0 (a.toNat % 16) c.toNat d.toNat) ∨ 0xF0 ≤ a.toNat ∧ a.toNat ≤ 0xF7 ∧ match p with
        | [] => top c = top d ∧ Allowed 0x800 (codePoint 0 (a.toNat % 16) c.toNat d.toNat)
        | e :: _ => top c ^^^ top d ^^^ top e = 2 ∧ ¬ (top c = 2 ∧ top d = 2 ∧ top e = 2) ∧
          Allowed 0x10000 (codePoint (a.toNat % 8) c.toNat d.toNat e.toNat)
  | _ => False

/-! ## The checks of a sequence -/

theorem and_top {b : ℕ} (hb : b < 256) : 0xC0 &&& b = 64 * (b / 64) := by
  have key : ∀ b : Fin 256, 0xC0 &&& b.val = 64 * (b.val / 64) := by decide +kernel
  exact key ⟨b, hb⟩

theorem xor_top {b c d : ℕ} (hb : b < 256) (hc : c < 256) (hd : d < 256) :
    0x80 = 0xC0 &&& (b ^^^ c ^^^ d) ↔ (b / 64) ^^^ (c / 64) ^^^ (d / 64) = 2 := by
  rw [Nat.and_xor_distrib_left, Nat.and_xor_distrib_left, and_top hb, and_top hc, and_top hd]
  have key : ∀ b c d : Fin 4, 128 = 64 * b.val ^^^ 64 * c.val ^^^ 64 * d.val ↔ b.val ^^^ c.val ^^^ d.val = 2 := by
    decide
  exact key ⟨b / 64, by omega⟩ ⟨c / 64, by omega⟩ ⟨d / 64, by omega⟩

theorem or_eq_codePoint (a b c d : ℕ) :
    (a <<< 18) ||| ((b &&& 63) <<< 12) ||| ((c &&& 63) <<< 6) ||| (d &&& 63) = codePoint a b c d := by
  have h63 : ∀ x : ℕ, x &&& 63 = x % 64 := fun x => Nat.and_two_pow_sub_one_eq_mod x 6
  rw [h63, h63, h63]
  have h1 : (a <<< 18) ||| ((b % 64) <<< 12) = (a * 64 + b % 64) <<< 12 := by
    rw [← Nat.shiftLeft_add_eq_or_of_lt (by rw [Nat.shiftLeft_eq]; omega)]
    omega
  have h2 : ((a * 64 + b % 64) <<< 12) ||| ((c % 64) <<< 6) = ((a * 64 + b % 64) * 64 + c % 64) <<< 6 := by
    rw [← Nat.shiftLeft_add_eq_or_of_lt (by rw [Nat.shiftLeft_eq]; omega)]
    omega
  rw [h1, h2, ← Nat.shiftLeft_add_eq_or_of_lt (by omega)]
  unfold codePoint
  omega

theorem max_rejected {v : ℕ} {P : Prop} (h : ¬ P) : UINT_MAX = v ∧ v ≠ UINT_MAX ↔ P :=
  iff_of_false (fun hv => hv.2 hv.1.symm) h

theorem checkSequence_ok {min a b c d v : ℕ} (ha : a < 8) (hb : b < 256) (hc : c < 256) (hd : d < 256) :
    checkSequence min a b c d = v ∧ v ≠ UINT_MAX ↔
      (b / 64) ^^^ (c / 64) ^^^ (d / 64) = 2 ∧ v = codePoint a b c d ∧ Allowed min v := by
  have hlt : codePoint a b c d < UINT_MAX := by
    unfold codePoint UINT_MAX
    omega
  unfold checkSequence
  simp only [ne_eq, xor_top hb hc hd, or_eq_codePoint, ite_not]
  split
  · next h =>
    split
    · apply max_rejected
      intro ⟨_, hv, hmin, _⟩
      omega
    · split
      · apply max_rejected
        intro ⟨_, hv, _, hs, _⟩
        omega
      · split
        · next hs =>
          apply max_rejected
          intro ⟨_, hv, _, _, hn⟩
          rw [hv] at hn
          exact hn hs
        · next hs =>
          refine ⟨fun ⟨hv, _⟩ => ?_, fun ⟨_, hv, _⟩ => ⟨hv.symm, by omega⟩⟩
          rw [← hv]
          exact ⟨h, rfl, by omega, by omega, hs⟩
  · next h =>
    apply max_rejected
    intro h'
    exact h h'.1

/-! ## What the decoder accepts -/

theorem or_low (a k : ℕ) (hk : k ≤ 6) : 0x80 ||| (a &&& (2 ^ k - 1)) = 128 + a % 2 ^ k := by
  have h7 : a % 2 ^ k < 2 ^ 7 :=
    (Nat.mod_lt _ (Nat.two_pow_pos k)).trans_le (Nat.pow_le_pow_right (by decide) (by omega))
  rw [Nat.and_two_pow_sub_one_eq_mod]
  exact (Nat.two_pow_add_eq_or_of_lt h7 1).symm

section Accepted
variable {a min x y z : ℕ} {b c' d : UInt8} {p q : List UInt8} {c : ℕ}

theorem rejected : (UINT_MAX, q) = (c, p) ∧ c ≠ UINT_MAX ↔ False := by
  simp only [Prod.mk.injEq, ne_eq, iff_false, not_and, not_not]
  exact fun h => h.1.symm

theorem accepted (ha : a < 8) (hx : x < 256) (hy : y < 256) (hz : z < 256) :
    (checkSequence min a x y z, q) = (c, p) ∧ c ≠ UINT_MAX ↔
      (x / 64) ^^^ (y / 64) ^^^ (z / 64) = 2 ∧ c = codePoint a x y z ∧ Allowed min c ∧ p = q := by
  rw [Prod.mk.injEq]
  constructor
  · rintro ⟨⟨h, rfl⟩, hne⟩
    obtain ⟨h1, h2, h3⟩ := (checkSequence_ok ha hx hy hz).1 ⟨h, hne⟩
    exact ⟨h1, h2, h3, rfl⟩
  · rintro ⟨h1, h2, h3, rfl⟩
    obtain ⟨h, hne⟩ := (checkSequence_ok ha hx hy hz).2 ⟨h1, h2, h3⟩
    exact ⟨⟨h, rfl⟩, hne⟩

theorem case1_ok : case1 a d q = (c, p) ∧ c ≠ UINT_MAX ↔
    0xBF < a ∧ top d = 2 ∧ c = codePoint 0 0 (a % 32) d.toNat ∧ 0x80 ≤ c ∧ p = q := by
  have hd := d.toNat_lt
  have hor : 0x80 ||| (a &&& 31) = 128 + a % 32 := or_low a 5 (by decide)
  have hx : 2 ^^^ 2 ^^^ top d = top d := by simp
  unfold case1
  split
  · next ha =>
    rw [hor, accepted (by decide) (by decide) (by omega) hd]
    have h2 : (128 + a % 32) / 64 = 2 := by omega
    have h3 : codePoint 0 0x80 (128 + a % 32) d.toNat = codePoint 0 0 (a % 32) d.toNat := by
      unfold codePoint
      omega
    have h4 : codePoint 0 0 (a % 32) d.toNat < 0x800 := by
      unfold codePoint
      omega
    rw [h2, h3, show d.toNat / 64 = top d from rfl, hx]
    constructor
    · exact fun ⟨h1, h2, h3, h4⟩ => ⟨ha, h1, h2, h3.1, h4⟩
    · exact fun ⟨_, h1, h2, h3, h4'⟩ => ⟨h1, h2, ⟨h3, by omega, by omega⟩, h4'⟩
  · next ha => rw [rejected]; exact ⟨False.elim, fun h => ha h.1⟩

theorem case2_ok (ha : 0xDF < a) : case2 a c' d q = (c, p) ∧ c ≠ UINT_MAX ↔
    top c' = top d ∧ c = codePoint 0 (a % 16) c'.toNat d.toNat ∧ Allowed 0x800 c ∧ p = q := by
  have hor : 0x80 ||| (a &&& 15) = 128 + a % 16 := or_low a 4 (by decide)
  have hx : ∀ y z : Fin 4, 2 ^^^ y.val ^^^ z.val = 2 ↔ y.val = z.val := by decide
  unfold case2
  rw [if_pos ha, hor, accepted (by decide) (by omega) c'.toNat_lt d.toNat_lt]
  have h1 : (128 + a % 16) / 64 = 2 := by omega
  have h2 : codePoint 0 (128 + a % 16) c'.toNat d.toNat = codePoint 0 (a % 16) c'.toNat d.toNat := by
    unfold codePoint
    omega
  have h3 := hx ⟨c'.toNat / 64, by have := c'.toNat_lt; omega⟩ ⟨d.toNat / 64, by have := d.toNat_lt; omega⟩
  rw [h1, h2, h3]
  rfl

theorem case3_ok (ha : 0xEF < a) : case3 a b c' d q = (c, p) ∧ c ≠ UINT_MAX ↔
    top b ^^^ top c' ^^^ top d = 2 ∧ c = codePoint (a % 8) b.toNat c'.toNat d.toNat ∧ Allowed 0x10000 c ∧ p = q := by
  have hand : a &&& 7 = a % 8 := Nat.and_two_pow_sub_one_eq_mod a 3
  unfold case3
  rw [if_pos ha, hand, accepted (by omega) b.toNat_lt c'.toNat_lt d.toNat_lt]
  rfl

end Accepted

/-! ## What it should accept -/

section Begins
variable {a : UInt8} {p q : List UInt8} {c : ℕ}

theorem ofNat_eq_iff {b : UInt8} {n : ℕ} (hn : n < 256) : b = .ofNat n ↔ b.toNat = n := by
  rw [← UInt8.toNat_inj, UInt8.toNat_ofNat', Nat.mod_eq_of_lt hn]

theorem begins_iff : Begins (a :: q) c p ↔ a.toNat < 128 ∧ c = a.toNat ∧ p = q ∨
    (0xC0 ≤ a.toNat ∧ a.toNat ≤ 0xDF ∧ ∃ d, q = d :: p ∧ top d = 2 ∧ c = codePoint 0 0 (a.toNat % 32) d.toNat ∧
      0x80 ≤ c) ∨ (0xE0 ≤ a.toNat ∧ a.toNat ≤ 0xEF ∧ ∃ c' d, q = c' :: d :: p ∧ (top c' = 2 ∧ top d = 2) ∧
      c = codePoint 0 (a.toNat % 16) c'.toNat d.toNat ∧ Allowed 0x800 c) ∨
    (0xF0 ≤ a.toNat ∧ a.toNat ≤ 0xF7 ∧ ∃ b c' d, q = b :: c' :: d :: p ∧ (top b = 2 ∧ top c' = 2 ∧ top d = 2) ∧
      c = codePoint (a.toNat % 8) b.toNat c'.toNat d.toNat ∧ Allowed 0x10000 c) := by
  unfold Begins Allowed top codePoint
  constructor
  · intro h
    obtain ⟨hs, he⟩ := h
    have hs' := hs
    have hcont : ∀ n : ℕ, (UInt8.ofNat (0x80 + n % 64)).toNat = 0x80 + n % 64 := fun n =>
      (ofNat_eq_iff (by omega)).1 rfl
    unfold Scalar at hs'
    unfold encode at he
    split at he
    · simp only [cons_append, nil_append, List.cons.injEq] at he
      obtain ⟨h1, rfl⟩ := he
      rw [ofNat_eq_iff (by omega)] at h1
      exact .inl ⟨by omega, h1.symm, rfl⟩
    · split at he
      · simp only [cons_append, nil_append, List.cons.injEq] at he
        obtain ⟨h1, he⟩ := he
        rw [ofNat_eq_iff (by omega)] at h1
        refine .inr (.inl ⟨by omega, by omega, _, he, ?_⟩)
        rw [hcont c]
        omega
      · split at he
        · simp only [cons_append, nil_append, List.cons.injEq] at he
          obtain ⟨h1, he⟩ := he
          rw [ofNat_eq_iff (by omega)] at h1
          refine .inr (.inr (.inl ⟨by omega, by omega, _, _, he, ?_⟩))
          rw [hcont (c / 64), hcont c]
          exact ⟨by omega, by omega, by omega, hs⟩
        · simp only [cons_append, nil_append, List.cons.injEq] at he
          obtain ⟨h1, he⟩ := he
          rw [ofNat_eq_iff (by omega)] at h1
          refine .inr (.inr (.inr ⟨by omega, by omega, _, _, _, he, ?_⟩))
          rw [hcont (c / 4096), hcont (c / 64), hcont c]
          exact ⟨by omega, by omega, by omega, hs⟩
  · intro h
    rcases h with ⟨h1, rfl, rfl⟩ | ⟨h1, h2, d, rfl, h3, h4, h5⟩ | ⟨h1, h2, c', d, rfl, h3, h4, h5, hs⟩ |
      ⟨h1, h2, b, c', d, rfl, h3, h4, h5, hs⟩
    · refine ⟨⟨by omega, by omega⟩, ?_⟩
      unfold encode
      rw [if_pos (by omega)]
      simp
    · refine ⟨⟨by omega, by omega⟩, ?_⟩
      unfold encode
      rw [if_neg (by omega), if_pos (by omega)]
      simp only [cons_append, nil_append, List.cons.injEq, and_true]
      rw [ofNat_eq_iff (by omega), ofNat_eq_iff (by omega)]
      omega
    · refine ⟨hs, ?_⟩
      unfold encode
      rw [if_neg (by omega), if_neg (by omega), if_pos (by omega)]
      simp only [cons_append, nil_append, List.cons.injEq, and_true]
      rw [ofNat_eq_iff (by omega), ofNat_eq_iff (by omega), ofNat_eq_iff (by omega)]
      omega
    · refine ⟨hs, ?_⟩
      unfold encode
      rw [if_neg (by omega), if_neg (by omega), if_neg (by omega)]
      simp only [cons_append, nil_append, List.cons.injEq, and_true]
      rw [ofNat_eq_iff (by omega), ofNat_eq_iff (by omega), ofNat_eq_iff (by omega), ofNat_eq_iff (by omega)]
      omega

theorem begins_two (h1 : 0xC0 ≤ a.toNat) (h2 : a.toNat ≤ 0xDF) : Begins (a :: q) c p ↔
    ∃ d, q = d :: p ∧ top d = 2 ∧ c = codePoint 0 0 (a.toNat % 32) d.toNat ∧ 0x80 ≤ c := by
  rw [begins_iff]
  refine ⟨fun h => ?_, fun h => .inr (.inl ⟨h1, h2, h⟩)⟩
  rcases h with h | h | h | h
  · exact absurd h.1 (by omega)
  · exact h.2.2
  · exact absurd h.1 (by omega)
  · exact absurd h.1 (by omega)

theorem begins_three (h1 : 0xE0 ≤ a.toNat) (h2 : a.toNat ≤ 0xEF) : Begins (a :: q) c p ↔
    ∃ c' d, q = c' :: d :: p ∧ (top c' = 2 ∧ top d = 2) ∧ c = codePoint 0 (a.toNat % 16) c'.toNat d.toNat ∧
      Allowed 0x800 c := by
  rw [begins_iff]
  refine ⟨fun h => ?_, fun h => .inr (.inr (.inl ⟨h1, h2, h⟩))⟩
  rcases h with h | h | h | h
  · exact absurd h.1 (by omega)
  · exact absurd h.2.1 (by omega)
  · exact h.2.2
  · exact absurd h.1 (by omega)

theorem begins_four (h1 : 0xF0 ≤ a.toNat) (h2 : a.toNat ≤ 0xF7) : Begins (a :: q) c p ↔
    ∃ b c' d, q = b :: c' :: d :: p ∧ (top b = 2 ∧ top c' = 2 ∧ top d = 2) ∧
      c = codePoint (a.toNat % 8) b.toNat c'.toNat d.toNat ∧ Allowed 0x10000 c := by
  rw [begins_iff]
  refine ⟨fun h => ?_, fun h => .inr (.inr (.inr ⟨h1, h2, h⟩))⟩
  rcases h with h | h | h | h
  · exact absurd h.1 (by omega)
  · exact absurd h.2.1 (by omega)
  · exact absurd h.2.1 (by omega)
  · exact h.2.2

end Begins

/-! ## Where the two agree -/

/-- Both sides take the same value, each under its condition: they differ where the weaker
condition holds and the stronger one does not. -/
theorem correct_iff_of {bs r : List UInt8} {X Z : Prop} {Y : ℕ → Prop} {v : ℕ} (hX : Z → X)
    (ha : ∀ c p, utf8Decode1 bs = (c, p) ∧ c ≠ UINT_MAX ↔ X ∧ c = v ∧ Y c ∧ p = r)
    (hb : ∀ c p, Begins bs c p ↔ Z ∧ c = v ∧ Y c ∧ p = r) (hf : Fooled bs ↔ X ∧ ¬ Z ∧ Y v) :
    Correct bs ↔ ¬ Fooled bs := by
  rw [hf]
  constructor
  · intro h hf
    have := (h v r).1 ((ha v r).2 ⟨hf.1, rfl, hf.2.2, rfl⟩)
    exact hf.2.1 ((hb v r).1 this).1
  · intro h c p
    rw [ha, hb]
    constructor
    · intro ⟨hx, hc, hy, hp⟩
      refine ⟨?_, hc, hy, hp⟩
      by_contra hn
      exact h ⟨hx, hn, hc ▸ hy⟩
    · exact fun ⟨hx, h⟩ => ⟨hX hx, h⟩

theorem correct_iff_of_rejected {bs : List UInt8} (ha : (utf8Decode1 bs).1 = UINT_MAX)
    (hb : ∀ c p, ¬ Begins bs c p) (hf : ¬ Fooled bs) : Correct bs ↔ ¬ Fooled bs := by
  refine correct_iff_of (X := False) (Z := False) (Y := fun _ => True) (v := 0) (r := []) id ?_ ?_ ?_
  · intro c p
    simp only [false_and, iff_false]
    rintro ⟨h, hne⟩
    rw [h] at ha
    exact hne ha
  · exact fun c p => by simpa using hb c p
  · simpa using hf

section Shapes
variable {a b c' d : UInt8} {q : List UInt8}

theorem Fooled.lead (h : Fooled (a :: q)) : 0xE0 ≤ a.toNat ∧ a.toNat ≤ 0xF7 := by
  match q with
  | [] => exact h.elim
  | [_] => exact ⟨h.1, h.2.1⟩
  | _ :: _ :: _ =>
    rcases h with ⟨h1, h2, -⟩ | ⟨h1, h2, -⟩
    · omega
    · omega

theorem correct_two (h1 : 0xC0 ≤ a.toNat) (h2 : a.toNat ≤ 0xDF)
    (hd : utf8Decode1 (a :: d :: q) = case1 a.toNat d q) : Correct (a :: d :: q) ↔ ¬ Fooled (a :: d :: q) := by
  refine correct_iff_of (X := top d = 2) (Z := top d = 2) (Y := fun c => 0x80 ≤ c)
    (v := codePoint 0 0 (a.toNat % 32) d.toNat) (r := q) id (fun c p => ?_) (fun c p => ?_) ?_
  · rw [hd, case1_ok]
    exact ⟨fun h => h.2, fun h => ⟨by omega, h⟩⟩
  · rw [begins_two h1 h2]
    refine ⟨fun ⟨_, he, h3, h4, h5⟩ => ?_, fun ⟨h3, h4, h5, hp⟩ => ⟨d, by rw [hp], h3, h4, h5⟩⟩
    cases he
    exact ⟨h3, h4, h5, rfl⟩
  · constructor
    · intro h
      have := h.lead
      omega
    · exact fun h => absurd h.1 h.2.1

theorem correct_one_left (h1 : 0xE0 ≤ a.toNat) (h2 : a.toNat ≤ 0xF7) : Correct [a, d] ↔ ¬ Fooled [a, d] := by
  refine correct_iff_of (X := top d = 2) (Z := False) (Y := fun c => 0x80 ≤ c)
    (v := codePoint 0 0 (a.toNat % 32) d.toNat) (r := []) False.elim (fun c p => ?_) (fun c p => ?_) ?_
  · have hd : utf8Decode1 [a, d] = case1 a.toNat d [] := by
      simp [utf8Decode1, utf8Decode1Slow, show ¬ a.toNat < 128 by omega, show ¬ 0xF7 < a.toNat by omega]
    rw [hd, case1_ok]
    exact ⟨fun h => h.2, fun h => ⟨by omega, h⟩⟩
  · refine iff_of_false (fun h => ?_) fun h => h.1
    by_cases h3 : a.toNat ≤ 0xEF
    · obtain ⟨_, _, he, -⟩ := (begins_three h1 h3).1 h
      cases he
    · obtain ⟨_, _, _, he, -⟩ := (begins_four (by omega) h2).1 h
      cases he
  · exact ⟨fun h => ⟨h.2.2.1, not_false, h.2.2.2⟩, fun h => ⟨h1, h2, h.1, h.2.2⟩⟩

theorem correct_three (h1 : 0xE0 ≤ a.toNat) (h2 : a.toNat ≤ 0xEF) :
    Correct (a :: c' :: d :: q) ↔ ¬ Fooled (a :: c' :: d :: q) := by
  refine correct_iff_of (X := top c' = top d) (Z := top c' = 2 ∧ top d = 2) (Y := Allowed 0x800)
    (v := codePoint 0 (a.toNat % 16) c'.toNat d.toNat) (r := q) (fun h => h.1.trans h.2.symm)
    (fun c p => ?_) (fun c p => ?_) ?_
  · have hd : utf8Decode1 (a :: c' :: d :: q) = case2 a.toNat c' d q := by
      cases q with
      | nil => simp [utf8Decode1, utf8Decode1Slow, show ¬ a.toNat < 128 by omega, show ¬ 0xF7 < a.toNat by omega]
      | cons e q =>
        simp [utf8Decode1, utf8Decode1Slow, case3, show ¬ a.toNat < 128 by omega, show ¬ 0xF7 < a.toNat by omega,
          show ¬ 0xEF < a.toNat by omega]
    rw [hd, case2_ok (by omega)]
  · rw [begins_three h1 h2]
    refine ⟨fun ⟨_, _, he, h3, h4, h5⟩ => ?_, fun ⟨h3, h4, h5, hp⟩ => ⟨c', d, by rw [hp], h3, h4, h5⟩⟩
    cases he
    exact ⟨h3, h4, h5, rfl⟩
  · refine ⟨fun h => ?_, fun ⟨h3, h4, h5⟩ => .inl ⟨h1, h2, h3, fun h => h4 ⟨h3.trans h, h⟩, h5⟩⟩
    rcases h with ⟨_, _, h3, h4, h5⟩ | ⟨h, _⟩
    · exact ⟨h3, fun h => h4 h.2, h5⟩
    · omega

theorem correct_two_left (h1 : 0xF0 ≤ a.toNat) (h2 : a.toNat ≤ 0xF7) :
    Correct [a, c', d] ↔ ¬ Fooled [a, c', d] := by
  refine correct_iff_of (X := top c' = top d) (Z := False) (Y := Allowed 0x800)
    (v := codePoint 0 (a.toNat % 16) c'.toNat d.toNat) (r := []) False.elim (fun c p => ?_) (fun c p => ?_) ?_
  · have hd : utf8Decode1 [a, c', d] = case2 a.toNat c' d [] := by
      simp [utf8Decode1, utf8Decode1Slow, show ¬ a.toNat < 128 by omega, show ¬ 0xF7 < a.toNat by omega]
    rw [hd, case2_ok (by omega)]
  · refine iff_of_false (fun h => ?_) fun h => h.1
    obtain ⟨_, _, _, he, -⟩ := (begins_four h1 h2).1 h
    cases he
  · refine ⟨fun h => ?_, fun ⟨h3, _, h4⟩ => .inr ⟨h1, h2, h3, h4⟩⟩
    rcases h with ⟨_, h, _⟩ | ⟨_, _, h3, h4⟩
    · omega
    · exact ⟨h3, not_false, h4⟩

theorem correct_four (h1 : 0xF0 ≤ a.toNat) (h2 : a.toNat ≤ 0xF7) :
    Correct (a :: b :: c' :: d :: q) ↔ ¬ Fooled (a :: b :: c' :: d :: q) := by
  refine correct_iff_of (X := top b ^^^ top c' ^^^ top d = 2) (Z := top b = 2 ∧ top c' = 2 ∧ top d = 2)
    (Y := Allowed 0x10000) (v := codePoint (a.toNat % 8) b.toNat c'.toNat d.toNat) (r := q) ?_
    (fun c p => ?_) (fun c p => ?_) ?_
  · intro ⟨hb, hc, hd⟩
    rw [hb, hc, hd]
    rfl
  · have hd : utf8Decode1 (a :: b :: c' :: d :: q) = case3 a.toNat b c' d q := by
      simp [utf8Decode1, utf8Decode1Slow, show ¬ a.toNat < 128 by omega, show ¬ 0xF7 < a.toNat by omega]
    rw [hd, case3_ok (by omega)]
  · rw [begins_four h1 h2]
    refine ⟨fun ⟨_, _, _, he, h3, h4, h5⟩ => ?_, fun ⟨h3, h4, h5, hp⟩ => ⟨b, c', d, by rw [hp], h3, h4, h5⟩⟩
    cases he
    exact ⟨h3, h4, h5, rfl⟩
  · refine ⟨fun h => ?_, fun ⟨h3, h4, h5⟩ => .inr ⟨h1, h2, h3, h4, h5⟩⟩
    rcases h with ⟨_, h, _⟩ | ⟨_, _, h3, h4, h5⟩
    · omega
    · exact ⟨h3, h4, h5⟩

theorem correct_none (h1 : 128 ≤ a.toNat) (h2 : a.toNat < 0xC0 ∨ 0xF7 < a.toNat ∨ q = []) :
    Correct (a :: q) ↔ ¬ Fooled (a :: q) := by
  have hn : ¬ a.toNat < 128 := by omega
  refine correct_iff_of_rejected ?_ (fun c p => ?_) fun h => ?_
  · rcases h2 with h | h | rfl
    · have hs : ¬ 0xF7 < a.toNat := by omega
      match q with
      | [] => simp [utf8Decode1, utf8Decode1Slow, hn, hs]
      | [d] => simp [utf8Decode1, utf8Decode1Slow, case1, hn, hs, show ¬ 0xBF < a.toNat by omega]
      | [c, d] =>
        simp [utf8Decode1, utf8Decode1Slow, case2, case1, hn, hs, show ¬ 0xBF < a.toNat by omega,
          show ¬ 0xDF < a.toNat by omega]
      | b :: c :: d :: q =>
        simp [utf8Decode1, utf8Decode1Slow, case3, case2, case1, hn, hs, show ¬ 0xBF < a.toNat by omega,
          show ¬ 0xDF < a.toNat by omega, show ¬ 0xEF < a.toNat by omega]
    · simp [utf8Decode1, utf8Decode1Slow, hn, h]
    · simp [utf8Decode1, utf8Decode1Slow, hn]
  · rw [begins_iff]
    rintro (⟨h, -⟩ | ⟨h3, h4, _, he, -⟩ | ⟨h3, h4, _, _, he, -⟩ | ⟨h3, h4, _, _, _, he, -⟩)
    · omega
    all_goals
      rcases h2 with h | h | rfl
      · omega
      · omega
      · cases he
  · have hl := h.lead
    rcases h2 with h2 | h2 | rfl
    · omega
    · omega
    · exact h

end Shapes

theorem correct_ascii {a : UInt8} {q : List UInt8} (h1 : a.toNat < 128) : Correct (a :: q) ↔ ¬ Fooled (a :: q) := by
  refine correct_iff_of (X := True) (Z := True) (Y := fun _ => True) (v := a.toNat) (r := q) id
    (fun c p => ?_) (fun c p => ?_) ?_
  · have hd : utf8Decode1 (a :: q) = (a.toNat, q) := if_pos h1
    rw [hd]
    constructor
    · rintro ⟨he, -⟩
      cases he
      exact ⟨trivial, rfl, trivial, rfl⟩
    · rintro ⟨-, rfl, -, rfl⟩
      exact ⟨rfl, by unfold UINT_MAX; omega⟩
  · rw [begins_iff]
    constructor
    · rintro (⟨-, h3, h4⟩ | ⟨h, -⟩ | ⟨h, -⟩ | ⟨h, -⟩)
      · exact ⟨trivial, h3, trivial, h4⟩
      all_goals omega
    · exact fun ⟨_, h3, _, h4⟩ => .inl ⟨h1, h3, h4⟩
  · refine ⟨fun h => ?_, fun h => absurd trivial h.2.1⟩
    have := h.lead
    omega

theorem correct_lead {a : UInt8} {q : List UInt8} (h1 : ¬ a.toNat < 128) : Correct (a :: q) ↔ ¬ Fooled (a :: q) := by
  by_cases h2 : a.toNat < 0xC0 ∨ 0xF7 < a.toNat ∨ q = []
  · exact correct_none (by omega) h2
  · simp only [not_or, not_lt] at h2
    obtain ⟨h2, h3, h4⟩ := h2
    have hn : ¬ 0xF7 < a.toNat := by omega
    match q, h4 with
    | [d], _ =>
      by_cases h5 : a.toNat ≤ 0xDF
      · exact correct_two h2 h5 (by simp [utf8Decode1, utf8Decode1Slow, h1, hn])
      · exact correct_one_left (by omega) h3
    | [c', d], _ =>
      by_cases h5 : a.toNat ≤ 0xDF
      · exact correct_two h2 h5 (by simp [utf8Decode1, utf8Decode1Slow, case2, h1, hn, show ¬ 0xDF < a.toNat by omega])
      · by_cases h6 : a.toNat ≤ 0xEF
        · exact correct_three (by omega) h6
        · exact correct_two_left (by omega) h3
    | b :: c' :: d :: q, _ =>
      by_cases h5 : a.toNat ≤ 0xDF
      · exact correct_two h2 h5 (by
          simp [utf8Decode1, utf8Decode1Slow, case3, case2, h1, hn, show ¬ 0xDF < a.toNat by omega,
            show ¬ 0xEF < a.toNat by omega])
      · by_cases h6 : a.toNat ≤ 0xEF
        · exact correct_three (by omega) h6
        · exact correct_four (by omega) h3

/-- **UTF-8 decoding.** The decoder accepts exactly what begins with the encoding of a
scalar value, and returns the value and the rest, if and only if the input is not one of
those that fool it. -/
theorem decode1_correct_iff (bs : List UInt8) (h : bs ≠ []) : Correct bs ↔ ¬ Fooled bs := by
  match bs, h with
  | a :: q, _ =>
    by_cases h1 : a.toNat < 128
    · exact correct_ascii h1
    · exact correct_lead h1

/-- The three bytes of U+20AC. -/
theorem decode1_correct_euro : Correct [0xE2, 0x82, 0xAC] :=
  (decode1_correct_iff _ (by decide)).2 fun h => by
    rcases h with ⟨-, -, -, h, -⟩ | ⟨h, -⟩
    · exact h (by decide)
    · exact absurd h (by decide)

/-- **`E1 00 00` is no UTF-8** but is read as U+1000: the two bytes cancel out. -/
theorem decode1_fooled : ¬ ∀ bs : List UInt8, bs ≠ [] → Correct bs := by
  intro hall
  have h := (hall [0xE1, 0x00, 0x00] (by decide) 0x1000 []).1 ⟨by decide, by decide⟩
  exact absurd h.2 (by decide)

end Libuv.L1.Idna
