import Libuv.L1Data.InetRoundTrip

/-!
# The texts that are addresses

The text form of an address of either family, written as a grammar in which a text denotes bytes, and `uv_inet_pton` against
it. The parser goes over the text once, with a group pending, and reads the first octet of a quad twice; the grammar knows
nothing of that. What is still expected from a state of the parser is stated for the text from the first character of the
pending group on.

* `inet_grammar_iff`: with the zone of an address cut off it is so for both families, and nothing is stored on failure, unless
  the number of characters before the zone is no `int` (`LengthFits`).
-/
namespace Libuv.L1.Inet

open List

/-! ## The grammar -/

def dec (b : UInt8) : List Char := Nat.toDigits 10 b.toNat

inductive Octets : List Char → List UInt8 → Prop
  | one (b : UInt8) : Octets (dec b) [b]
  | cons (b : UInt8) {t : List Char} {bs : List UInt8} (h : Octets t bs) : Octets (dec b ++ '.' :: t) (b :: bs)

def Quad (s : List Char) (bs : List UInt8) : Prop := Octets s bs ∧ bs.length = 4

def HexDigit (ch : Char) (d : ℕ) : Prop := d < 16 ∧ (ch = d.digitChar ∨ ch = d.digitChar.toUpper)

inductive Hex : List Char → ℕ → Prop
  | nil : Hex [] 0
  | snoc {s : List Char} {v : ℕ} {ch : Char} {d : ℕ} (hs : Hex s v) (hd : HexDigit ch d) : Hex (s ++ [ch]) (v * 16 + d)

def Group (s : List Char) (v : ℕ) : Prop := Hex s v ∧ 1 ≤ s.length ∧ s.length ≤ 4

/-- Groups with a colon between them, two bytes each; with `q` the last one may be a quad. -/
inductive Groups (q : Bool) : List Char → List UInt8 → Prop
  | one {s : List Char} {v : ℕ} (hs : Group s v) : Groups q s (group v)
  | quad {s : List Char} {bs : List UInt8} (hq : q = true) (hs : Quad s bs) : Groups q s bs
  | cons {s t : List Char} {v : ℕ} {bs : List UInt8} (hs : Group s v) (ht : Groups q t bs) :
      Groups q (s ++ ':' :: t) (group v ++ bs)

/-- One side of the `::`. -/
def Side (q : Bool) (s : List Char) (bs : List UInt8) : Prop := s = [] ∧ bs = [] ∨ Groups q s bs

/-- Eight groups, or fewer with a `::` that stands for the others; a quad is the last two groups. -/
inductive Text : List Char → List UInt8 → Prop
  | full {s : List Char} {bs : List UInt8} (h : Groups true s bs) (hlen : bs.length = 16) : Text s bs
  | gap {a b : List Char} {as bs : List UInt8} (ha : Side false a as) (hb : Side true b bs) (hlen : as.length + bs.length ≤ 14) :
      Text (a ++ ':' :: ':' :: b) (as ++ List.replicate (16 - (as.length + bs.length)) 0 ++ bs)

/-- The part of the text that is the address, at most 45 characters of it before a zone. -/
def Text6 (s : List Char) (bs : List UInt8) : Prop :=
  Text (s.takeWhile (· ≠ '%')) bs ∧ ('%' ∈ s → (s.takeWhile (· ≠ '%')).length ≤ 45)

/-- What the `int` that the length before the zone becomes lets through is no address. -/
def LengthFits (s : List Char) : Prop :=
  let a := s.takeWhile (· ≠ '%')
  let len := CInt.ofNat a.length
  '%' ∈ s → a.length < 2 ^ 31 ∨ 45 < len ∨ 0 ≤ len ∧ ∀ bs, ¬Text (a.take len.toNat) bs

/-- What the call returns, and `dst` after it.
mirrors inet.c:151-216, 219-303 -/
def inetPtonInto (af : Af) (src : List Char) (dst : List UInt8) : Option Errno × List UInt8 :=
  match uvInetPton af src with
  | .ok bs => (none, bs)
  | .error err => (some err, dst)

/-! ## Quads -/

theorem idxOf_eq {l : List Char} {ch : Char} {d : ℕ} (h : l.idxOf? ch = some d) : ∃ hd : d < l.length, l[d] = ch := by
  obtain ⟨hd, hget, -⟩ := findIdx?_eq_some_iff_getElem.1 h
  exact ⟨hd, eq_of_beq hget⟩

theorem digits_idxOf_eq {ch : Char} {d : ℕ} (h : digits.idxOf? ch = some d) : d < 10 ∧ ch = d.digitChar := by
  have hall : ∀ d (hd : d < digits.length), digits[d] = d.digitChar := by decide
  obtain ⟨hd, hget⟩ := idxOf_eq h
  exact ⟨hd, hget.symm.trans (hall d hd)⟩

theorem dec_ofNat {n : ℕ} (hn : n ≤ 255) : dec (UInt8.ofNat n) = Nat.toDigits 10 n := by
  unfold dec
  rw [UInt8.toNat_ofNat', Nat.mod_eq_of_lt (by omega)]

theorem pton4_sound {src : List Char} {octets cur : ℕ} {before bs : List UInt8} :
    (cur ≤ 255 → octets ≤ 4 → pton4 src true octets before cur = .ok bs →
      ∃ os, bs = before ++ os ∧ octets + os.length = 5 ∧ Octets (Nat.toDigits 10 cur ++ src) os) ∧
    (octets < 4 → pton4 src false octets before 0 = .ok bs → ∃ os, bs = before ++ os ∧ octets + os.length = 4 ∧ Octets src os) := by
  induction src generalizing octets cur before with
  | nil =>
    constructor
    · intro hcur ho h
      unfold pton4 at h
      split at h
      · cases h
      · cases h
        refine ⟨[UInt8.ofNat cur], rfl, by simp only [length_cons, length_nil]; omega, ?_⟩
        rw [append_nil, ← dec_ofNat hcur]
        exact .one _
    · intro ho h
      unfold pton4 at h
      rw [if_pos ho] at h
      cases h
  | cons ch src ih =>
    constructor
    · intro hcur ho h
      unfold pton4 at h
      cases hidx : digits.idxOf? ch with
      | some d =>
        obtain ⟨hd, rfl⟩ := digits_idxOf_eq hidx
        rw [hidx] at h
        dsimp only at h
        split at h
        · cases h
        · next hzero =>
          split at h
          · cases h
          · next hnw =>
            have hcur0 : cur ≠ 0 := fun h => hzero ⟨rfl, h⟩
            obtain ⟨os, h1, h2, h3⟩ := ih.1 (by omega) ho h
            refine ⟨os, h1, h2, ?_⟩
            rw [Nat.toDigits_of_base_le (by decide) (by omega), append_assoc] at h3
            have hdiv : (cur * 10 + d) / 10 = cur := by omega
            have hmod : (cur * 10 + d) % 10 = d := by omega
            rwa [hdiv, hmod] at h3
      | none =>
        rw [hidx] at h
        dsimp only at h
        split at h
        · next hdot =>
          obtain ⟨rfl, -⟩ := hdot
          split at h
          · cases h
          · next h4 =>
            obtain ⟨os, h1, h2, h3⟩ := (@ih _ 0 _).2 (by omega) h
            refine ⟨UInt8.ofNat cur :: os, ?_, by rw [length_cons]; omega, ?_⟩
            · rw [h1, append_assoc]
              rfl
            · rw [← dec_ofNat hcur]
              exact .cons _ h3
        · cases h
    · intro ho h
      unfold pton4 at h
      cases hidx : digits.idxOf? ch with
      | some d =>
        obtain ⟨hd, rfl⟩ := digits_idxOf_eq hidx
        rw [hidx] at h
        have hnw : ¬255 < 0 * 10 + d := by omega
        have ho' : ¬4 < octets + 1 := by omega
        simp only [Bool.false_eq_true, false_and, if_false, hnw, ho'] at h
        rw [Nat.zero_add] at h
        obtain ⟨os, h1, h2, h3⟩ := ih.1 (by omega) (by omega) h
        rw [Nat.toDigits_of_lt_base hd] at h3
        exact ⟨os, h1, by omega, h3⟩
      | none =>
        rw [hidx] at h
        simp only [Bool.false_eq_true, and_false, if_false] at h
        cases h

theorem pton4_complete {s : List Char} {bs : List UInt8} (h : Octets s bs) :
    ∀ {octets : ℕ} {before : List UInt8}, octets + bs.length = 4 → pton4 s false octets before 0 = .ok (before ++ bs) := by
  induction h with
  | one b =>
    intro octets before hlen
    have hb := b.toNat_lt
    simp only [length_cons, length_nil] at hlen
    rw [← append_nil (dec b), dec, pton4_octet _ _ _ _ (by omega) (by omega), pton4, if_neg (by omega), UInt8.ofNat_toNat]
  | @cons b t bs h ih =>
    intro octets before hlen
    have hb := b.toNat_lt
    simp only [length_cons] at hlen
    have hbs : 0 < bs.length := by cases h <;> exact Nat.succ_pos _
    rw [dec, pton4_octet _ _ _ _ (by omega) (by omega), pton4_dot (by omega), ih (by omega), UInt8.ofNat_toNat,
      append_assoc]
    rfl

theorem inetPton4_iff (s : List Char) (bs : List UInt8) : inetPton4 s = .ok bs ↔ Quad s bs := by
  constructor
  · intro h
    obtain ⟨os, h1, h2, h3⟩ := (@pton4_sound s 0 0 [] bs).2 (by decide) h
    subst h1
    exact ⟨h3, by omega⟩
  · intro h
    obtain ⟨h, hlen⟩ := h
    exact pton4_complete h (by omega)

/-! ## Groups -/

theorem xdigit_iff (ch : Char) (d : ℕ) : xdigit ch = some d ↔ HexDigit ch d := by
  have hlower : ∀ d (hd : d < xdigitsL.length), xdigitsL[d] = d.digitChar := by decide
  have hupper : ∀ d (hd : d < xdigitsU.length), xdigitsU[d] = d.digitChar.toUpper := by decide +kernel
  have hread : ∀ d < 16, xdigit d.digitChar.toUpper = some d := by decide +kernel
  constructor
  · intro h
    rcases Option.or_eq_some_iff.1 h with h | ⟨-, h⟩
    · obtain ⟨hd, hget⟩ := idxOf_eq h
      exact ⟨hd, .inl (hget.symm.trans (hlower d hd))⟩
    · obtain ⟨hd, hget⟩ := idxOf_eq h
      exact ⟨hd, .inr (hget.symm.trans (hupper d hd))⟩
  · intro h
    obtain ⟨hd, rfl | rfl⟩ := h
    · exact xdigit_digitChar d hd
    · exact hread d hd

theorem xdigit_colon : xdigit ':' = none := by decide

theorem xdigit_dot : xdigit '.' = none := by decide

theorem pton6_hexDigit {out : List UInt8} {colonp : Option ℕ} {tok : List Char} {seen v d : ℕ} {ch : Char} (hd : HexDigit ch d)
    (hseen : seen + 1 ≤ 4) (src : List Char) :
    pton6 ⟨out, colonp, tok, seen, v⟩ (ch :: src) = pton6 ⟨out, colonp, tok, seen + 1, v * 16 + d⟩ src := by
  have hv : v <<< 4 ||| d = v * 16 + d := by
    rw [← Nat.shiftLeft_add_eq_or_of_lt (show d < 2 ^ 4 from hd.1), Nat.shiftLeft_eq]
  rw [pton6, (xdigit_iff ch d).2 hd]
  dsimp only
  rw [if_neg (by omega), hv]

theorem pton6_hex {out : List UInt8} {colonp : Option ℕ} {tok s : List Char} {v : ℕ} (hs : Hex s v) (hlen : s.length ≤ 4)
    (src : List Char) : pton6 ⟨out, colonp, tok, 0, 0⟩ (s ++ src) = pton6 ⟨out, colonp, tok, s.length, v⟩ src := by
  induction hs generalizing src with
  | nil => rfl
  | @snoc s v ch d hs hd ih =>
    rw [length_append] at hlen ⊢
    have h1 : [ch].length = 1 := rfl
    rw [append_assoc, ih (by omega), singleton_append, pton6_hexDigit hd (by omega), h1]

theorem pton6_next {out : List UInt8} {colonp : Option ℕ} {tok src : List Char} {seen v : ℕ} (hseen : seen ≠ 0) (hsrc : src ≠ [])
    (hlen : out.length + 2 ≤ 16) :
    pton6 ⟨out, colonp, tok, seen, v⟩ (':' :: src) = pton6 ⟨out ++ group v, colonp, src, 0, 0⟩ src := by
  rw [pton6, xdigit_colon]
  dsimp only
  rw [if_pos rfl, if_neg hseen, if_neg hsrc, if_neg (by omega)]

/-- The pending group is written, if there is one. -/
def flush (s : Pton6) : Option (List UInt8) :=
  if s.seenXdigits = 0 then some s.out
  else if 16 < s.out.length + 2 then none
  else some (s.out ++ group s.val)

theorem finish_iff (s : Pton6) (bs : List UInt8) :
    finish s = .ok bs ↔ ∃ out, flush s = some out ∧ finish ⟨out, s.colonp, [], 0, 0⟩ = .ok bs := by
  unfold flush
  by_cases h0 : s.seenXdigits = 0
  · rw [if_pos h0]
    have hsame : finish s = finish ⟨s.out, s.colonp, [], 0, 0⟩ := by simp [finish, h0]
    simp [hsame]
  · rw [if_neg h0]
    by_cases h16 : 16 < s.out.length + 2
    · simp [finish, h0, h16]
    · rw [if_neg h16]
      have hsame : finish s = finish ⟨s.out ++ group s.val, s.colonp, [], 0, 0⟩ := by simp [finish, h0, h16]
      simp [hsame]

theorem finish_none (out bs : List UInt8) : finish ⟨out, none, [], 0, 0⟩ = .ok bs ↔ out.length = 16 ∧ out = bs := by
  unfold finish
  simp only [ne_eq, not_true, false_and, if_false]
  split
  · next h => exact iff_of_false (fun h => by cases h) fun h' => h h'.1
  · next h =>
    constructor
    · intro hbs
      cases hbs
      exact ⟨not_not.1 h, rfl⟩
    · intro h
      obtain ⟨-, rfl⟩ := h
      rfl

theorem finish_some (pre post bs : List UInt8) (hlen : pre.length + post.length ≤ 16) :
    finish ⟨pre ++ post, some pre.length, [], 0, 0⟩ = .ok bs ↔
      pre.length + post.length < 16 ∧ pre ++ List.replicate (16 - (pre.length + post.length)) 0 ++ post = bs := by
  by_cases h16 : pre.length + post.length = 16
  · refine iff_of_false ?_ fun h => by omega
    simp [finish, h16]
  · have hlt : pre.length + post.length < 16 := by omega
    rw [finish_gap pre post [] hlt]
    constructor
    · intro h
      cases h
      exact ⟨hlt, rfl⟩
    · intro h
      obtain ⟨-, rfl⟩ := h
      rfl

/-! ## What denotes an address is read -/

theorem Hex.head {s : List Char} {v : ℕ} (hs : Hex s v) {ch : Char} {t : List Char} (h : s = ch :: t) : (xdigit ch).isSome := by
  induction hs generalizing t with
  | nil => cases h
  | @snoc s v c d hs hd ih =>
    cases s with
    | nil =>
      cases h
      rw [(xdigit_iff _ d).2 hd]
      rfl
    | cons a s =>
      cases h
      exact ih rfl

theorem Hex.nil_eq {v : ℕ} (h : Hex [] v) : v = 0 := by
  generalize hs : ([] : List Char) = s at h
  cases h with
  | nil => rfl
  | snoc h hd => exact absurd hs.symm (append_ne_nil_of_right_ne_nil _ (cons_ne_nil _ _))

theorem hex_dec (b : UInt8) : ∃ v, Hex (dec b) v := by
  have hall : ∀ n : ℕ, ∃ v, Hex (Nat.toDigits 10 n) v := by
    intro n
    induction n using Nat.strongRecOn with
    | _ n ih =>
      by_cases hn : n < 10
      · rw [Nat.toDigits_of_lt_base hn]
        exact ⟨_, .snoc .nil ⟨by omega, .inl rfl⟩⟩
      · obtain ⟨v, hv⟩ := ih (n / 10) (by omega)
        rw [Nat.toDigits_of_base_le (by decide) (by omega)]
        exact ⟨_, .snoc hv ⟨by omega, .inl rfl⟩⟩
  exact hall b.toNat

theorem Quad.split {s : List Char} {bs : List UInt8} (h : Quad s bs) : ∃ b t, s = dec b ++ '.' :: t := by
  obtain ⟨h, hlen⟩ := h
  cases h with
  | one b => cases hlen
  | cons b h => exact ⟨b, _, rfl⟩

theorem dec_cons (b : UInt8) : ∃ ch t, dec b = ch :: t := exists_cons_of_ne_nil Nat.toDigits_ne_nil

theorem Groups.head {q : Bool} {s : List Char} {bs : List UInt8} (h : Groups q s bs) (rest : List Char) :
    s ≠ [] ∧ (s ++ rest).head? ≠ some ':' := by
  have hgroup {s rest : List Char} {v : ℕ} (hs : Group s v) : s ≠ [] ∧ (s ++ rest).head? ≠ some ':' := by
    obtain ⟨hhex, hpos, -⟩ := hs
    obtain ⟨ch, t, rfl⟩ := exists_cons_of_length_pos hpos
    refine ⟨cons_ne_nil _ _, fun h => ?_⟩
    have hx := hhex.head rfl
    cases h
    rw [xdigit_colon] at hx
    cases hx
  cases h with
  | one hs => exact hgroup hs
  | quad hq hs =>
    obtain ⟨b, t, rfl⟩ := hs.split
    obtain ⟨v, hv⟩ := hex_dec b
    obtain ⟨ch, u, hu⟩ := dec_cons b
    rw [hu]
    refine ⟨cons_ne_nil _ _, fun h => ?_⟩
    have hx := hv.head hu
    cases h
    rw [xdigit_colon] at hx
    cases hx
  | cons hs ht =>
    rw [append_assoc]
    exact ⟨fun h => (@hgroup _ [] _ hs).1 (append_eq_nil_iff.1 h).1, (hgroup hs).2⟩

theorem pton6_complete {q : Bool} {s : List Char} {bs : List UInt8} (h : Groups q s bs) :
    ∀ {out : List UInt8} {colonp : Option ℕ}, out.length + bs.length ≤ 16 →
      ∃ s', pton6 ⟨out, colonp, s, 0, 0⟩ s = .ok s' ∧ s'.colonp = colonp ∧ flush s' = some (out ++ bs) := by
  have hlen (v : ℕ) : (group v).length = 2 := rfl
  induction h with
  | @one s v hs =>
    intro out colonp h16
    rw [hlen] at h16
    have hread : pton6 ⟨out, colonp, s, 0, 0⟩ (s ++ []) = _ := pton6_hex hs.1 hs.2.2 []
    rw [append_nil] at hread
    refine ⟨_, hread, rfl, ?_⟩
    have hpos : ¬s.length = 0 := by have := hs.2.1; omega
    have hroom : ¬16 < out.length + 2 := by omega
    rw [flush, if_neg hpos, if_neg hroom]
  | @quad s bs hq hs =>
    intro out colonp h16
    have h4 := hs.2
    obtain ⟨b, t, rfl⟩ := hs.split
    obtain ⟨v, hv⟩ := hex_dec b
    have h3 : (dec b).length ≤ 3 := octet_length b
    rw [pton6_hex hv (by omega), pton6, xdigit_dot]
    dsimp only
    rw [if_neg (by decide), if_pos ⟨rfl, by omega⟩, (inetPton4_iff _ _).2 hs]
    exact ⟨_, rfl, rfl, rfl⟩
  | @cons s t v bs hs ht ih =>
    intro out colonp h16
    rw [length_append, hlen] at h16
    have hpos : s.length ≠ 0 := by have := hs.2.1; omega
    rw [pton6_hex hs.1 hs.2.2, pton6_next hpos (ht.head []).1 (by omega)]
    obtain ⟨s', h1, h2, h3⟩ := @ih (out ++ group v) colonp (by rw [length_append, hlen]; omega)
    refine ⟨s', h1, h2, ?_⟩
    rw [h3, append_assoc]

theorem pton6_toGap {s : List Char} {bs : List UInt8} (h : Groups false s bs) (rest : List Char) :
    ∀ {out : List UInt8} {tok : List Char}, out.length + bs.length ≤ 16 →
      pton6 ⟨out, none, tok, 0, 0⟩ (s ++ ':' :: ':' :: rest) =
        pton6 ⟨out ++ bs, some (out ++ bs).length, rest, 0, 0⟩ rest := by
  have hlen (v : ℕ) : (group v).length = 2 := rfl
  induction h with
  | @one s v hs =>
    intro out tok h16
    rw [hlen] at h16
    have hpos : s.length ≠ 0 := by have := hs.2.1; omega
    rw [pton6_hex hs.1 hs.2.2, pton6_next hpos (cons_ne_nil _ _) (by omega), pton6_gap]
  | quad hq hs => cases hq
  | @cons s t v bs hs ht ih =>
    intro out tok h16
    rw [length_append, hlen] at h16
    have hpos : s.length ≠ 0 := by have := hs.2.1; omega
    rw [append_assoc, cons_append, pton6_hex hs.1 hs.2.2,
      pton6_next hpos (fun h => (ht.head []).1 (append_eq_nil_iff.1 h).1) (by omega),
      ih (by rw [length_append, hlen]; omega), append_assoc]

theorem inetPton6_complete {s : List Char} {bs : List UInt8} (h : Text s bs) : inetPton6 s = .ok bs := by
  cases h with
  | @full s bs h hlen =>
    obtain ⟨s', h1, h2, h3⟩ := @pton6_complete true s bs h [] none (by rw [hlen]; decide)
    have hhead := (h.head []).2
    rw [append_nil] at hhead
    rw [inetPton6_bare hhead, h1]
    refine (finish_iff s' bs).2 ⟨_, h3, ?_⟩
    rw [h2]
    exact (finish_none _ _).2 ⟨hlen, rfl⟩
  | @gap a b as bs ha hb hlen =>
    -- behind the gap
    have hrest : (pton6 ⟨as, some as.length, b, 0, 0⟩ b).bind finish =
        .ok (as ++ List.replicate (16 - (as.length + bs.length)) 0 ++ bs) := by
      obtain ⟨s', h1, h2, h3⟩ : ∃ s', pton6 ⟨as, some as.length, b, 0, 0⟩ b = .ok s' ∧ s'.colonp = some as.length ∧
          flush s' = some (as ++ bs) := by
        rcases hb with ⟨rfl, rfl⟩ | hb
        · exact ⟨_, rfl, rfl, by rw [append_nil]; rfl⟩
        · exact pton6_complete hb (by omega)
      rw [h1]
      refine (finish_iff s' _).2 ⟨_, h3, ?_⟩
      rw [h2]
      exact (finish_some _ _ _ (by omega)).2 ⟨by omega, rfl⟩
    rcases ha with ⟨rfl, rfl⟩ | ha
    · change (pton6 ⟨[], none, ':' :: b, 0, 0⟩ (':' :: b)).bind finish = _
      rw [pton6_gap]
      exact hrest
    · rw [inetPton6_bare (ha.head _).2, pton6_toGap ha b (by rw [length_nil]; omega)]
      exact hrest

/-! ## What is read denotes an address -/

inductive Front : List Char → List UInt8 → Prop
  | nil : Front [] []
  | cons {s t : List Char} {v : ℕ} {bs : List UInt8} (hs : Group s v) (ht : Front t bs) : Front (s ++ ':' :: t) (group v ++ bs)

theorem Front.groups {s : List Char} {bs : List UInt8} (h : Front s bs) : s ≠ [] → ∃ t, s = t ++ [':'] ∧ Groups false t bs := by
  induction h with
  | nil => exact fun h => absurd rfl h
  | @cons s t v bs hs ht ih =>
    intro _
    cases ht with
    | nil => exact ⟨s, rfl, by rw [append_nil]; exact .one hs⟩
    | cons hs' ht' =>
      obtain ⟨u, hu, hg⟩ := ih (fun h => by cases (append_eq_nil_iff.1 h).2)
      exact ⟨s ++ ':' :: u, by rw [hu, append_assoc, cons_append], .cons hs hg⟩

/-- What is still expected: the text from the pending group on is one side of a gap, or the groups before it, the second colon,
and the side behind it. -/
def Rest (out : List UInt8) (colonp : Option ℕ) (s : List Char) (s' : Pton6) (out' : List UInt8) : Prop :=
  (s'.colonp = colonp ∧ ∃ bs, out' = out ++ bs ∧ Side true s bs) ∨
    (colonp = none ∧ ∃ a b as bs, s = a ++ ':' :: b ∧ Front a as ∧ Side true b bs ∧ s'.colonp = some (out ++ as).length ∧
      out' = out ++ as ++ bs)

theorem Rest.group {out out' : List UInt8} {colonp : Option ℕ} {s t : List Char} {s' : Pton6} {v : ℕ} (hs : Group s v) (ht : t ≠ [])
    (h : Rest (out ++ Inet.group v) colonp t s' out') : Rest out colonp (s ++ ':' :: t) s' out' := by
  rcases h with ⟨h1, bs, h2, h3⟩ | ⟨h1, a, b, as, bs, h2, h3, h4, h5, h6⟩
  · refine .inl ⟨h1, Inet.group v ++ bs, by rw [h2, append_assoc], .inr (.cons hs ?_)⟩
    exact h3.resolve_left fun h => ht h.1
  · refine .inr ⟨h1, s ++ ':' :: a, b, Inet.group v ++ as, bs, ?_, .cons hs h3, h4, ?_, ?_⟩
    · rw [h2, append_assoc, cons_append]
    · rw [h5, append_assoc]
    · rw [h6]
      simp

theorem pton6_sound {src : List Char} :
    ∀ {out out' : List UInt8} {colonp : Option ℕ} {pend : List Char} {v : ℕ} {s' : Pton6}, Hex pend v → pend.length ≤ 4 →
      out.length ≤ 16 → pton6 ⟨out, colonp, pend ++ src, pend.length, v⟩ src = .ok s' → flush s' = some out' →
      out'.length ≤ 16 ∧ Rest out colonp (pend ++ src) s' out' := by
  have hlen (v : ℕ) : (group v).length = 2 := rfl
  induction src with
  | nil =>
    intro out out' colonp pend v s' hpend h4 h16 hread hflush
    cases hread
    unfold flush at hflush
    dsimp only at hflush
    split at hflush
    · next h0 =>
      cases hflush
      have hnil : pend = [] := length_eq_zero_iff.1 h0
      exact ⟨h16, .inl ⟨rfl, [], (append_nil _).symm, .inl ⟨by rw [hnil]; rfl, rfl⟩⟩⟩
    · next h0 =>
      split at hflush
      · cases hflush
      · cases hflush
        refine ⟨by rw [length_append, hlen]; omega, .inl ⟨rfl, group v, rfl, .inr ?_⟩⟩
        rw [append_nil]
        exact .one ⟨hpend, by omega, h4⟩
  | cons ch src ih =>
    intro out out' colonp pend v s' hpend h4 h16 hread hflush
    cases hx : xdigit ch with
    | some d =>
      have hd := (xdigit_iff ch d).1 hx
      have htext : pend ++ ch :: src = (pend ++ [ch]) ++ src := append_cons _ _ _
      have hlen' : (pend ++ [ch]).length = pend.length + 1 := by rw [length_append]; rfl
      by_cases hroom : pend.length + 1 ≤ 4
      · rw [pton6_hexDigit hd hroom, htext] at hread
        rw [htext]
        exact ih (.snoc hpend hd) (by omega) h16 (by rw [hlen']; exact hread) hflush
      · rw [pton6, hx] at hread
        dsimp only at hread
        rw [if_pos (by omega)] at hread
        cases hread
    | none =>
      by_cases hcolon : ch = ':'
      · subst hcolon
        by_cases hpos : pend.length = 0
        · -- the gap
          obtain rfl := length_eq_zero_iff.1 hpos
          cases colonp with
          | some c =>
            cases hread
          | none =>
            rw [hpend.nil_eq] at hread
            obtain ⟨h1, h2 | ⟨h2, -⟩⟩ := @ih out out' (some out.length) [] 0 s' .nil (by decide) h16 hread hflush
            · obtain ⟨hcolonp, bs, hout, hside⟩ := h2
              refine ⟨h1, .inr ⟨rfl, [], src, [], bs, rfl, .nil, hside, ?_, ?_⟩⟩
              · rw [hcolonp, append_nil]
              · rw [hout, append_nil]
            · cases h2
        · rw [pton6, xdigit_colon] at hread
          dsimp only at hread
          rw [if_pos rfl, if_neg hpos] at hread
          split at hread
          · cases hread
          · next hsrc =>
            split at hread
            · cases hread
            · next hroom =>
              obtain ⟨h1, h2⟩ := @ih (out ++ group v) out' colonp [] 0 s' .nil (by decide)
                (by rw [length_append, hlen]; omega) hread hflush
              exact ⟨h1, h2.group ⟨hpend, by omega, h4⟩ hsrc⟩
      · rw [pton6, hx] at hread
        dsimp only at hread
        rw [if_neg hcolon] at hread
        split at hread
        · next hdot =>
          cases hquad : inetPton4 (pend ++ ch :: src) with
          | error err =>
            rw [hquad] at hread
            cases hread
          | ok octets =>
            rw [hquad] at hread
            cases hread
            cases hflush
            have hq := (inetPton4_iff _ _).1 hquad
            refine ⟨?_, .inl ⟨rfl, octets, rfl, .inr (.quad rfl hq)⟩⟩
            rw [length_append, hq.2]
            exact hdot.2
        · cases hread

theorem Side.even {q : Bool} {s : List Char} {bs : List UInt8} (h : Side q s bs) : 2 ∣ bs.length := by
  have hgroups {t : List Char} {cs : List UInt8} (h : Groups q t cs) : 2 ∣ cs.length := by
    induction h with
    | one hs => exact ⟨1, rfl⟩
    | quad hq hs => exact ⟨2, hs.2⟩
    | cons hs ht ih =>
      rw [length_append]
      exact dvd_add ⟨1, rfl⟩ ih
  rcases h with ⟨-, rfl⟩ | h
  · exact dvd_zero 2
  · exact hgroups h

theorem text_gap {a b : List Char} {as bs out : List UInt8} (ha : Side false a as) (hb : Side true b bs)
    (hlen : (as ++ bs).length ≤ 16) (h : finish ⟨as ++ bs, some as.length, [], 0, 0⟩ = .ok out) :
    Text (a ++ ':' :: ':' :: b) out := by
  rw [length_append] at hlen
  obtain ⟨hlt, rfl⟩ := (finish_some as bs out hlen).1 h
  have h2 := ha.even
  have h2' := hb.even
  exact .gap ha hb (by omega)

theorem inetPton6_colon (src : List Char) :
    inetPton6 (':' :: src) =
      if src.head? ≠ some ':' then .error .einval else (pton6 ⟨[], none, src, 0, 0⟩ src).bind finish := rfl

theorem inetPton6_sound {s : List Char} {bs : List UInt8} (h : inetPton6 s = .ok bs) : Text s bs := by
  have hsplit {st : Pton6} {t : List Char} (h : (pton6 st t).bind finish = .ok bs) :
      ∃ s' out, pton6 st t = .ok s' ∧ flush s' = some out ∧ finish ⟨out, s'.colonp, [], 0, 0⟩ = .ok bs := by
    cases hread : pton6 st t with
    | error err =>
      rw [hread] at h
      cases h
    | ok s' =>
      rw [hread] at h
      obtain ⟨out, hflush, hfinish⟩ := (finish_iff s' bs).1 h
      exact ⟨s', out, rfl, hflush, hfinish⟩
  by_cases hhead : s.head? = some ':'
  · -- the gap comes first
    obtain ⟨src, rfl⟩ : ∃ src, s = ':' :: src := by
      cases s with
      | nil => cases hhead
      | cons ch src =>
        cases hhead
        exact ⟨src, rfl⟩
    rw [inetPton6_colon] at h
    split at h
    · cases h
    · next hsecond =>
      obtain ⟨b, rfl⟩ : ∃ b, src = ':' :: b := by
        cases src with
        | nil => exact absurd (fun h => by cases h) hsecond
        | cons ch b =>
          have hch : ch = ':' := Option.some.inj (not_not.1 hsecond)
          exact ⟨b, by rw [hch]⟩
      rw [pton6_gap] at h
      obtain ⟨s', out, hread, hflush, hfinish⟩ := hsplit h
      obtain ⟨h16, hrest⟩ := @pton6_sound b [] out (some 0) [] 0 s' .nil (by decide) (by decide) hread hflush
      rcases hrest with ⟨hcolonp, bs', rfl, hside⟩ | ⟨hcolonp, -⟩
      · rw [hcolonp] at hfinish
        exact text_gap (.inl ⟨rfl, rfl⟩) hside h16 hfinish
      · cases hcolonp
  · rw [inetPton6_bare hhead] at h
    obtain ⟨s', out, hread, hflush, hfinish⟩ := hsplit h
    obtain ⟨h16, hrest⟩ := @pton6_sound s [] out none [] 0 s' .nil (by decide) (by decide) hread hflush
    rcases hrest with ⟨hcolonp, bs', rfl, hside⟩ | ⟨-, a, b, as, bs', hs, hfront, hside, hcolonp, rfl⟩
    · rw [hcolonp] at hfinish
      obtain ⟨hlen, rfl⟩ := (finish_none _ _).1 hfinish
      rcases hside with ⟨-, rfl⟩ | hgroups
      · cases hlen
      · exact .full hgroups hlen
    · have ha : a ≠ [] := by
        intro h
        subst h
        rw [nil_append] at hs
        rw [hs] at hhead
        exact hhead rfl
      obtain ⟨t, rfl, hgroups⟩ := hfront.groups ha
      rw [hcolonp] at hfinish
      rw [nil_append] at hs
      rw [hs, append_assoc]
      exact text_gap (.inr hgroups) hside h16 hfinish

theorem inetPton6_iff (s : List Char) (bs : List UInt8) : inetPton6 s = .ok bs ↔ Text s bs :=
  ⟨inetPton6_sound, inetPton6_complete⟩

theorem pton4_error {err : Errno} (src : List Char) (sawDigit : Bool) (octets : ℕ) (before : List UInt8) (cur : ℕ) :
    pton4 src sawDigit octets before cur = .error err → err = .einval := by
  fun_induction pton4 src sawDigit octets before cur
  all_goals first | assumption | (intro h; cases h; rfl) | (intro h; cases h)

theorem pton6_error {err : Errno} (s : Pton6) (src : List Char) : pton6 s src = .error err → err = .einval := by
  fun_induction pton6 s src
  all_goals first | assumption | (intro h; cases h; rfl) | (intro h; cases h)

theorem finish_error {s : Pton6} {err : Errno} (h : finish s = .error err) : err = .einval := by
  unfold finish at h
  dsimp only at h
  repeat' split at h
  all_goals first | (cases h; rfl) | cases h

theorem inetPton6_error {s : List Char} {err : Errno} (h : inetPton6 s = .error err) : err = .einval := by
  have hstart {st : Pton6} {t : List Char} (h : (pton6 st t).bind finish = .error err) : err = .einval := by
    cases hread : pton6 st t with
    | error err' =>
      rw [hread] at h
      cases h
      exact pton6_error _ _ hread
    | ok s' =>
      rw [hread] at h
      exact finish_error h
  by_cases hhead : s.head? = some ':'
  · cases s with
    | nil => cases hhead
    | cons ch src =>
      cases hhead
      rw [inetPton6_colon] at h
      split at h
      · cases h
        rfl
      · exact hstart h
  · rw [inetPton6_bare hhead] at h
    exact hstart h

/-! ## The zone -/

theorem ne_of_not_mem {a : List Char} (ha : '%' ∉ a) : ∀ ch ∈ a, (ch ≠ '%' : Bool) = true := by
  intro ch hch
  have hne : ch ≠ '%' := by
    intro h
    subst h
    exact ha hch
  simp [hne]

theorem idxOf_zone {a : List Char} (ha : '%' ∉ a) (z : List Char) : (a ++ '%' :: z).idxOf? '%' = some a.length := by
  induction a with
  | nil => rfl
  | cons ch a ih =>
    have hne : ch ≠ '%' := by
      intro h
      subst h
      exact ha mem_cons_self
    rw [cons_append, idxOf?_cons, if_neg (by simpa using hne), ih fun h => ha (mem_cons_of_mem ch h)]
    rfl

theorem takeWhile_zone {a : List Char} (ha : '%' ∉ a) (z : List Char) : (a ++ '%' :: z).takeWhile (· ≠ '%') = a := by
  rw [takeWhile_append_of_pos (ne_of_not_mem ha), takeWhile_cons_of_neg (by decide), append_nil]

theorem uvInetPton_zone {a : List Char} (ha : '%' ∉ a) (z : List Char) : uvInetPton .inet6 (a ++ '%' :: z) =
    if 45 < CInt.ofNat a.length then .error .einval
    else if CInt.ofNat a.length < 0 then .error .overrun
    else inetPton6 (a.take (CInt.ofNat a.length).toNat) := by
  have hle : (CInt.ofNat a.length).toNat ≤ a.length := by
    have := CInt.ofNat_le a.length
    omega
  rw [uvInetPton, idxOf_zone ha]
  dsimp only
  rw [take_append_of_le_length hle]
  rfl

theorem uvInetPton_bare {a : List Char} (ha : '%' ∉ a) : uvInetPton .inet6 a = inetPton6 a := by
  rw [uvInetPton, idxOf?_eq_none_iff.2 ha]

/-- The text is accepted if and only if it denotes an address, and then its bytes are stored; else `dst` is as it was. -/
def Accepts (af : Af) (s : List Char) (dst : List UInt8) (P : List UInt8 → Prop) : Prop :=
  (∀ bs, inetPtonInto af s dst = (none, bs) ↔ P bs) ∧ ((∃ bs, P bs) ∨ inetPtonInto af s dst = (some .einval, dst))

variable {af : Af} {s : List Char} {dst : List UInt8} {P : List UInt8 → Prop}

theorem accepts_of_ok {bs : List UInt8} (h : uvInetPton af s = .ok bs) : Accepts af s dst P ↔ ∀ bs', bs = bs' ↔ P bs' := by
  have hres : inetPtonInto af s dst = (none, bs) := by rw [inetPtonInto, h]
  unfold Accepts
  simp only [hres, Prod.mk.injEq, true_and]
  exact and_iff_left_of_imp fun hP => .inl ⟨bs, (hP bs).1 rfl⟩

theorem accepts_of_error {err : Errno} (h : uvInetPton af s = .error err) :
    Accepts af s dst P ↔ (∀ bs, ¬P bs) ∧ err = .einval := by
  have hres : inetPtonInto af s dst = (some err, dst) := by rw [inetPtonInto, h]
  unfold Accepts
  simp only [hres, Prod.mk.injEq, reduceCtorEq, false_and, false_iff, Option.some.injEq, and_true]
  exact and_congr_right fun hno => or_iff_right fun ⟨bs, hP⟩ => hno bs hP

theorem accepts_einval {res : Except Errno (List UInt8)} (hres : uvInetPton af s = res)
    (herr : ∀ err, res = .error err → err = .einval) (hok : ∀ bs, res = .ok bs ↔ P bs) : Accepts af s dst P := by
  cases res with
  | ok bs => exact (accepts_of_ok hres).2 fun bs' => by rw [← hok, Except.ok.injEq]
  | error err =>
    refine (accepts_of_error hres).2 ⟨fun bs hP => ?_, herr err rfl⟩
    cases (hok bs).2 hP

theorem accepts4 (s : List Char) (dst : List UInt8) : Accepts .inet s dst (Quad s) :=
  accepts_einval rfl (fun _ => pton4_error s _ _ _ _) (inetPton4_iff s)

theorem accepts6_iff (s : List Char) (dst : List UInt8) : Accepts .inet6 s dst (Text6 s) ↔ LengthFits s := by
  by_cases hmem : '%' ∈ s
  · obtain ⟨a, z, rfl, ha⟩ := eq_append_cons_of_mem hmem
    unfold LengthFits Text6
    simp only [takeWhile_zone ha, hmem, true_imp_iff]
    have hread := uvInetPton_zone ha z
    by_cases hlong : 45 < CInt.ofNat a.length
    · rw [if_pos hlong] at hread
      have := CInt.ofNat_le a.length
      refine iff_of_true ((accepts_of_error hread).2 ⟨fun bs h => ?_, rfl⟩) (.inr (.inl hlong))
      omega
    rw [if_neg hlong] at hread
    by_cases hshort : a.length < 2 ^ 31
    · have hlen := CInt.ofNat_of_lt hshort
      rw [hlen, if_neg (by omega), Int.toNat_natCast, take_length] at hread
      refine iff_of_true (accepts_einval hread (fun _ => inetPton6_error) fun bs => ?_) (.inl hshort)
      rw [inetPton6_iff]
      exact (and_iff_left (by omega)).symm
    have hno (bs : List UInt8) : ¬(Text a bs ∧ a.length ≤ 45) := fun h => by omega
    rw [or_iff_right hshort, or_iff_right hlong]
    by_cases hneg : CInt.ofNat a.length < 0
    · rw [if_pos hneg] at hread
      rw [accepts_of_error hread]
      exact iff_of_false (fun h => nomatch h.2) fun h => hneg.not_ge h.1
    rw [if_neg hneg] at hread
    rw [and_iff_right (not_lt.1 hneg)]
    cases hcut : inetPton6 (a.take (CInt.ofNat a.length).toNat) with
    | ok bs =>
      rw [accepts_of_ok (hread.trans hcut)]
      exact iff_of_false (fun h => hno bs ((h bs).1 rfl)) fun h => h bs ((inetPton6_iff _ _).1 hcut)
    | error err =>
      rw [accepts_of_error (hread.trans hcut)]
      refine iff_of_true ⟨hno, inetPton6_error hcut⟩ fun bs h => ?_
      rw [(inetPton6_iff _ _).2 h] at hcut
      cases hcut
  · have hall : s.takeWhile (· ≠ '%') = s := by
      have happend := @takeWhile_append_of_pos _ _ s [] (ne_of_not_mem hmem)
      rwa [takeWhile_nil, append_nil] at happend
    refine iff_of_true (accepts_einval (uvInetPton_bare hmem) (fun _ => inetPton6_error) fun bs => ?_) fun h => absurd h hmem
    rw [inetPton6_iff, Text6, hall]
    exact (and_iff_left fun h => absurd h hmem).symm

/-- **`uv_inet_pton` accepts exactly its grammar** where the length before a zone, as an `int`, lets no other text through. Where the
text denotes an address, that is what is stored; where it denotes none, `dst` stays as it was. -/
theorem inet_grammar_iff (s : List Char) (dst : List UInt8) :
    Accepts .inet s dst (Quad s) ∧ Accepts .inet6 s dst (Text6 s) ↔ LengthFits s := by
  rw [and_iff_right (accepts4 s dst), accepts6_iff]

theorem long_zone {m : ℕ} (hm : CInt.ofNat (m + 3) = 3) (hlong : 42 < m) {s : List Char}
    (hs : s = ':' :: ':' :: '1' :: replicate m '0' ++ '%' :: []) (dst : List UInt8) :
    inetPtonInto .inet6 s dst = (none, replicate 15 0 ++ [1]) ∧ ∀ bs, ¬Text6 s bs := by
  have ha : '%' ∉ ':' :: ':' :: '1' :: replicate m '0' := by simp
  constructor
  · have hread : inetPton6 [':', ':', '1'] = .ok (replicate 15 0 ++ [1]) := rfl
    have hcut : uvInetPton .inet6 s = .ok (replicate 15 0 ++ [1]) := by
      rw [hs, uvInetPton_zone ha]
      simp only [length_cons, length_replicate, hm]
      exact hread
    rw [inetPtonInto, hcut]
  · rintro bs ⟨-, hle⟩
    rw [hs, takeWhile_zone ha] at hle
    have := hle (by simp)
    simp only [length_cons, length_replicate] at this
    omega

/-- `::1` with 2^32 zeros behind it and a zone: the length as an `int` is 3, and the text is taken for `::1`. -/
theorem inet_grammar_long :
    ∃ s, s = ':' :: ':' :: '1' :: replicate (2 ^ 32) '0' ++ '%' :: [] ∧
      inetPtonInto .inet6 s (replicate 16 0) = (none, replicate 15 0 ++ [1]) ∧ ∀ bs, ¬Text6 s bs := by
  obtain ⟨s, hs⟩ : ∃ s, s = ':' :: ':' :: '1' :: replicate (2 ^ 32) '0' ++ '%' :: [] := ⟨_, rfl⟩
  exact ⟨s, hs, long_zone (by decide) (by decide) hs _⟩

end Libuv.L1.Inet
