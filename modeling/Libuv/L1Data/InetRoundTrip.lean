import Libuv.L1Data.Inet

/-!
# The round trip of an address

What `uv_inet_ntop` prints, `uv_inet_pton` reads back. The printer's text is one of three: the
eight words; the words before the run, `::`, the words behind it; `::`, perhaps `ffff:`, and
a dotted quad. The parser is followed over each of them, word by word.

* `inet_round_trip` — the round trip for both families, and when the printer has no room
-/
namespace Libuv.L1.Inet

open List

/-! ## Digits -/

theorem toDigits_eq_map {b : ℕ} (hb : 1 < b) (n : ℕ) :
    ∃ ds : List ℕ, Nat.toDigits b n = ds.map Nat.digitChar ∧ (∀ d ∈ ds, d < b) ∧
      ds.foldl (fun v d => v * b + d) 0 = n := by
  induction n using Nat.strongRecOn with
  | _ n ih =>
    by_cases hn : n < b
    · exact ⟨[n], by simp [Nat.toDigits_of_lt_base hn], by simpa using hn, by simp⟩
    · obtain ⟨ds, hds, hlt, hv⟩ := ih (n / b) (Nat.div_lt_self (by omega) hb)
      refine ⟨ds ++ [n % b], ?_, ?_, ?_⟩
      · simp [Nat.toDigits_of_base_le hb (Nat.le_of_not_lt hn), hds]
      · exact forall_mem_append.2 ⟨hlt, by simpa using Nat.mod_lt n (by omega)⟩
      · rw [foldl_append, hv, foldl_cons, foldl_nil, Nat.div_add_mod']

theorem digits_idxOf : ∀ d < 10, digits.idxOf? d.digitChar = some d := by decide

theorem xdigit_digitChar : ∀ d < 16, xdigit d.digitChar = some d := by decide

/-! ## The dotted quad -/

theorem pton4_digit {d octets cur : ℕ} {before : List UInt8} {src : List Char} (hd : d < 10) (hcur : cur ≠ 0)
    (hnw : cur * 10 + d ≤ 255) :
    pton4 (d.digitChar :: src) true octets before cur = pton4 src true octets before (cur * 10 + d) := by
  simp [pton4, digits_idxOf d hd, hcur, Nat.not_lt.2 hnw]

theorem pton4_octet (n octets : ℕ) (before : List UInt8) (src : List Char) (hn : n ≤ 255) (ho : octets < 4) :
    pton4 (Nat.toDigits 10 n ++ src) false octets before 0 = pton4 src true (octets + 1) before n := by
  induction n using Nat.strongRecOn generalizing src with
  | _ n ih =>
    by_cases h10 : n < 10
    · simp [Nat.toDigits_of_lt_base h10, pton4, digits_idxOf n h10, Nat.not_lt.2 hn, Nat.not_lt.2 ho]
    · rw [Nat.toDigits_of_base_le (by decide) (by omega), append_assoc, ih (n / 10) (by omega) _ (by omega)]
      simp only [singleton_append]
      rw [pton4_digit (Nat.mod_lt n (by decide)) (by omega) (by omega), Nat.div_add_mod']

theorem pton4_dot {octets cur : ℕ} {before : List UInt8} {src : List Char} (ho : octets ≠ 4) :
    pton4 ('.' :: src) true octets before cur = pton4 src false octets (before ++ [UInt8.ofNat cur]) 0 := by
  have h : digits.idxOf? '.' = none := by decide
  simp [pton4, h, ho]

theorem inetPton4_dotted (src : ℕ → UInt8) : inetPton4 (dotted src) = .ok [src 0, src 1, src 2, src 3] := by
  have hb (i : ℕ) : (src i).toNat ≤ 255 := Nat.le_of_lt_succ (src i).toNat_lt
  unfold inetPton4 dotted
  rw [pton4_octet _ _ _ _ (hb 0) (by decide), pton4_dot (by decide), pton4_octet _ _ _ _ (hb 1) (by decide),
    pton4_dot (by decide), pton4_octet _ _ _ _ (hb 2) (by decide), pton4_dot (by decide), ← append_nil
    (Nat.toDigits 10 (src 3).toNat), pton4_octet _ _ _ _ (hb 3) (by decide)]
  simp [pton4]

theorem octet_length (b : UInt8) : (Nat.toDigits 10 b.toNat).length ≤ 3 :=
  (Nat.length_toDigits_le_iff (by decide) (by decide)).2 (b.toNat_lt.trans (by decide))

theorem dotted_length (src : ℕ → UInt8) : 0 < (dotted src).length ∧ (dotted src).length < UV_INET_ADDRSTRLEN := by
  have h (i : ℕ) := octet_length (src i)
  simp only [dotted, length_append, length_cons, UV_INET_ADDRSTRLEN]
  exact ⟨by omega, by have := h 0; have := h 1; have := h 2; have := h 3; omega⟩

theorem inetNtop4_eq (src : ℕ → UInt8) (size : ℕ) :
    inetNtop4 src size = if (dotted src).length < size then .ok (dotted src) else .error .enospc := by
  obtain ⟨h0, h16⟩ := dotted_length src
  have htmp : (dotted src).take (UV_INET_ADDRSTRLEN - 1) = dotted src := take_of_length_le (by omega)
  by_cases hs : (dotted src).length < size
  · simp [inetNtop4, htmp, strscpy, hs, Nat.not_le.2 hs, Nat.ne_of_gt h0]
  · simp [inetNtop4, hs, Nat.le_of_not_lt hs]

/-! ## The words -/

theorem words_eq (src : ℕ → UInt8) : ∀ i < 8, words src i = (src (2 * i)).toNat <<< 8 ||| (src (2 * i + 1)).toNat := by
  intro i hi
  interval_cases i <;> simp [words, List.range, List.range.loop, Function.update]

theorem words_lt (src : ℕ → UInt8) {i : ℕ} (hi : i < 8) : words src i < 2 ^ 16 := by
  have h0 := (src (2 * i)).toNat_lt
  have h1 := (src (2 * i + 1)).toNat_lt
  rw [words_eq src i hi, ← Nat.shiftLeft_add_eq_or_of_lt h1]
  omega

theorem range'_words_lt (src : ℕ → UInt8) {b n : ℕ} (h : b + n ≤ 8) :
    ∀ w ∈ (List.range' b n).map (words src), w < 2 ^ 16 := by
  intro w hw
  obtain ⟨i, hi, rfl⟩ := mem_map.1 hw
  exact words_lt src ((mem_range'_1.1 hi).2.trans_le h)

theorem group_words (src : ℕ → UInt8) {i : ℕ} (hi : i < 8) : group (words src i) = [src (2 * i), src (2 * i + 1)] := by
  have h1 := (src (2 * i + 1)).toNat_lt
  rw [words_eq src i hi, ← Nat.shiftLeft_add_eq_or_of_lt h1, Nat.shiftLeft_eq]
  have hhi : ((src (2 * i)).toNat * 2 ^ 8 + (src (2 * i + 1)).toNat) >>> 8 = (src (2 * i)).toNat := by
    rw [Nat.shiftRight_eq_div_pow]; omega
  simp only [group, hhi, UInt8.ofNat_toNat, List.cons.injEq, true_and, and_true]
  exact UInt8.toNat_inj.1 (by simp)

theorem bytes_words (src : ℕ → UInt8) :
    ((List.range 8).map (words src)).flatMap group = (List.range 16).map src := by
  have h (i : ℕ) (hi : i < 8) := group_words src hi
  simp [List.range, List.range.loop, h]

/-! ## The printer -/

/-- A run of zero words, all of them before `i`. -/
def Run.Zero (words : ℕ → ℕ) (run : Run) (i : ℕ) : Prop :=
  run.base = -1 ∨ ∃ b : ℕ, run.base = b ∧ b + run.len ≤ i ∧ ∀ j, b ≤ j → j < b + run.len → words j = 0

theorem Run.Zero.mono {words : ℕ → ℕ} {run : Run} {i j : ℕ} (h : run.Zero words i) (hij : i ≤ j) : run.Zero words j :=
  h.imp_right fun ⟨b, hb, hle, hz⟩ => ⟨b, hb, hle.trans hij, hz⟩

/-- The scan after `i` words: both runs are zero words, and the current one ends at `i`. -/
def Scanned (words : ℕ → ℕ) (i : ℕ) (s : Run × Run) : Prop :=
  s.1.Zero words i ∧ s.2.Zero words i ∧ (s.2.base = -1 ∨ s.2.base + s.2.len = i)

theorem scanned_step {words : ℕ → ℕ} {i : ℕ} {s : Run × Run} (h : Scanned words i s) :
    Scanned words (i + 1) (scanStep words s i) := by
  obtain ⟨best, cur⟩ := s
  obtain ⟨hbest, hcur, hend⟩ := h
  have hbest' := hbest.mono (Nat.le_succ i)
  unfold scanStep
  by_cases hw : words i = 0
  · simp only [hw, if_true]
    by_cases hb : cur.base = -1
    · refine ⟨hbest', ?_, .inr ?_⟩
      · exact .inr ⟨i, by simp [hb], by simp [hb], by
          intro j hij hji; simp only [hb, if_true] at hji; obtain rfl : j = i := by omega
          exact hw⟩
      · simp [hb]
    · obtain ⟨b, hcb, hle, hz⟩ := hcur.resolve_left hb
      have hnext : (if cur.base = -1 then ⟨i, 1⟩ else { cur with len := cur.len + 1 }) = (⟨b, cur.len + 1⟩ : Run) := by
        rw [if_neg hb, ← hcb]
      have hlen : b + cur.len = i := by have := hend.resolve_left hb; simp only at *; omega
      rw [hnext]
      refine ⟨hbest', .inr ⟨b, rfl, by simp only; omega, ?_⟩, .inr ?_⟩
      · intro j hbj hj
        by_cases hji : j = i
        · exact hji ▸ hw
        · exact hz j hbj (by simp only at *; omega)
      · simp only; omega
  · simp only [hw, if_false]
    by_cases hb : cur.base = -1
    · simp only [hb, ne_eq, not_true, if_false]
      exact ⟨hbest', .inl hb, .inl hb⟩
    · simp only [ne_eq, hb, not_false_eq_true, if_true]
      refine ⟨?_, .inl rfl, .inl rfl⟩
      split
      · exact hcur.mono (Nat.le_succ i)
      · exact hbest'

theorem scanned_fold (words : ℕ → ℕ) (n : ℕ) :
    Scanned words n ((List.range n).foldl (scanStep words) (⟨-1, 0⟩, ⟨-1, 0⟩)) := by
  induction n with
  | zero => exact ⟨.inl rfl, .inl rfl, .inl rfl⟩
  | succ n ih => simpa [range_succ] using scanned_step ih

/-- **The run that becomes `::` is at least two zero words.** -/
theorem bestRun_spec (words : ℕ → ℕ) : (bestRun words).base = -1 ∨
    ∃ b n : ℕ, bestRun words = ⟨b, n⟩ ∧ 2 ≤ n ∧ b + n ≤ 8 ∧ ∀ j, b ≤ j → j < b + n → words j = 0 := by
  obtain ⟨hbest, hcur, -⟩ := scanned_fold words 8
  unfold bestRun
  generalize (List.range 8).foldl (scanStep words) (⟨-1, 0⟩, ⟨-1, 0⟩) = s at hbest hcur
  obtain ⟨best, cur⟩ := s
  simp only
  generalize hr : (if cur.base ≠ -1 ∧ (best.base = -1 ∨ best.len < cur.len) then cur else best) = run
  have hrun : run.Zero words 8 := by
    rw [← hr]; split
    · exact hcur
    · exact hbest
  obtain hb | ⟨b, hb, hle, hz⟩ := hrun
  · left; simp [hb]
  · by_cases hlen : run.len < 2
    · left; simp [hb, hlen]
    · exact .inr ⟨b, run.len, by rw [if_neg (by simp [hlen]), ← hb], by omega, hle, hz⟩

def sep (ws : List ℕ) : List Char := ws.flatMap fun w => ':' :: Nat.toDigits 16 w

def joined : List ℕ → List Char
  | [] => []
  | w :: ws => Nat.toDigits 16 w ++ sep ws

section Format

variable {src : ℕ → UInt8} {words : ℕ → ℕ} {best : Run}

theorem format_skip {is : List ℕ} (js : List ℕ) (tp : List Char) (h : ∀ i ∈ is, best.Inside i ∧ best.base ≠ i) :
    format src words best (is ++ js) tp = format src words best js tp := by
  induction is with
  | nil => rfl
  | cons i is ih =>
    obtain ⟨hin, hb⟩ := h i mem_cons_self
    rw [cons_append, format, if_pos hin, if_neg hb]
    exact ih fun j hj => h j (mem_cons_of_mem i hj)

theorem format_sep {is : List ℕ} (js : List ℕ) (tp : List Char)
    (h : ∀ i ∈ is, i ≠ 0 ∧ ¬best.Inside i ∧ ¬Encapsulated words best i) :
    format src words best (is ++ js) tp = format src words best js (tp ++ sep (is.map words)) := by
  induction is generalizing tp with
  | nil => simp [sep]
  | cons i is ih =>
    obtain ⟨h0, hin, henc⟩ := h i mem_cons_self
    rw [cons_append, format, if_neg hin]
    simp only [h0, henc, ne_eq, not_false_eq_true, if_true, if_false]
    rw [ih _ fun j hj => h j (mem_cons_of_mem i hj)]
    simp [sep]

theorem format_front {k : ℕ} (js : List ℕ) (h : ∀ i < k, ¬best.Inside i ∧ ¬Encapsulated words best i) :
    format src words best (List.range' 0 k ++ js) [] = format src words best js (joined ((List.range' 0 k).map words)) := by
  cases k with
  | zero => rfl
  | succ k =>
    obtain ⟨hin, henc⟩ := h 0 (Nat.succ_pos k)
    rw [range'_succ, cons_append, format, if_neg hin]
    simp only [ne_eq, not_true, if_false, henc, nil_append]
    rw [format_sep]
    · rfl
    · intro i hi
      obtain ⟨h1, hk⟩ := mem_range'_1.1 hi
      exact ⟨by omega, h i (by omega)⟩

theorem format_gap {b n : ℕ} (hbest : best = ⟨b, n⟩) (hn : 2 ≤ n) (js : List ℕ) (tp : List Char) :
    format src words best (List.range' b n ++ js) tp = format src words best js (tp ++ [':']) := by
  obtain ⟨m, rfl⟩ := Nat.exists_eq_add_of_lt (show 0 < n by omega)
  have hin : best.Inside b := by subst hbest; exact ⟨by simp, by simp, by simp⟩
  rw [range'_succ, cons_append, format, if_pos hin, if_pos (by rw [hbest])]
  apply format_skip
  intro i hi
  obtain ⟨h1, hk⟩ := mem_range'_1.1 hi
  subst hbest
  exact ⟨⟨by simp, by simp only; omega, by simp only; omega⟩, by simp only; omega⟩

theorem not_inside {b n i : ℕ} (h : i < b ∨ b + n ≤ i) : ¬Run.Inside ⟨b, n⟩ i := by
  simp only [Run.Inside]; omega

theorem format_plain (hbase : best.base = -1) :
    format src words best (List.range 8) [] = .ok (joined ((List.range 8).map words)) := by
  have h := @format_front src words best 8 [] fun i _ => ⟨fun hin => hin.1 hbase, fun henc => by
    have := henc.2.1; omega⟩
  rwa [append_nil] at h

theorem format_run {b n : ℕ} (hbest : best = ⟨b, n⟩) (hn : 2 ≤ n) (hle : b + n ≤ 8) (henc : Encapsulated words best 6 → best.Inside 6) :
    format src words best (List.range 8) [] = .ok (joined ((List.range' 0 b).map words) ++ [':'] ++
      sep ((List.range' (b + n) (8 - (b + n))).map words)) := by
  have hsplit : List.range 8 = List.range' 0 b ++ (List.range' b n ++ (List.range' (b + n) (8 - (b + n)) ++ [])) := by
    have h0 := @range'_append_1 0 b (n + (8 - (b + n)))
    rw [Nat.zero_add] at h0
    rw [append_nil, range'_append_1, h0, range_eq_range', show b + (n + (8 - (b + n))) = 8 by omega]
  have hnot {i : ℕ} (hin : ¬best.Inside i) : ¬best.Inside i ∧ ¬Encapsulated words best i :=
    ⟨hin, fun h => by obtain rfl := h.1; exact hin (henc h)⟩
  rw [hsplit, format_front, format_gap hbest hn, format_sep]
  · rfl
  · intro i hi
    obtain ⟨h1, -⟩ := mem_range'_1.1 hi
    exact ⟨by omega, hnot (hbest ▸ not_inside (.inr h1))⟩
  · exact fun i hi => hnot (hbest ▸ not_inside (.inl hi))

theorem format_encapsulated {n : ℕ} (hbest : best = ⟨0, n⟩) (hn : n = 6 ∨ n = 5) (henc : Encapsulated words best 6) :
    format src words best (List.range 8) [] = .ok ([':'] ++ sep ((List.range' n (6 - n)).map words) ++ [':'] ++
      dotted fun j => src (12 + j)) := by
  have hsplit : List.range 8 = List.range' 0 n ++ (List.range' n (6 - n) ++ 6 :: [7]) := by
    obtain rfl | rfl := hn <;> rfl
  have hin : ¬best.Inside 6 := by rw [hbest]; exact not_inside (b := 0) (.inr (by omega))
  rw [hsplit, format_gap hbest (by omega), format_sep]
  · have hd := (dotted_length fun j => src (12 + j)).2
    rw [format, if_neg hin]
    simp only [henc, if_true, ne_eq, OfNat.ofNat_ne_zero, not_false_eq_true]
    rw [inetNtop4_eq, if_pos]
    · rfl
    · refine hd.trans_le ?_
      obtain rfl | rfl := hn
      · simp [sep, UV_INET_ADDRSTRLEN, UV_INET6_ADDRSTRLEN]
      · have h5 : words 5 = 0xffff := by have := henc.2.2; simp only [hbest] at this; omega
        simp [sep, h5, UV_INET_ADDRSTRLEN, UV_INET6_ADDRSTRLEN]
        decide
  · intro i hi
    obtain ⟨h1, h2⟩ := mem_range'_1.1 hi
    exact ⟨by omega, hbest ▸ not_inside (b := 0) (.inr (by omega)), fun h => by have := h.1; omega⟩

end Format

/-! ## The parser -/

section Parse

variable {out : List UInt8} {colonp : Option ℕ} {tok : List Char}

theorem pton6_digits (ds : List ℕ) (seen val : ℕ) (src : List Char) (hds : ∀ d ∈ ds, d < 16) (hlen : seen + ds.length ≤ 4) :
    pton6 ⟨out, colonp, tok, seen, val⟩ (ds.map Nat.digitChar ++ src) =
      pton6 ⟨out, colonp, tok, seen + ds.length, ds.foldl (fun v d => v * 16 + d) val⟩ src := by
  induction ds generalizing seen val with
  | nil => rfl
  | cons d ds ih =>
    have hd := hds d mem_cons_self
    have hv : val <<< 4 ||| d = val * 16 + d := by
      rw [← Nat.shiftLeft_add_eq_or_of_lt (show d < 2 ^ 4 from hd), Nat.shiftLeft_eq]
    rw [length_cons] at hlen
    simp only [map_cons, cons_append, pton6, xdigit_digitChar d hd]
    rw [if_neg (by omega), ih _ _ (fun e he => hds e (mem_cons_of_mem d he)) (by omega), hv]
    simp [Nat.add_comm, Nat.add_left_comm]

theorem word_length {w : ℕ} (hw : w < 2 ^ 16) : (Nat.toDigits 16 w).length ≤ 4 :=
  (Nat.length_toDigits_le_iff (by decide) (by decide)).2 hw

/-- The parser has read the word `w`. -/
def after (out : List UInt8) (colonp : Option ℕ) (tok : List Char) (w : ℕ) : Pton6 :=
  ⟨out, colonp, tok, (Nat.toDigits 16 w).length, w⟩

theorem pton6_word {w : ℕ} (hw : w < 2 ^ 16) (src : List Char) :
    pton6 ⟨out, colonp, tok, 0, 0⟩ (Nat.toDigits 16 w ++ src) = pton6 (after out colonp tok w) src := by
  obtain ⟨ds, hds, hlt, hv⟩ := toDigits_eq_map (b := 16) (by decide) w
  have hlen := word_length hw
  rw [after, hds, length_map] at *
  rw [pton6_digits ds 0 0 src hlt (by omega), hv, Nat.zero_add]

theorem pton6_colon {w : ℕ} {src : List Char} (hsrc : src ≠ []) (hlen : out.length + 2 ≤ 16) :
    pton6 (after out colonp tok w) (':' :: src) = pton6 ⟨out ++ group w, colonp, src, 0, 0⟩ src := by
  have hx : xdigit ':' = none := by decide
  simp [after, pton6, hx, hsrc, Nat.toDigits_ne_nil, Nat.not_lt.2 hlen]

theorem pton6_gap (src : List Char) :
    pton6 ⟨out, none, tok, 0, 0⟩ (':' :: src) = pton6 ⟨out, some out.length, src, 0, 0⟩ src := by
  have hx : xdigit ':' = none := by decide
  simp [pton6, hx]

theorem pton6_words (ws : List ℕ) (w : ℕ) (hw : ∀ v ∈ w :: ws, v < 2 ^ 16) (hlen : out.length + 2 * (w :: ws).length ≤ 16) :
    (pton6 (after out colonp tok w) (sep ws)).bind finish =
      finish ⟨out ++ (w :: ws).flatMap group, colonp, [], 0, 0⟩ := by
  induction ws generalizing out tok w with
  | nil =>
    have h : ¬16 < out.length + 2 := by simpa using hlen
    simp [sep, pton6, after, Except.bind, finish, Nat.toDigits_ne_nil, h]
  | cons v ws ih =>
    have hcons : sep (v :: ws) = ':' :: (Nat.toDigits 16 v ++ sep ws) := rfl
    simp only [length_cons] at hlen
    rw [hcons, pton6_colon (by simp [Nat.toDigits_ne_nil]) (by omega), pton6_word (hw v (by simp)),
      ih v (fun x hx => hw x (mem_cons_of_mem w hx)) (by simp [group]; omega)]
    simp

theorem pton6_front (ws : List ℕ) (w : ℕ) (src : List Char) (hw : ∀ v ∈ w :: ws, v < 2 ^ 16)
    (hlen : out.length + 2 * (w :: ws).length ≤ 16) :
    pton6 (after out none tok w) (sep ws ++ ':' :: ':' :: src) =
      pton6 ⟨out ++ (w :: ws).flatMap group, some (out ++ (w :: ws).flatMap group).length, src, 0, 0⟩ src := by
  induction ws generalizing out tok w with
  | nil =>
    rw [sep, flatMap_nil, nil_append, pton6_colon (by simp) (by simpa using hlen), pton6_gap]
    simp
  | cons v ws ih =>
    have hcons : sep (v :: ws) ++ ':' :: ':' :: src = ':' :: (Nat.toDigits 16 v ++ (sep ws ++ ':' :: ':' :: src)) := by
      simp [sep]
    simp only [length_cons] at hlen
    rw [hcons, pton6_colon (by simp [Nat.toDigits_ne_nil]) (by omega), pton6_word (hw v (by simp)),
      ih v (fun x hx => hw x (mem_cons_of_mem w hx)) (by simp [group]; omega)]
    simp

theorem pton6_dotted (src : ℕ → UInt8) (hlen : out.length + 4 ≤ 16) :
    (pton6 ⟨out, colonp, dotted src, 0, 0⟩ (dotted src)).bind finish =
      finish ⟨out ++ [src 0, src 1, src 2, src 3], colonp, [], 0, 0⟩ := by
  obtain ⟨ds, hds, hlt, -⟩ := toDigits_eq_map (b := 10) (by decide) (src 0).toNat
  have hle := octet_length (src 0)
  have hx : xdigit '.' = none := by decide
  have hd : ∃ tail, dotted src = ds.map Nat.digitChar ++ '.' :: tail := ⟨_, by rw [dotted, hds]⟩
  obtain ⟨tail, hd⟩ := hd
  conv_lhs => enter [1, 2]; rw [hd]
  rw [hds, length_map] at hle
  rw [pton6_digits ds 0 0 _ (fun d h => (hlt d h).trans (by decide)) (by omega)]
  simp [pton6, hx, hlen, inetPton4_dotted, Except.bind, finish]

/-! ## The gap -/

theorem shiftStep_eq {c n i g : ℕ} (before moved : List UInt8) (x : UInt8) (hb : before.length = c + (n - (i + 1)))
    (hm : before.length + g + 1 = 16 - (i + 1)) :
    shiftStep c n (before ++ x :: (List.replicate (g + 1) 0 ++ moved)) i =
      before ++ (List.replicate (g + 1) 0 ++ x :: moved) := by
  have hsplit : List.replicate (g + 1) (0 : UInt8) = List.replicate g 0 ++ [0] := replicate_succ'
  have hget : (before ++ x :: (List.replicate (g + 1) 0 ++ moved)).getD before.length 0 = x := by
    simp [getD_eq_getElem?_getD]
  have hlast : (before ++ x :: (List.replicate (g + 1) 0 ++ moved)).set (before.length + g + 1) x =
      before ++ x :: (List.replicate g 0 ++ x :: moved) := by
    rw [hsplit, Nat.add_assoc, set_append_right _ _ (by omega), Nat.add_sub_cancel_left, set_cons_succ,
      append_assoc, set_append_right _ _ (by simp)]
    simp
  have hfirst : (before ++ x :: (List.replicate g 0 ++ x :: moved)).set before.length 0 =
      before ++ (List.replicate (g + 1) 0 ++ x :: moved) := by
    rw [set_append_right _ _ le_rfl, Nat.sub_self, set_cons_zero, replicate_succ, cons_append]
  rw [shiftStep, ← hb, ← hm, hget, hlast, hfirst]

/-- **The shift by hand moves the bytes behind the gap to the end.** -/
theorem shift_fold (pre post : List UInt8) (g k : ℕ) (hk : k ≤ post.length) (hlen : pre.length + post.length + g = 16)
    (hg : 0 < g) :
    (List.range k).foldl (shiftStep pre.length post.length) (pre ++ post ++ List.replicate g 0) =
      pre ++ post.take (post.length - k) ++ List.replicate g 0 ++ post.drop (post.length - k) := by
  induction k with
  | zero => simp
  | succ k ih =>
    obtain ⟨g, rfl⟩ := Nat.exists_eq_add_of_lt hg
    have hlt : post.length - (k + 1) < post.length := by omega
    have hx : post.length - k = post.length - (k + 1) + 1 := by omega
    have htake : post.take (post.length - k) = post.take (post.length - (k + 1)) ++ [post[post.length - (k + 1)]] := by
      rw [hx, take_succ_eq_append_getElem hlt]
    have hdrop : post.drop (post.length - (k + 1)) = post[post.length - (k + 1)] :: post.drop (post.length - k) := by
      rw [hx, drop_eq_getElem_cons hlt]
    have hstep := shiftStep_eq (c := pre.length) (n := post.length) (i := k) (g := g)
      (pre ++ post.take (post.length - (k + 1))) (post.drop (post.length - k)) post[post.length - (k + 1)]
      (by simp) (by simp; omega)
    rw [range_succ, foldl_append, ih (by omega), foldl_cons, foldl_nil, htake, hdrop]
    simpa only [append_assoc, cons_append, nil_append, Nat.zero_add] using hstep

/-- **After the gap the parser has the bytes before it, zeros, and the bytes behind it.** -/
theorem finish_gap (pre post tok : List _) (h : pre.length + post.length < 16) :
    finish ⟨pre ++ post, some pre.length, tok, 0, 0⟩ =
      .ok (pre ++ List.replicate (16 - (pre.length + post.length)) 0 ++ post) := by
  have hfold := shift_fold pre post (16 - (pre.length + post.length)) post.length le_rfl (by omega) (by omega)
  rw [Nat.sub_self, take_zero, append_nil, drop_zero] at hfold
  simp only [finish, ne_eq, not_true, false_and, if_false, length_append, Nat.add_sub_cancel_left]
  rw [if_neg (by omega), hfold]

end Parse

/-! ## The round trip -/

variable {b n : ℕ} {src : ℕ → UInt8}

theorem not_mem_digits (hb : 1 < b) (h16 : b ≤ 16) : '%' ∉ Nat.toDigits b n ∧ ':' ∉ Nat.toDigits b n := by
  have hd : ∀ d < 16, d.digitChar ≠ '%' ∧ d.digitChar ≠ ':' := by decide +kernel
  obtain ⟨ds, hds, hlt, -⟩ := toDigits_eq_map hb n
  rw [hds]
  constructor <;>
  · intro hmem
    obtain ⟨d, hdm, hdc⟩ := mem_map.1 hmem
    have := hd d ((hlt d hdm).trans_le h16)
    tauto

theorem not_mem_sep (ws : List ℕ) : '%' ∉ sep ws := by
  simp [sep, mem_flatMap, (not_mem_digits (b := 16) (by decide) le_rfl).1]

theorem not_mem_joined (ws : List ℕ) : '%' ∉ joined ws := by
  cases ws with
  | nil => simp [joined]
  | cons w ws => simp [joined, (not_mem_digits (b := 16) (by decide) le_rfl).1, not_mem_sep]

theorem not_mem_dotted (src : ℕ → UInt8) : '%' ∉ dotted src := by
  simp [dotted, (not_mem_digits (b := 10) (by decide) (by decide)).1]

theorem sep_length (ws : List ℕ) (hw : ∀ w ∈ ws, w < 2 ^ 16) : (sep ws).length ≤ 5 * ws.length := by
  induction ws with
  | nil => simp [sep]
  | cons w ws ih =>
    have := ih fun v hv => hw v (mem_cons_of_mem w hv)
    have := word_length (hw w mem_cons_self)
    simp only [sep, flatMap_cons, length_append, length_cons] at *
    omega

theorem joined_length (ws : List ℕ) (hw : ∀ w ∈ ws, w < 2 ^ 16) : (joined ws).length ≤ 5 * ws.length := by
  cases ws with
  | nil => simp [joined]
  | cons w ws =>
    have := sep_length ws fun v hv => hw v (mem_cons_of_mem w hv)
    have := word_length (hw w mem_cons_self)
    simp only [joined, length_append, length_cons] at *
    omega

theorem group_length (ws : List ℕ) : (ws.flatMap group).length = 2 * ws.length := by
  induction ws with
  | nil => rfl
  | cons w ws ih => simp only [flatMap_cons, length_append, ih, group, length_cons, length_nil]; omega

theorem inetPton6_bare {text : List Char} (h : text.head? ≠ some ':') :
    inetPton6 text = (pton6 ⟨[], none, text, 0, 0⟩ text).bind finish := by
  cases text with
  | nil => rfl
  | cons ch text =>
    have hch : ch ≠ ':' := by simpa using h
    unfold inetPton6
    split
    · rename_i heq; exact absurd (List.cons.inj heq).1 hch
    · rfl

theorem head_joined (w : ℕ) (ws : List ℕ) (src : List Char) : (joined (w :: ws) ++ src).head? ≠ some ':' := by
  have hmem := (not_mem_digits (b := 16) (n := w) (by decide) le_rfl).2
  obtain ⟨ch, cs, hcs⟩ := exists_cons_of_ne_nil (Nat.toDigits_ne_nil (n := w) (b := 16))
  rw [hcs] at hmem
  rw [joined, hcs]
  simp only [cons_append, head?_cons, ne_eq, Option.some.injEq]
  rintro rfl
  exact hmem mem_cons_self

theorem inetPton6_front (front : List ℕ) (src : List Char) (hw : ∀ w ∈ front, w < 2 ^ 16) (hlen : front.length ≤ 8) :
    inetPton6 (joined front ++ ':' :: ':' :: src) =
      (pton6 ⟨front.flatMap group, some (front.flatMap group).length, src, 0, 0⟩ src).bind finish := by
  cases front with
  | nil =>
    change (pton6 ⟨[], none, ':' :: src, 0, 0⟩ (':' :: src)).bind finish = _
    rw [pton6_gap]
    rfl
  | cons w ws =>
    rw [inetPton6_bare (head_joined w ws _), joined, append_assoc, pton6_word (hw w mem_cons_self),
      pton6_front ws w src hw (by simpa using by simp only [length_cons] at hlen; omega)]
    rfl

theorem inetPton6_run (front rest : List ℕ) (hf : ∀ w ∈ front, w < 2 ^ 16) (hr : ∀ w ∈ rest, w < 2 ^ 16)
    (hlen : front.length + rest.length < 8) :
    inetPton6 (joined front ++ ':' :: ':' :: joined rest) =
      .ok (front.flatMap group ++ List.replicate (16 - 2 * (front.length + rest.length)) 0 ++ rest.flatMap group) := by
  have hgap (tok : List Char) := finish_gap (front.flatMap group) (rest.flatMap group) tok
    (by rw [group_length, group_length]; omega)
  rw [group_length, group_length, ← Nat.mul_add] at hgap
  rw [inetPton6_front front _ hf (by omega), group_length]
  cases rest with
  | nil =>
    simp only [flatMap_nil, append_nil] at hgap ⊢
    exact hgap []
  | cons w ws =>
    rw [joined, pton6_word (hr w mem_cons_self), pton6_words ws w hr (by rw [group_length]; omega)]
    exact hgap []

theorem inetPton6_plain (w : ℕ) (ws : List ℕ) (hw : ∀ v ∈ w :: ws, v < 2 ^ 16) (hlen : (w :: ws).length = 8) :
    inetPton6 (joined (w :: ws)) = .ok ((w :: ws).flatMap group) := by
  have hhead := head_joined w ws []
  rw [append_nil] at hhead
  rw [inetPton6_bare hhead, joined, pton6_word (hw w mem_cons_self), pton6_words ws w hw (by simp only [hlen]; decide)]
  have h16 : ((w :: ws).flatMap group).length = 16 := by rw [group_length, hlen]
  simp only [finish, nil_append, ne_eq, not_true, false_and, if_false, h16]

theorem inetPton6_encapsulated (rest : List ℕ) (quad : ℕ → UInt8) (hr : ∀ w ∈ rest, w < 2 ^ 16) (hlen : rest.length ≤ 1) :
    inetPton6 ([':'] ++ sep rest ++ [':'] ++ dotted quad) =
      .ok (List.replicate (12 - 2 * rest.length) 0 ++ rest.flatMap group ++ [quad 0, quad 1, quad 2, quad 3]) := by
  have hgap := finish_gap [] (rest.flatMap group ++ [quad 0, quad 1, quad 2, quad 3]) []
    (by simp only [length_append, group_length, length_cons, length_nil]; omega)
  match rest, hlen with
  | [], _ =>
    change inetPton6 (joined [] ++ ':' :: ':' :: dotted quad) = _
    rw [inetPton6_front [] _ nofun (by decide), pton6_dotted quad (by decide)]
    exact hgap
  | [w], _ =>
    have htext : [':'] ++ sep [w] ++ [':'] ++ dotted quad = joined [] ++ ':' :: ':' :: (Nat.toDigits 16 w ++ ':' :: dotted quad) := by
      simp [sep, joined]
    have hquad : dotted quad ≠ [] := ne_nil_of_length_pos (dotted_length quad).1
    rw [htext, inetPton6_front [] _ nofun (by decide), pton6_word (hr w mem_cons_self), flatMap_nil,
      pton6_colon hquad (by decide), pton6_dotted quad (by simp [group])]
    exact hgap

/-! ## Text and bytes of an address -/

theorem zero_words {words : ℕ → ℕ} (hz : ∀ j, b ≤ j → j < b + n → words j = 0) :
    ((List.range' b n).map words).flatMap group = List.replicate (2 * n) 0 := by
  have hmap : (List.range' b n).map words = List.replicate n 0 := by
    refine eq_replicate_iff.2 ⟨by simp, fun w hw => ?_⟩
    obtain ⟨j, hj, rfl⟩ := mem_map.1 hw
    obtain ⟨h1, h2⟩ := mem_range'_1.1 hj
    exact hz j h1 h2
  have hg : group 0 = List.replicate 2 0 := rfl
  rw [hmap, flatMap_replicate, hg, flatten_replicate_replicate, Nat.mul_comm]

theorem inetNtop6_eq {tp text : List Char}
    (h : format src (words src) (bestRun (words src)) (List.range 8) [] = .ok tp)
    (htext : text = if (bestRun (words src)).base ≠ -1 ∧ (bestRun (words src)).base + (bestRun (words src)).len = 8
      then tp ++ [':'] else tp) (size : ℕ) :
    inetNtop6 src size = if text.length < size then .ok text else .error .enospc := by
  unfold inetNtop6
  simp only [h, ← htext]
  by_cases hs : text.length < size
  · rw [if_neg (by omega), if_pos hs, strscpy, if_pos hs]
  · rw [if_pos (by omega), if_neg hs]

/-- The text of an address: what the printer writes where there is room, and what the parser reads as the address. -/
def TextOf (src : ℕ → UInt8) (text : List Char) : Prop :=
  text.length < UV_INET6_ADDRSTRLEN ∧ '%' ∉ text ∧ inetPton6 text = .ok ((List.range 16).map src) ∧
    ∀ size, inetNtop6 src size = if text.length < size then .ok text else .error .enospc

theorem text_plain (hbase : (bestRun (words src)).base = -1) : ∃ text, TextOf src text := by
  have hw : ∀ w ∈ (List.range 8).map (words src), w < 2 ^ 16 := by
    intro w hw
    obtain ⟨i, hi, rfl⟩ := mem_map.1 hw
    exact words_lt src (mem_range.1 hi)
  refine ⟨joined ((List.range 8).map (words src)), ?_, not_mem_joined _, ?_, inetNtop6_eq (format_plain hbase) (by simp [hbase])⟩
  · exact (joined_length _ hw).trans_lt (by simp [UV_INET6_ADDRSTRLEN])
  · rw [← bytes_words]
    exact inetPton6_plain _ _ hw (by simp)

theorem text_run (hbest : bestRun (words src) = ⟨b, n⟩) (hn : 2 ≤ n) (hle : b + n ≤ 8)
    (hz : ∀ j, b ≤ j → j < b + n → words src j = 0)
    (henc : Encapsulated (words src) (bestRun (words src)) 6 → (bestRun (words src)).Inside 6) : ∃ text, TextOf src text := by
  set front := (List.range' 0 b).map (words src) with hfront
  set rest := (List.range' (b + n) (8 - (b + n))).map (words src) with hrest
  have hf : ∀ w ∈ front, w < 2 ^ 16 := range'_words_lt src (by omega)
  have hr : ∀ w ∈ rest, w < 2 ^ 16 := range'_words_lt src (by omega)
  have hfl : front.length = b := by simp [hfront]
  have hrl : rest.length = 8 - (b + n) := by simp [hrest]
  have hbytes : front.flatMap group ++ List.replicate (16 - 2 * (b + (8 - (b + n)))) 0 ++ rest.flatMap group =
      (List.range 16).map src := by
    have h8 : List.range 8 = List.range' 0 b ++ List.range' b n ++ List.range' (b + n) (8 - (b + n)) := by
      have h0 := @range'_append_1 0 b n
      have h1 := @range'_append_1 0 (b + n) (8 - (b + n))
      rw [Nat.zero_add] at h0 h1
      rw [h0, h1, range_eq_range', show b + n + (8 - (b + n)) = 8 by omega]
    rw [← bytes_words, h8, map_append, map_append, flatMap_append, flatMap_append, zero_words hz,
      show 16 - 2 * (b + (8 - (b + n))) = 2 * n by omega]
  have htail : sep rest ++ (if b + n = 8 then [':'] else []) = ':' :: joined rest := by
    by_cases h8 : b + n = 8
    · have hnil : rest = [] := by rw [← length_eq_zero_iff, hrl]; omega
      simp [h8, hnil, sep, joined]
    · obtain ⟨w, ws, hws⟩ := exists_cons_of_ne_nil (l := rest) (by rintro h; rw [h] at hrl; simp at hrl; omega)
      simp [h8, hws, sep, joined]
  refine ⟨joined front ++ ':' :: ':' :: joined rest, ?_, ?_, ?_, inetNtop6_eq (format_run hbest hn hle henc) ?_⟩
  · have := joined_length _ hf
    have := joined_length _ hr
    simp only [length_append, length_cons, UV_INET6_ADDRSTRLEN]
    omega
  · simp [not_mem_joined]
  · rw [inetPton6_run front rest hf hr (by omega), hfl, hrl, hbytes]
  · rw [← htail, hbest]
    by_cases h8 : b + n = 8
    · rw [if_pos h8, if_pos ⟨by simp, by simp only; omega⟩]; simp [hfront, hrest]
    · rw [if_neg h8, if_neg (by simp only; omega)]; simp [hfront, hrest]

theorem text_encapsulated (hbest : bestRun (words src) = ⟨(0 : ℕ), n⟩) (hn : n = 6 ∨ n = 5)
    (hz : ∀ j, j < n → words src j = 0) (henc : Encapsulated (words src) (bestRun (words src)) 6) :
    ∃ text, TextOf src text := by
  set rest := (List.range' n (6 - n)).map (words src) with hrest
  have hr : ∀ w ∈ rest, w < 2 ^ 16 := range'_words_lt src (by omega)
  have hrl : rest.length = 6 - n := by simp [hrest]
  have hbytes : List.replicate (12 - 2 * (6 - n)) 0 ++ rest.flatMap group ++ [src 12, src 13, src 14, src 15] =
      (List.range 16).map src := by
    have h8 : List.range 8 = List.range' 0 n ++ List.range' n (6 - n) ++ [6, 7] := by obtain rfl | rfl := hn <;> rfl
    have hzero := zero_words (b := 0) (n := n) fun j _ hj => hz j (by omega)
    rw [← bytes_words, h8, map_append, map_append, flatMap_append, flatMap_append, hzero,
      show 12 - 2 * (6 - n) = 2 * n by omega]
    simp [group_words src (show 6 < 8 by decide), group_words src (show 7 < 8 by decide), hrest]
  refine ⟨[':'] ++ sep rest ++ [':'] ++ dotted fun j => src (12 + j), ?_, ?_, ?_, inetNtop6_eq (format_encapsulated hbest hn henc) ?_⟩
  · have := sep_length _ hr
    have := (dotted_length fun j => src (12 + j)).2
    simp only [length_append, length_cons, length_nil, UV_INET6_ADDRSTRLEN, UV_INET_ADDRSTRLEN] at *
    omega
  · simp [not_mem_sep, not_mem_dotted]
  · rw [inetPton6_encapsulated rest _ hr (by omega), hrl]
    exact congrArg _ hbytes
  · rw [hbest, if_neg (by simp only; omega)]

theorem exists_text (src : ℕ → UInt8) : ∃ text, TextOf src text := by
  obtain hbase | ⟨b, n, hbest, hn, hle, hz⟩ := bestRun_spec (words src)
  · exact text_plain hbase
  by_cases hrun : Encapsulated (words src) (bestRun (words src)) 6 → (bestRun (words src)).Inside 6
  · exact text_run hbest hn hle hz hrun
  -- an address with a quad: the run starts at the first word and ends before the quad
  obtain ⟨henc, hout⟩ := Classical.not_imp.1 hrun
  have hb := henc.2.1
  have hlen := henc.2.2
  rw [hbest] at hb hlen hout
  simp only [Run.Inside] at hb hlen hout
  obtain rfl : b = 0 := by omega
  exact text_encapsulated hbest (by omega) (fun j hj => hz j (Nat.zero_le j) (by omega)) henc

/-- **`uv_inet_pton` reads back what `uv_inet_ntop` printed.** Each address of either family has one text, which
fits its buffer; the printer writes it if it fits the destination with its terminator, and fails with
`UV_ENOSPC` if not; the parser reads it as the bytes of the address. -/
theorem inet_round_trip (src : ℕ → UInt8) :
    (∃ text, text.length < UV_INET6_ADDRSTRLEN ∧
      (∀ size, uvInetNtop .inet6 src size = if text.length < size then .ok text else .error .enospc) ∧
      uvInetPton .inet6 text = .ok ((List.range 16).map src)) ∧ ∃ text, text.length < UV_INET_ADDRSTRLEN ∧
      (∀ size, uvInetNtop .inet src size = if text.length < size then .ok text else .error .enospc) ∧
      uvInetPton .inet text = .ok ((List.range 4).map src) := by
  constructor
  · obtain ⟨text, hlen, hpercent, hread, hprint⟩ := exists_text src
    refine ⟨text, hlen, hprint, ?_⟩
    rw [uvInetPton, idxOf?_eq_none_iff.2 hpercent]
    exact hread
  · exact ⟨dotted src, (dotted_length src).2, inetNtop4_eq src, inetPton4_dotted src⟩

end Libuv.L1.Inet
