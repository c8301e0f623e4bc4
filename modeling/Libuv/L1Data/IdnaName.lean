import Libuv.L1Data.IdnaFit

/-!
# A name is converted label by label (`idna.c`)

`uv__idna_toascii` decodes the name once to find its dots, and `uv__idna_toascii_label` decodes each label again. What a label
becomes does not depend on what the destination has room for, and has no dot and no byte from 128 on. So a result is a name
again, with the same number of labels, and every label of it is written as it is.

* `toascii_labels`: the whole name, the result converted once more, and a destination that is too small.
-/
namespace Libuv.L1.Idna

open List

/-! ## Labels -/

/-- `label` becomes `x`, whatever the destination; what has no room is dropped. -/
def Converts (fuel : ℕ) (label x : List ℕ) : Prop :=
  ∃ rc, 0 ≤ rc ∧ ∀ de d, toasciiLabel fuel de (label.flatMap encode) d = .ret rc (putAll de d x)

def Refused (e : Exit) : Prop := ∃ rc d, rc < 0 ∧ e = .ret rc d

/-- A separator is written as `.`, also one with no label behind it. -/
def dots (xs : List (List ℕ)) : List ℕ := ['.'.toNat].intercalate xs

/-- The name `s` becomes `out`: a destination of `de` bytes receives the first ones of it and of the terminator. -/
def Yields (fuel : ℕ) (s : List UInt8) (out : List ℕ) : Prop :=
  ∀ de, toascii fuel de s = .ret ((out.map UInt8.ofNat ++ [0]).take de).length ((out.map UInt8.ofNat ++ [0]).take de)

/-- The bytes of an output that is in a name again. -/
def Plain (x : List ℕ) : Prop := ∀ c ∈ x, c < 128 ∧ isDot c = false

variable {xs : List (List ℕ)} {cs : List ℕ} {fuel : ℕ}

theorem dots_cons (x : List ℕ) (h : xs ≠ []) : dots (x :: xs) = x ++ '.'.toNat :: dots xs := by
  rw [dots, intercalate_cons_of_ne_nil h, append_assoc]
  rfl

theorem split_dots (hne : xs ≠ []) (h : ∀ x ∈ xs, Plain x) : (dots xs).splitOnP isDot = xs := by
  induction xs with
  | nil => exact absurd rfl hne
  | cons x xs ih =>
    have hx : ∀ c ∈ x, isDot c = false := fun c hc => (h x mem_cons_self c hc).2
    by_cases hnil : xs = []
    · rw [hnil, dots, intercalate_singleton, splitOnP_eq_singleton hx]
    · rw [dots_cons x hnil, splitOnP_append_cons_of_forall_mem hx _ (by decide),
        ih hnil fun y hy => h y (mem_cons_of_mem x hy)]

theorem dots_ascii (h : ∀ x ∈ xs, Plain x) : ∀ c ∈ dots xs, c < 128 := by
  induction xs with
  | nil => exact fun c hc => absurd hc not_mem_nil
  | cons x xs ih =>
    have hx : ∀ c ∈ x, c < 128 := fun c hc => (h x mem_cons_self c hc).1
    by_cases hnil : xs = []
    · rw [hnil, dots, intercalate_singleton]
      exact hx
    · intro c hc
      rw [dots_cons x hnil] at hc
      rcases mem_append.1 hc with hc | hc
      · exact hx c hc
      rcases mem_cons.1 hc with rfl | hc
      · decide
      · exact ih (fun y hy => h y (mem_cons_of_mem x hy)) c hc

theorem mem_split {l : List ℕ} (hl : l ∈ cs.splitOnP isDot) : ∀ c ∈ l, c ∈ cs ∧ isDot c = false := by
  induction cs generalizing l with
  | nil =>
    obtain rfl := mem_singleton.1 hl
    exact fun c hc => absurd hc not_mem_nil
  | cons a cs ih =>
    have hrest : ∀ l ∈ cs.splitOnP isDot, ∀ c ∈ l, c ∈ a :: cs ∧ isDot c = false := fun l hl c hc =>
      (ih hl c hc).imp_left (mem_cons_of_mem a)
    rw [splitOnP_cons_eq_if_modifyHead] at hl
    obtain ⟨l₀, ls, hsplit⟩ := exists_cons_of_ne_nil (splitOnP_ne_nil isDot cs)
    rw [hsplit] at hl hrest
    split at hl
    · rcases mem_cons.1 hl with rfl | hl
      · exact fun c hc => absurd hc not_mem_nil
      · exact hrest l hl
    · next hdot =>
      rcases mem_cons.1 hl with rfl | hl
      · exact forall_mem_cons.2 ⟨⟨mem_cons_self, Bool.eq_false_iff.2 hdot⟩, hrest l₀ mem_cons_self⟩
      · exact hrest l (mem_cons_of_mem l₀ hl)

theorem Converts.not_refused {label x : List ℕ} (h : Converts fuel label x) (de : ℕ) (d : List UInt8) :
    ¬Refused (toasciiLabel fuel de (label.flatMap encode) d) := by
  rintro ⟨rc', d', hneg, hret⟩
  obtain ⟨rc, hrc, hall⟩ := h
  rw [hall] at hret
  cases hret
  exact absurd hrc (not_le.2 hneg)

theorem Converts.convertLabel {label x : List ℕ} (h : Converts fuel label x) (de : ℕ) (d : List UInt8) :
    convertLabel fuel de (label.flatMap encode) d = .ok (putAll de d x) := by
  obtain ⟨rc, hrc, hall⟩ := h
  rw [Idna.convertLabel, hall]
  exact if_neg (not_lt.2 hrc)

theorem Refused.convertLabel {de : ℕ} {s d : List UInt8} (h : Refused (toasciiLabel fuel de s d)) :
    ∃ e, Refused e ∧ convertLabel fuel de s d = .error e := by
  obtain ⟨rc, d', hneg, hret⟩ := h
  refine ⟨.ret rc d', ⟨rc, d', hneg, rfl⟩, ?_⟩
  rw [Idna.convertLabel, hret]
  exact if_pos hneg

theorem converts_self (hall : ∀ c ∈ cs, c < 128) (hlen : cs.length < 2 ^ 31) (fuel : ℕ) : Converts fuel cs cs := by
  refine ⟨cs.length, Int.natCast_nonneg _, fun de d => ?_⟩
  rw [label_ascii (hlen.trans (by norm_num)) hall, putAll_eq, encode_ascii hall, toInt, if_pos hlen]

theorem converts_nil (fuel : ℕ) : Converts fuel [] [] := converts_self (fun _ hc => absurd hc not_mem_nil) (by norm_num) fuel

theorem encode_plain (hdot : ∀ c ∈ cs, isDot c = false) : Plain (prefixCodes ++ Punycode.encode cs) := by
  have hdigit : ∀ d < 36, Punycode.digitCode d < 128 ∧ isDot (Punycode.digitCode d) = false := by decide
  have hprefix : ∀ c ∈ prefixCodes ++ [45], c < 128 ∧ isDot c = false := by decide
  intro c hc
  rw [Punycode.encode, ← append_assoc, ← append_assoc] at hc
  rcases mem_append.1 hc with hc | hc
  · rcases mem_append.1 hc with hc | hc
    · rcases mem_append.1 hc with hc | hc
      · exact hprefix c (mem_append_left _ hc)
      · obtain ⟨hmem, hlt⟩ := mem_filter.1 hc
        exact ⟨by simpa using hlt, hdot c hmem⟩
    · split at hc
      · cases hc
      · exact hprefix c (mem_append_right _ hc)
  · obtain ⟨d, hd, rfl⟩ := mem_map.1 hc
    exact hdigit d (Punycode.digits_lt _ _ d hd)

theorem converts_encoded (hs : ∀ c ∈ cs, Scalar c) (hother : ∃ c ∈ cs, 128 ≤ c)
    (hlen : cs.length < 2 ^ 32) (hfuel : cs.length ≤ fuel) (hfit : ∀ delta ∈ Punycode.deltas cs, delta < 2 ^ 32) :
    Converts fuel cs (prefixCodes ++ Punycode.encode cs) := by
  refine ⟨0, le_rfl, fun de d => ?_⟩
  rw [putAll_eq]
  rcases label_spec hs hlen hother de d hfuel with ⟨-, hret⟩ | ⟨⟨delta, hmem, hge⟩, -⟩
  · exact hret
  · exact absurd (hfit delta hmem) (Nat.not_lt.2 hge)

theorem refused_self (hall : ∀ c ∈ cs, c < 128) (hlo : ¬cs.length < 2 ^ 31) (hhi : cs.length < 2 ^ 32) (fuel de : ℕ)
    (d : List UInt8) : Refused (toasciiLabel fuel de (cs.flatMap encode) d) := by
  refine ⟨toInt cs.length, _, ?_, label_ascii hhi hall de d fuel⟩
  rw [toInt]
  omega

/-- **A label is converted, or refused, in the same way for every destination.** -/
theorem converts_or_refused (hs : ∀ c ∈ cs, Scalar c) (hdot : ∀ c ∈ cs, isDot c = false)
    (hlen : cs.length < 2 ^ 32) (hfuel : cs.length ≤ fuel) :
    (∃ x, Converts fuel cs x ∧ Plain x) ∨ ∀ de d, Refused (toasciiLabel fuel de (cs.flatMap encode) d) := by
  by_cases hall : ∀ c ∈ cs, c < 128
  · by_cases hshort : cs.length < 2 ^ 31
    · exact .inl ⟨cs, converts_self hall hshort fuel, fun c hc => ⟨hall c hc, hdot c hc⟩⟩
    · exact .inr (refused_self hall hshort hlen fuel)
  · have hother : ∃ c ∈ cs, 128 ≤ c := by simpa using hall
    by_cases hfit : ∀ delta ∈ Punycode.deltas cs, delta < 2 ^ 32
    · exact .inl ⟨_, converts_encoded hs hother hlen hfuel hfit, encode_plain hdot⟩
    · refine .inr fun de d => ?_
      rcases label_spec hs hlen hother de d hfuel with ⟨hall, -⟩ | ⟨-, d', hret⟩
      · exact absurd hall hfit
      · exact ⟨UV_E2BIG, d', by decide, hret⟩

/-! ## The loop -/

section Loop

variable {fuel : ℕ} {cs label : List ℕ}

theorem label_split (hlabel : ∀ c ∈ label, isDot c = false) {c : ℕ} (hdot : isDot c = true) (cs : List ℕ) :
    (label ++ c :: cs).splitOnP isDot = label :: ([] ++ cs).splitOnP isDot :=
  splitOnP_append_cons_of_forall_mem hlabel c hdot cs

theorem label_snoc (hlabel : ∀ c ∈ label, isDot c = false) {c : ℕ} (hdot : ¬isDot c = true) :
    ∀ c' ∈ label ++ [c], isDot c' = false := by
  intro c' hc'
  rcases mem_append.1 hc' with hc' | hc'
  · exact hlabel c' hc'
  · rw [mem_singleton.1 hc']
    exact Bool.eq_false_iff.2 hdot

theorem loop_converts (hlabel : ∀ c ∈ label, isDot c = false) (hs : ∀ c ∈ cs, Scalar c) {xs : List (List ℕ)}
    (h : List.Forall₂ (Converts fuel) ((label ++ cs).splitOnP isDot) xs) (de : ℕ) (d : List UInt8) :
    toasciiLoop fuel de (label.flatMap encode) (cs.flatMap encode) d = .ok (putAll de d (dots xs)) := by
  induction cs generalizing label xs d with
  | nil =>
    rw [append_nil, splitOnP_eq_singleton hlabel] at h
    cases h with
    | cons hx hrest =>
      cases hrest
      rw [dots, intercalate_singleton, ← hx.convertLabel, flatMap_nil, loop_nil]
      split
      · -- the empty label is left out, and is converted to nothing
        next hnil => rw [hnil]; exact ((converts_nil fuel).convertLabel de d).symm
      · rfl
  | cons c cs ih =>
    have hc := hs c mem_cons_self
    have hs' : ∀ c' ∈ cs, Scalar c' := fun c' hc' => hs c' (mem_cons_of_mem c hc')
    by_cases hdot : isDot c = true
    · rw [label_split hlabel hdot] at h
      cases h with
      | @cons _ x _ xs hx hrest =>
        have hne : xs ≠ [] := by
          rintro rfl
          exact splitOnP_ne_nil isDot ([] ++ cs) (forall₂_nil_right_iff.1 hrest)
        rw [loop_dot fuel de hc hdot, hx.convertLabel, dots_cons _ hne, putAll_append]
        exact ih (fun _ h => absurd h not_mem_nil) hs' hrest _
    · rw [loop_other fuel de hc hdot]
      exact ih (label_snoc hlabel hdot) hs' (by rwa [← append_cons]) d

theorem loop_refused (hlabel : ∀ c ∈ label, isDot c = false) (hs : ∀ c ∈ cs, Scalar c)
    (hall : ∀ l ∈ (label ++ cs).splitOnP isDot,
      (∃ x, Converts fuel l x) ∨ ∀ de d, Refused (toasciiLabel fuel de (l.flatMap encode) d))
    (hno : ∃ l ∈ (label ++ cs).splitOnP isDot, ∀ x, ¬Converts fuel l x) (de : ℕ) (d : List UInt8) :
    ∃ e, Refused e ∧ toasciiLoop fuel de (label.flatMap encode) (cs.flatMap encode) d = .error e := by
  induction cs generalizing label d with
  | nil =>
    rw [append_nil, splitOnP_eq_singleton hlabel] at hall hno
    obtain ⟨l, hl, hno⟩ := hno
    obtain rfl := mem_singleton.1 hl
    have hne : l ≠ [] := fun hnil => hno [] (hnil ▸ converts_nil fuel)
    rw [flatMap_nil, loop_nil, if_neg (flatMap_encode_ne_nil hne)]
    rcases hall l hl with ⟨x, hx⟩ | hrefused
    · exact absurd hx (hno x)
    · exact (hrefused de d).convertLabel
  | cons c cs ih =>
    have hc := hs c mem_cons_self
    have hs' : ∀ c' ∈ cs, Scalar c' := fun c' hc' => hs c' (mem_cons_of_mem c hc')
    by_cases hdot : isDot c = true
    · rw [label_split hlabel hdot] at hall hno
      rw [loop_dot fuel de hc hdot]
      rcases hall label mem_cons_self with ⟨x, hx⟩ | hrefused
      · obtain ⟨l, hl, hno⟩ := hno
        have hl : l ∈ ([] ++ cs).splitOnP isDot := by
          rcases mem_cons.1 hl with rfl | hl
          · exact absurd hx (hno x)
          · exact hl
        rw [hx.convertLabel]
        exact ih (fun _ h => absurd h not_mem_nil) hs' (fun l hl => hall l (mem_cons_of_mem label hl)) ⟨l, hl, hno⟩ _
      · obtain ⟨e, he, herr⟩ := (hrefused de d).convertLabel
        exact ⟨e, he, by rw [herr]; rfl⟩
    · rw [loop_other fuel de hc hdot]
      exact ih (label_snoc hlabel hdot) hs' (by rwa [← append_cons]) (by rwa [← append_cons]) d

end Loop

/-! ## The call -/

theorem yields_dots {cs : List ℕ} (hs : ∀ c ∈ cs, Scalar c) {fuel : ℕ} {xs : List (List ℕ)}
    (h : List.Forall₂ (Converts fuel) (cs.splitOnP isDot) xs) : Yields fuel (cs.flatMap encode) (dots xs) := by
  intro de
  have hloop := @loop_converts fuel cs [] (fun _ h => absurd h not_mem_nil) hs xs h de []
  rw [flatMap_nil] at hloop
  rw [toascii, hloop, ← put_terminator]

theorem toascii_refused {cs : List ℕ} (hs : ∀ c ∈ cs, Scalar c) {fuel : ℕ}
    (hall : ∀ l ∈ cs.splitOnP isDot, (∃ x, Converts fuel l x) ∨ ∀ de d, Refused (toasciiLabel fuel de (l.flatMap encode) d))
    (hno : ∃ l ∈ cs.splitOnP isDot, ∀ x, ¬Converts fuel l x) (de : ℕ) : Refused (toascii fuel de (cs.flatMap encode)) := by
  obtain ⟨e, he, herr⟩ := @loop_refused fuel cs [] (fun _ h => absurd h not_mem_nil) hs hall hno de []
  rw [flatMap_nil] at herr
  rw [toascii, herr]
  exact he

theorem Yields.not_refused {fuel : ℕ} {s : List UInt8} {out : List ℕ} (h : Yields fuel s out) (de : ℕ) :
    ¬Refused (toascii fuel de s) := by
  rintro ⟨rc, d, hneg, hret⟩
  rw [h de] at hret
  cases hret
  omega

theorem converts_all {fuel : ℕ} {ls : List (List ℕ)} (h : ∀ l ∈ ls, ∃ x, Converts fuel l x ∧ Plain x) :
    ∃ xs, List.Forall₂ (Converts fuel) ls xs ∧ ∀ x ∈ xs, Plain x := by
  induction ls with
  | nil => exact ⟨[], .nil, fun x hx => absurd hx not_mem_nil⟩
  | cons l ls ih =>
    obtain ⟨x, hx, hplain⟩ := h l mem_cons_self
    obtain ⟨xs, hxs, hall⟩ := ih fun l' hl' => h l' (mem_cons_of_mem l hl')
    exact ⟨x :: xs, .cons hx hxs, forall_mem_cons.2 ⟨hplain, hall⟩⟩

theorem yields_again {xs : List (List ℕ)} (hne : xs ≠ []) (hplain : ∀ x ∈ xs, Plain x) (hlen : ∀ x ∈ xs, x.length < 2 ^ 31)
    (fuel : ℕ) : Yields fuel ((dots xs).map UInt8.ofNat) (dots xs) := by
  have hascii := dots_ascii hplain
  have hself : List.Forall₂ (Converts fuel) ((dots xs).splitOnP isDot) xs := by
    rw [split_dots hne hplain]
    exact forall₂_same.2 fun x hx => converts_self (fun c hc => (hplain x hx c hc).1) (hlen x hx) fuel
  rw [← encode_ascii hascii]
  refine yields_dots (fun c hc => ?_) hself
  have hlt := hascii c hc
  exact ⟨by omega, by omega⟩

/-- **A name is converted label by label.** A name that is valid UTF-8, with fewer than 2^32 code points between two of its
separators, becomes the conversions of what is between them, each separator a dot; whether it does is the same for every
destination, and the bytes that arrive are the first ones of the output and its terminator. The output is ASCII. Where each
label of it has a length that is an `int`, it is converted to itself. -/
theorem toascii_labels {cs : List ℕ} (hs : ∀ c ∈ cs, Scalar c) {fuel : ℕ}
    (hfit : ∀ l ∈ cs.splitOnP isDot, l.length < 2 ^ 32 ∧ l.length ≤ fuel) :
    (∃ xs, List.Forall₂ (Converts fuel) (cs.splitOnP isDot) xs ∧ (∀ c ∈ dots xs, c < 128) ∧
      Yields fuel (cs.flatMap encode) (dots xs) ∧
      ((∀ x ∈ xs, x.length < 2 ^ 31) → ∀ fuel, Yields fuel ((dots xs).map UInt8.ofNat) (dots xs))) ∨
      (∃ l ∈ cs.splitOnP isDot, ∀ x, ¬Converts fuel l x) ∧ ∀ de, Refused (toascii fuel de (cs.flatMap encode)) := by
  have hcase : ∀ l ∈ cs.splitOnP isDot, (∃ x, Converts fuel l x ∧ Plain x) ∨
      ∀ de d, Refused (toasciiLabel fuel de (l.flatMap encode) d) := fun l hl =>
    converts_or_refused (fun c hc => hs c (mem_split hl c hc).1) (fun c hc => (mem_split hl c hc).2) (hfit l hl).1 (hfit l hl).2
  by_cases hno : ∃ l ∈ cs.splitOnP isDot, ∀ x, ¬Converts fuel l x
  · exact .inr ⟨hno, toascii_refused hs (fun l hl => (hcase l hl).imp_left (Exists.imp fun _ h => h.1)) hno⟩
  · have hall : ∀ l ∈ cs.splitOnP isDot, ∃ x, Converts fuel l x ∧ Plain x := fun l hl =>
      (hcase l hl).resolve_right fun hrefused => hno ⟨l, hl, fun x hx => hx.not_refused 0 [] (hrefused 0 [])⟩
    obtain ⟨xs, hxs, hplain⟩ := converts_all hall
    have hne : xs ≠ [] := by
      rintro rfl
      exact splitOnP_ne_nil isDot cs (forall₂_nil_right_iff.1 hxs)
    exact .inl ⟨xs, hxs, dots_ascii hplain, yields_dots hs hxs, fun hlen fuel => yields_again hne hplain hlen fuel⟩

/-- `a` and the separator U+3002. -/
theorem toascii_labels_trailing :
    ∃ xs, List.Forall₂ (Converts 1) [[97], []] xs ∧ Yields 1 [97, 0xE3, 0x80, 0x82] (dots xs) ∧
      ((∀ x ∈ xs, x.length < 2 ^ 31) → ∀ fuel, Yields fuel ((dots xs).map UInt8.ofNat) (dots xs)) := by
  have hs : ∀ c ∈ [97, 0x3002], Scalar c := by simp [Scalar]
  have hsplit : [97, 0x3002].splitOnP isDot = [[97], []] := by decide
  have hname := @toascii_labels [97, 0x3002] hs 1 (by rw [hsplit]; decide)
  rcases hname with ⟨xs, hxs, -, hout, hagain⟩ | ⟨⟨l, hl, hno⟩, -⟩
  · exact ⟨xs, hxs, hout, hagain⟩
  · refine absurd (converts_self (fun c hc => ?_) ?_ 1) (hno l)
    · have hall : ∀ l ∈ [[97], []], ∀ c ∈ l, c < 128 := by decide
      exact hall l hl c hc
    · have hall : ∀ l ∈ [[97], []], l.length < 2 ^ 31 := by decide
      exact hall l hl

/-! ## Labels whose length is no `int` -/

theorem deltas_front {cs : List ℕ} (hall : ∀ c ∈ cs, c < 128) : Punycode.deltas (0x80 :: cs) = [0] := by
  have hnone (n : ℕ) (hn : 128 ≤ n) : cs.filter (n ≤ ·) = [] := filter_eq_nil_iff.2 fun c hc => by
    simpa using (hall c hc).trans_le hn
  have hmin : ((0x80 :: cs).filter (128 ≤ ·)).min? = some 0x80 := by
    rw [filter_cons_of_pos (by decide), hnone 128 le_rfl]
    rfl
  have hmin' : ((0x80 :: cs).filter (0x80 + 1 ≤ ·)).min? = none := by
    rw [filter_cons_of_neg (by decide), hnone (0x80 + 1) (by decide)]
    rfl
  have hpass (h : ℕ) : (Punycode.pass 0x80 0 (h + 1) cs).1 = [] := by
    refine length_eq_zero_iff.1 ((Punycode.pass_handled 0x80 0 (h + 1) cs).2.trans (List.count_eq_zero.2 fun hmem => ?_))
    exact absurd (hall 0x80 hmem) (lt_irrefl 128)
  rw [Punycode.deltas, Punycode.rounds_some hmin, Punycode.rounds_none hmin']
  simp [Punycode.pass, hpass]

theorem encode_front {cs : List ℕ} (hne : cs ≠ []) (hall : ∀ c ∈ cs, c < 128) :
    Punycode.encode (0x80 :: cs) = cs ++ [45, 97] := by
  have hbasic : Punycode.basic (0x80 :: cs) = cs := by
    rw [Punycode.basic]
    simpa using hall
  have hzero : Punycode.varint 72 36 0 = [0] := by
    rw [Punycode.varint, dif_pos (by decide)]
  rw [Punycode.encode, hbasic, deltas_front hall, if_neg hne, Punycode.Coder.digits, hzero, append_assoc]
  rfl

/-- **A converted label may be too long to be converted again**: U+0080 in front of 2^31 times `a` is converted, to a label whose
length is not an `int`. And with 2^32 - 1 times `a` in front of U+0080 the first round divides by `h + 1`, which is zero. -/
theorem toascii_relabel :
    ¬(∀ cs : List ℕ, (∀ c ∈ cs, Scalar c) → ∀ out, Yields cs.length (cs.flatMap encode) out →
      ∃ fuel, Yields fuel (out.map UInt8.ofNat) out) ∧ ∃ cs : List ℕ, (∀ c ∈ cs, Scalar c) ∧
      ∃ e, enter 0 (cs.flatMap encode) [] = .ok e ∧ e.todo = 1 ∧ u32 (e.h + 1) = 0 := by
  have hmany (n : ℕ) : ∃ l : List ℕ, l.length = n ∧ Plain l ∧ ∀ c ∈ l, Scalar c := by
    refine ⟨List.replicate n 97, length_replicate, fun c hc => ?_, fun c hc => ?_⟩
    · rw [(mem_replicate.1 hc).2]
      decide
    · rw [(mem_replicate.1 hc).2]
      exact ⟨by decide, by decide⟩
  have h80 : Scalar 0x80 := ⟨by decide, by decide⟩
  constructor
  · obtain ⟨l, hlen, hplain, hscalar⟩ := hmany (2 ^ 31)
    have hascii : ∀ c ∈ l, c < 128 := fun c hc => (hplain c hc).1
    have hs : ∀ c ∈ 0x80 :: l, Scalar c := forall_mem_cons.2 ⟨h80, hscalar⟩
    have hdot : ∀ c ∈ 0x80 :: l, isDot c = false := forall_mem_cons.2 ⟨by decide, fun c hc => (hplain c hc).2⟩
    have hne : l ≠ [] := ne_nil_of_length_pos (by rw [hlen]; exact Nat.two_pow_pos 31)
    have hconv : Converts (0x80 :: l).length (0x80 :: l) (prefixCodes ++ Punycode.encode (0x80 :: l)) := by
      refine converts_encoded hs ⟨0x80, mem_cons_self, le_rfl⟩ ?_ le_rfl ?_
      · rw [length_cons, hlen]
        norm_num
      · rw [deltas_front hascii]
        decide
    have hout : Plain (prefixCodes ++ Punycode.encode (0x80 :: l)) := encode_plain hdot
    have hlong : (prefixCodes ++ Punycode.encode (0x80 :: l)).length = 2 ^ 31 + 6 := by
      rw [encode_front hne hascii, length_append, length_append, hlen]
      rfl
    generalize prefixCodes ++ Punycode.encode (0x80 :: l) = x at hconv hout hlong
    have hx : ∀ c ∈ x, c < 128 := fun c hc => (hout c hc).1
    have hsplit : x.splitOnP isDot = [x] := splitOnP_eq_singleton fun c hc => (hout c hc).2
    have hyields := @yields_dots _ hs (0x80 :: l).length [x] (by rw [splitOnP_eq_singleton hdot]; exact .cons hconv .nil)
    rw [dots, intercalate_singleton] at hyields
    intro hagain
    obtain ⟨fuel, hself⟩ := hagain (0x80 :: l) hs x hyields
    have hrefused := refused_self hx (by rw [hlong]; norm_num) (by rw [hlong]; norm_num) fuel
    rw [← encode_ascii hx] at hself
    refine hself.not_refused 0 (toascii_refused (fun c hc => ?_) ?_ ?_ 0)
    · have hlt := hx c hc
      exact ⟨by omega, by omega⟩
    · rw [hsplit]
      exact forall_mem_singleton.2 (.inr hrefused)
    · rw [hsplit]
      exact ⟨x, mem_singleton_self x, fun y hy => hy.not_refused 0 [] (hrefused 0 [])⟩
  · obtain ⟨l, hlen, hplain, hscalar⟩ := hmany (2 ^ 32 - 1)
    have hs : ∀ c ∈ l ++ [0x80], Scalar c := forall_mem_append.2 ⟨hscalar, forall_mem_singleton.2 h80⟩
    have hascii : (l ++ [0x80]).filter (· < 128) = l := by
      rw [filter_append, filter_eq_self.2 fun c hc => by simpa using (hplain c hc).1]
      exact append_nil l
    have hother : (l ++ [0x80]).filter (128 ≤ ·) = [0x80] := by
      rw [filter_append, filter_eq_nil_iff.2 fun c hc => by simpa using (hplain c hc).1]
      rfl
    have henter := enter_counts hs (by rw [hascii, hlen]; norm_num) (by rw [hother]; norm_num)
      ⟨0x80, mem_append_right l mem_cons_self, le_rfl⟩ 0 []
    refine ⟨l ++ [0x80], hs, _, henter, ?_, ?_⟩
    · rw [hother]
      rfl
    · dsimp only
      rw [hascii, hlen]
      rfl

end Libuv.L1.Idna
