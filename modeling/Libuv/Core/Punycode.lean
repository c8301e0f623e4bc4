import Mathlib.Data.List.TakeWhile
import Mathlib.Tactic

/-!
# Punycode (RFC 3492)

A list of code points as its basic code points and a list of deltas: each delta says how far
the decoder's state advances until the next code point is inserted (section 3.2). A delta is
written as a generalized variable-length integer (3.3) whose thresholds follow a bias that
adapts to the deltas so far (3.4). The numbers are those of section 5: base 36, tmin 1, tmax
26, skew 38, damp 700, initial bias 72, initial n 128. Integers are unbounded.

* `decode_varint`: the decoder reads an integer that the encoder wrote.
* `insert_deltas`: the insertions at the encoder's deltas give back the code points.
* `decode_encode`: the decoder inverts the encoder.
-/
namespace Libuv.Punycode

open List

/-! ## Integers -/

/-- mirrors the choice of `t` in sections 6.2 and 6.3 -/
def threshold (bias k : ℕ) : ℕ := if k ≤ bias then 1 else if bias + 26 ≤ k then 26 else k - bias

theorem threshold_bounds (bias k : ℕ) : 1 ≤ threshold bias k ∧ threshold bias k ≤ 26 := by
  unfold threshold
  split
  · omega
  · split <;> omega

theorem quot_lt {bias k q : ℕ} (h : ¬q < threshold bias k) :
    (q - threshold bias k) / (36 - threshold bias k) < q :=
  (Nat.div_le_self _ _).trans_lt (by have := threshold_bounds bias k; omega)

/-- The digits of `q`, least significant first. -/
def varint (bias k q : ℕ) : List ℕ :=
  if h : q < threshold bias k then [q]
  else (threshold bias k + (q - threshold bias k) % (36 - threshold bias k)) ::
    varint bias (k + 36) ((q - threshold bias k) / (36 - threshold bias k))
termination_by q
decreasing_by exact quot_lt h

theorem varint_lt (bias k q : ℕ) : ∀ d ∈ varint bias k q, d < 36 := by
  induction k, q using varint.induct bias with
  | case1 k q h =>
    rw [varint, dif_pos h]
    have := threshold_bounds bias k
    intro d hd
    rw [mem_singleton] at hd
    omega
  | case2 k q h ih =>
    rw [varint, dif_neg h]
    have hb := threshold_bounds bias k
    have hmod := Nat.mod_lt (q - threshold bias k) (show 0 < 36 - threshold bias k by omega)
    intro d hd
    rcases mem_cons.1 hd with rfl | hd
    · omega
    · exact ih d hd

/-- The end of section 6.1, with what `k` has become. -/
def scale (delta k : ℕ) : ℕ :=
  if h : 455 < delta then scale (delta / 35) (k + 36) else k + 36 * delta / (delta + 38)
termination_by delta
decreasing_by exact Nat.div_lt_self (by omega) (by decide)

/-- mirrors section 6.1 -/
def adapt (delta numpoints : ℕ) (first : Bool) : ℕ :=
  let delta := if first then delta / 700 else delta / 2
  scale (delta + delta / numpoints) 0

/-! ## The encoder -/

/-- What the integers are written under: the code points handled, the bias. -/
structure Coder where
  handled : ℕ
  bias : ℕ
  first : Bool

def Coder.next (s : Coder) (delta : ℕ) : Coder := ⟨s.handled + 1, adapt delta (s.handled + 1) s.first, false⟩

def Coder.digits (s : Coder) : List ℕ → List ℕ
  | [] => []
  | delta :: deltas => varint s.bias 36 delta ++ (s.next delta).digits deltas

def Coder.after (s : Coder) (deltas : List ℕ) : Coder := deltas.foldl Coder.next s

theorem digits_append (s : Coder) (ds es : List ℕ) : s.digits (ds ++ es) = s.digits ds ++ (s.after ds).digits es := by
  induction ds generalizing s with
  | nil => rfl
  | cons d ds ih => rw [cons_append, Coder.digits, ih, Coder.digits, append_assoc]; rfl

theorem after_handled (s : Coder) (ds : List ℕ) : (s.after ds).handled = s.handled + ds.length := by
  induction ds generalizing s with
  | nil => rfl
  | cons d ds ih =>
    have h : ((s.next d).after ds).handled = s.handled + 1 + ds.length := ih (s.next d)
    rw [length_cons]
    exact h.trans (by omega)

/-- The inner loop of section 6.3 for the code point `m`: the deltas it writes, and `delta` and `h` after it. -/
def pass (m : ℕ) : ℕ → ℕ → List ℕ → List ℕ × ℕ × ℕ
  | delta, h, [] => ([], delta, h)
  | delta, h, c :: cs =>
    let delta := if c < m then delta + 1 else delta
    if c = m then
      let (deltas, s) := pass m 0 (h + 1) cs
      (delta :: deltas, s)
    else pass m delta h cs

/-- `h` counts the deltas. -/
theorem pass_handled (m delta h : ℕ) (cs : List ℕ) :
    (pass m delta h cs).2.2 = h + (pass m delta h cs).1.length ∧ (pass m delta h cs).1.length = cs.count m := by
  induction cs generalizing delta h with
  | nil => exact ⟨rfl, rfl⟩
  | cons c cs ih =>
    by_cases hc : c = m
    · obtain ⟨h1, h2⟩ := ih 0 (h + 1)
      simp only [pass, hc, if_true, length_cons, h2, count_cons_self]
      exact ⟨by rw [h1, h2]; omega, trivial⟩
    · obtain ⟨h1, h2⟩ := ih (if c < m then delta + 1 else delta) h
      simp only [pass, hc, if_false, count_cons_of_ne hc]
      exact ⟨h1, h2⟩

theorem pass_ge (m delta h : ℕ) (cs : List ℕ) :
    (∃ d ∈ (pass m delta h cs).1, delta ≤ d) ∨ delta ≤ (pass m delta h cs).2.1 := by
  induction cs generalizing delta with
  | nil => exact .inr (Nat.le_refl delta)
  | cons c cs ih =>
    have hle : delta ≤ if c < m then delta + 1 else delta := by split <;> omega
    by_cases hc : c = m
    · simp only [pass, hc, if_true]
      exact .inl ⟨_, mem_cons_self, by simp⟩
    · simp only [pass, hc, if_false]
      exact (ih (if c < m then delta + 1 else delta)).imp (fun ⟨d, hd, hge⟩ => ⟨d, hd, hle.trans hge⟩) hle.trans

theorem pass_le (m delta h : ℕ) (cs : List ℕ) : (pass m delta h cs).2.1 ≤ delta + cs.length := by
  induction cs generalizing delta h with
  | nil => exact Nat.le_refl delta
  | cons c cs ih =>
    by_cases hc : c = m
    · have := ih 0 (h + 1)
      simp only [pass, hc, if_true, length_cons]
      omega
    · have := ih (if c < m then delta + 1 else delta) h
      have hle : (if c < m then delta + 1 else delta) ≤ delta + 1 := by split <;> omega
      simp only [pass, hc, if_false, length_cons]
      omega

variable {m n delta : ℕ} {cs : List ℕ} {s : Decoder}

theorem pass_left (hm : m ∈ cs) (delta h : ℕ) : (pass m delta h cs).2.1 < cs.length := by
  induction cs generalizing delta h with
  | nil => cases hm
  | cons c cs ih =>
    by_cases hc : c = m
    · have := pass_le m 0 (h + 1) cs
      simp only [pass, hc, if_true, length_cons]
      omega
    · have := ih ((mem_cons.1 hm).resolve_left (Ne.symm hc)) (if c < m then delta + 1 else delta) h
      simp only [pass, hc, if_false, length_cons]
      omega

theorem filter_lt_of_min (h : (cs.filter (n ≤ ·)).min? = some m) :
    m ∈ cs ∧ n ≤ m ∧ ∀ c ∈ cs, n ≤ c → m ≤ c := by
  obtain ⟨hmem, hle⟩ := min?_eq_some_iff.1 h
  obtain ⟨hcs, hn⟩ := mem_filter.1 hmem
  exact ⟨hcs, by simpa using hn, fun c hc hnc => hle c (mem_filter.2 ⟨hc, by simpa using hnc⟩)⟩

/-- No code point is between `n` and the smallest one from `n` on. -/
theorem filter_eq_of_min (h : (cs.filter (n ≤ ·)).min? = some m) :
    cs.filter (· < n) = cs.filter (· < m) := by
  obtain ⟨-, hnm, hmin⟩ := filter_lt_of_min h
  refine filter_congr fun c hc => ?_
  have := hmin c hc
  simp only [decide_eq_decide]
  omega

theorem left_lt (h : (cs.filter (n ≤ ·)).min? = some m) :
    (cs.filter (m + 1 ≤ ·)).length < (cs.filter (n ≤ ·)).length := by
  obtain ⟨hmem, hnm, -⟩ := filter_lt_of_min h
  have hsub : cs.filter (m + 1 ≤ ·) = (cs.filter (n ≤ ·)).filter (m + 1 ≤ ·) := by
    rw [filter_filter]
    refine filter_congr fun c _ => ?_
    simp only [← Bool.decide_and, decide_eq_decide]
    omega
  rw [hsub, length_filter_lt_length_iff_exists]
  exact ⟨m, mem_filter.2 ⟨hmem, by simpa using hnm⟩, by simp⟩

def rounds (cs : List ℕ) (n delta h : ℕ) : List ℕ :=
  match _hm : (cs.filter (n ≤ ·)).min? with
  | none => []
  | some m =>
    let r := pass m (delta + (m - n) * (h + 1)) h cs
    r.1 ++ rounds cs (m + 1) (r.2.1 + 1) r.2.2
termination_by (cs.filter (n ≤ ·)).length
decreasing_by exact left_lt _hm

theorem rounds_none (hm : (cs.filter (n ≤ ·)).min? = none) (delta h : ℕ) :
    rounds cs n delta h = [] := by
  rw [rounds]
  split
  · rfl
  · next heq => rw [hm] at heq; cases heq

theorem rounds_some (hm : (cs.filter (n ≤ ·)).min? = some m) (delta h : ℕ) :
    rounds cs n delta h = (pass m (delta + (m - n) * (h + 1)) h cs).1 ++
      rounds cs (m + 1) ((pass m (delta + (m - n) * (h + 1)) h cs).2.1 + 1) (pass m (delta + (m - n) * (h + 1)) h cs).2.2 := by
  rw [rounds]
  split
  · next heq => rw [hm] at heq; cases heq
  · next heq => rw [hm] at heq; cases heq; rfl

def basic (cs : List ℕ) : List ℕ := cs.filter (· < 128)

def deltas (cs : List ℕ) : List ℕ := rounds cs 128 0 (basic cs).length

def digitCode (digit : ℕ) : ℕ := if digit < 26 then 97 + digit else 22 + digit

/-- mirrors section 6.3 -/
def encode (cs : List ℕ) : List ℕ :=
  basic cs ++ (if basic cs = [] then [] else [45]) ++
    (Coder.digits ⟨(basic cs).length, 72, true⟩ (deltas cs)).map digitCode

/-! ## The decoder -/

def digitValue (c : ℕ) : Option ℕ :=
  if 97 ≤ c ∧ c ≤ 122 then some (c - 97)
  else if 65 ≤ c ∧ c ≤ 90 then some (c - 65)
  else if 48 ≤ c ∧ c ≤ 57 then some (c - 22)
  else none

theorem digitValue_digitCode : ∀ d < 36, digitValue (digitCode d) = some d := by decide

structure Decoder where
  n : ℕ
  i : ℕ
  bias : ℕ
  out : List ℕ
  oldi : ℕ
  w : ℕ
  k : ℕ

/-- An integer has been added to `i`: the code point is inserted, and the next integer begins. -/
def Decoder.insert (s : Decoder) : Decoder :=
  let len := s.out.length + 1
  let n := s.n + s.i / len
  let i := s.i % len
  ⟨n, i + 1, adapt (s.i - s.oldi) len (s.oldi = 0), s.out.insertIdx i n, i + 1, 1, 36⟩

/-- The loops of section 6.2, one digit after the other. The input may not end inside an integer. -/
def Decoder.run (s : Decoder) : List ℕ → Option (List ℕ)
  | [] => if s.k = 36 then some s.out else none
  | c :: input =>
    match digitValue c with
    | none => none
    | some digit =>
      let t := threshold s.bias s.k
      let s := { s with i := s.i + digit * s.w }
      if digit < t then s.insert.run input else { s with w := s.w * (36 - t), k := s.k + 36 }.run input

/-- mirrors section 6.2 -/
def decode (input : List ℕ) : Option (List ℕ) :=
  let b := input.length - (input.reverse.takeWhile (· ≠ 45)).length - 1
  let rest := if 0 < b then input.drop (b + 1) else input
  if ∀ c ∈ input.take b, c < 128 then (Decoder.mk 128 0 72 (input.take b) 0 1 36).run rest else none

/-! ## Reading the integers -/

/-- **An integer is read as what was written.** -/
theorem decode_varint (q : ℕ) (s : Decoder) (rest : List ℕ) :
    s.run ((varint s.bias s.k q).map digitCode ++ rest) = ({ s with i := s.i + q * s.w } : Decoder).insert.run rest := by
  induction q using Nat.strongRecOn generalizing s with
  | _ q ih =>
    have hb := threshold_bounds s.bias s.k
    rw [varint]
    by_cases h : q < threshold s.bias s.k
    · simp [h, Decoder.run, digitValue_digitCode q (by omega)]
    · have hpos : 0 < 36 - threshold s.bias s.k := by omega
      have hmod := Nat.mod_lt (q - threshold s.bias s.k) hpos
      set t := threshold s.bias s.k with ht
      have hdiv := Nat.mod_add_div (q - t) (36 - t)
      have hq : (t + (q - t) % (36 - t)) * s.w + (q - t) / (36 - t) * (s.w * (36 - t)) = q * s.w := by
        calc (t + (q - t) % (36 - t)) * s.w + (q - t) / (36 - t) * (s.w * (36 - t))
            = (t + ((q - t) % (36 - t) + (36 - t) * ((q - t) / (36 - t)))) * s.w := by ring
          _ = q * s.w := by rw [hdiv, Nat.add_sub_cancel' (by omega)]
      rw [dif_neg h, map_cons, cons_append, Decoder.run, digitValue_digitCode _ (by omega)]
      simp only [← ht, Nat.not_lt.2 (Nat.le_add_right t _), if_false]
      rw [ih _ (quot_lt h) { s with i := s.i + (t + (q - t) % (36 - t)) * s.w, w := s.w * (36 - t), k := s.k + 36 }]
      simp [Decoder.insert, ← ht, Nat.add_assoc, hq]

def Decoder.add (s : Decoder) (delta : ℕ) : Decoder := ({ s with i := s.i + delta } : Decoder).insert

/-- The decoder is between two integers, and reads them under the bias they were written under. -/
structure Sync (c : Coder) (s : Decoder) : Prop where
  bias : s.bias = c.bias
  handled : s.out.length = c.handled
  first : (s.i = 0) ↔ c.first = true
  oldi : s.oldi = s.i
  w : s.w = 1
  k : s.k = 36
  le : s.i ≤ s.out.length

theorem sync_add {c : Coder} (h : Sync c s) (delta : ℕ) : Sync (c.next delta) (s.add delta) := by
  have hmod := Nat.mod_lt (s.i + delta) (Nat.succ_pos s.out.length)
  have hlen : (s.add delta).out.length = s.out.length + 1 :=
    length_insertIdx_of_le_length (Nat.le_of_lt_succ hmod) _
  have hfirst : decide (s.i = 0) = c.first := by
    cases hf : c.first with
    | true => simpa using h.first.2 hf
    | false => simpa [hf] using h.first
  refine ⟨?_, ?_, ?_, rfl, rfl, rfl, ?_⟩
  · simp [Decoder.add, Decoder.insert, Coder.next, h.oldi, hfirst, h.handled]
  · rw [hlen, h.handled]; rfl
  · simp [Decoder.add, Decoder.insert, Coder.next]
  · rw [hlen]; exact hmod

theorem decode_digits {c : Coder} (h : Sync c s) (ds : List ℕ) :
    s.run ((c.digits ds).map digitCode) = some (ds.foldl Decoder.add s).out := by
  induction ds generalizing c s with
  | nil => simp [Coder.digits, Decoder.run, h.k]
  | cons delta ds ih =>
    have hread := decode_varint delta s (((c.next delta).digits ds).map digitCode)
    rw [h.bias, h.k, h.w, Nat.mul_one] at hread
    rw [Coder.digits, map_append, hread]
    exact ih (sync_add h delta)

/-! ## The insertions -/

/-- The decoder goes from where it is to the position `i` of the code point `n`. -/
theorem add_eq {i : ℕ} (hi : i ≤ s.out.length)
    (h : s.n * (s.out.length + 1) + s.i + delta = m * (s.out.length + 1) + i) :
    (s.add delta).n = m ∧ (s.add delta).i = i + 1 ∧ (s.add delta).out = s.out.insertIdx i m := by
  have hlt : i < s.out.length + 1 := Nat.lt_succ_of_le hi
  have hn : s.n + (s.i + delta) / (s.out.length + 1) = m := by
    calc s.n + (s.i + delta) / (s.out.length + 1)
        = (s.n * (s.out.length + 1) + s.i + delta) / (s.out.length + 1) := by
          rw [Nat.add_assoc, Nat.mul_comm, Nat.mul_add_div (Nat.succ_pos _)]
      _ = m := by rw [h, Nat.mul_comm, Nat.mul_add_div (Nat.succ_pos _), Nat.div_eq_of_lt hlt, Nat.add_zero]
  have hmod : (s.i + delta) % (s.out.length + 1) = i := by
    calc (s.i + delta) % (s.out.length + 1)
        = (s.n * (s.out.length + 1) + s.i + delta) % (s.out.length + 1) := by
          rw [Nat.add_assoc, Nat.mul_comm, Nat.mul_add_mod]
      _ = i := by rw [h, Nat.mul_comm, Nat.mul_add_mod, Nat.mod_eq_of_lt hlt]
  refine ⟨hn, ?_, ?_⟩
  · simp [Decoder.add, Decoder.insert, hmod]
  · simp [Decoder.add, Decoder.insert, hmod, hn]

theorem insertIdx_length (p r : List ℕ) (c : ℕ) : (p ++ r).insertIdx p.length c = p ++ c :: r := by
  induction p with
  | nil => rfl
  | cons a p ih => simpa using ih

/-- Where the decoder is when the encoder, in the pass for `m`, has seen `p` of the input and not yet `r`:
`delta` takes it to the place of the next `m`. -/
structure Follows (m : ℕ) (p r : List ℕ) (s : Decoder) (delta h : ℕ) : Prop where
  out : s.out = p.filter (· ≤ m) ++ r.filter (· < m)
  handled : h = s.out.length
  pos : s.n * (h + 1) + s.i + delta = m * (h + 1) + (p.filter (· ≤ m)).length

theorem follows_pass (r p : List ℕ) {h : ℕ} (hf : Follows m p r s delta h) :
    Follows m (p ++ r) [] ((pass m delta h r).1.foldl Decoder.add s) (pass m delta h r).2.1 (pass m delta h r).2.2 := by
  induction r generalizing p s delta h with
  | nil => simpa [pass] using hf
  | cons c r ih =>
    obtain ⟨hout, hh, hpos⟩ := hf
    have happ : p ++ c :: r = (p ++ [c]) ++ r := by simp
    rw [happ]
    rcases Nat.lt_trichotomy c m with hc | rfl | hc
    · have hne : c ≠ m := Nat.ne_of_lt hc
      simp only [pass, hc, hne, if_true, if_false]
      refine ih (p ++ [c]) ⟨?_, hh, ?_⟩
      · simp [hout, hc, Nat.le_of_lt hc]
      · simp [Nat.le_of_lt hc]
        omega
    · simp only [pass, Nat.lt_irrefl, if_true, if_false, foldl_cons]
      have hle : (p.filter (· ≤ c)).length ≤ s.out.length := by rw [hout, length_append]; omega
      rw [hh] at hpos
      obtain ⟨hn, hi, hins⟩ := add_eq hle hpos
      have hout' : (s.add delta).out = p.filter (· ≤ c) ++ c :: r.filter (· < c) := by
        rw [hins, hout, insertIdx_length]
        simp
      refine ih (p ++ [c]) ⟨?_, ?_, ?_⟩
      · rw [hout']; simp
      · rw [hout', hh, hout]; simp; omega
      · rw [hn, hi]; simp
    · have hne : c ≠ m := Nat.ne_of_gt hc
      have hnl : ¬c < m := Nat.lt_asymm hc
      simp only [pass, hne, hnl, if_false]
      refine ih (p ++ [c]) ⟨?_, hh, ?_⟩
      · simp [hout, hnl, Nat.not_le.2 hc]
      · simp [Nat.not_le.2 hc]
        omega

/-- Where the decoder is before a round: at the first place of `n`. -/
structure Rounds (cs : List ℕ) (n : ℕ) (s : Decoder) (delta h : ℕ) : Prop where
  out : s.out = cs.filter (· < n)
  handled : h = s.out.length
  pos : s.n * (h + 1) + s.i + delta = n * (h + 1)

theorem insert_rounds {h : ℕ} (hr : Rounds cs n s delta h) :
    ((rounds cs n delta h).foldl Decoder.add s).out = cs := by
  induction n, delta, h using rounds.induct cs generalizing s with
  | case1 n delta h hm =>
    have hnil := min?_eq_none_iff.1 hm
    rw [rounds_none hm, foldl_nil, hr.out]
    refine filter_eq_self.2 fun c hc => ?_
    have hnot := filter_eq_nil_iff.1 hnil c hc
    simpa using hnot
  | case2 n delta h m hm r =>
    rename_i ih
    obtain ⟨-, hnm, -⟩ := filter_lt_of_min hm
    obtain ⟨hout, hh, hpos⟩ := hr
    have hlt := filter_eq_of_min hm
    have hstart : Follows m [] cs s (delta + (m - n) * (h + 1)) h := by
      refine ⟨by simpa using hout.trans hlt, hh, ?_⟩
      have hmul : n * (h + 1) + (m - n) * (h + 1) = m * (h + 1) := by rw [← Nat.add_mul, Nat.add_sub_cancel' hnm]
      simp only [filter_nil, length_nil]
      omega
    have hf : Follows m ([] ++ cs) [] (r.1.foldl Decoder.add s) r.2.1 r.2.2 := follows_pass cs [] hstart
    obtain ⟨hout', hh', hpos'⟩ := hf
    rw [rounds_some hm, foldl_append]
    change ((rounds cs (m + 1) (r.2.1 + 1) r.2.2).foldl Decoder.add (r.1.foldl Decoder.add s)).out = cs
    refine ih ⟨?_, hh', ?_⟩
    · rw [hout']
      simp
    · have hlen : (([] ++ cs).filter (· ≤ m)).length = r.2.2 := by
        rw [hh', hout']; simp
      rw [Nat.succ_mul]
      omega

/-- **The insertions at the deltas give back the code points.** -/
theorem insert_deltas (cs : List ℕ) :
    ((deltas cs).foldl Decoder.add ⟨128, 0, 72, basic cs, 0, 1, 36⟩).out = cs :=
  insert_rounds ⟨rfl, rfl, rfl⟩

/-! ## The round trip -/

theorem digits_lt (c : Coder) (ds : List ℕ) : ∀ d ∈ c.digits ds, d < 36 := by
  induction ds generalizing c with
  | nil => exact fun d hd => absurd hd not_mem_nil
  | cons delta ds ih =>
    intro d hd
    rcases mem_append.1 hd with h | h
    · exact varint_lt _ _ _ d h
    · exact ih (c.next delta) d h

theorem digits_ne_delimiter (c : Coder) (ds : List ℕ) : 45 ∉ (c.digits ds).map digitCode := by
  have hd : ∀ d < 36, digitCode d ≠ 45 := by decide
  intro hmem
  obtain ⟨d, hdm, he⟩ := mem_map.1 hmem
  exact hd d (digits_lt c ds d hdm) he

theorem takeWhile_rev {p ds : List ℕ} (h : 45 ∉ ds) :
    (p ++ 45 :: ds).reverse.takeWhile (· ≠ 45) = ds.reverse := by
  have hall : ∀ c ∈ ds.reverse, decide (c ≠ 45) = true := fun c hc => by
    simpa using fun he : c = 45 => h (he ▸ mem_reverse.1 hc)
  rw [reverse_append, reverse_cons, append_assoc, takeWhile_append_of_pos hall]
  simp

/-- **The decoder inverts the encoder**, on every list of code points. -/
theorem decode_encode (cs : List ℕ) : decode (encode cs) = some cs := by
  have hsync : Sync ⟨(basic cs).length, 72, true⟩ ⟨128, 0, 72, basic cs, 0, 1, 36⟩ :=
    ⟨rfl, rfl, by simp, rfl, rfl, rfl, Nat.zero_le _⟩
  have hrun := decode_digits hsync (deltas cs)
  rw [insert_deltas] at hrun
  have hno := digits_ne_delimiter ⟨(basic cs).length, 72, true⟩ (deltas cs)
  have hbasic : ∀ c ∈ basic cs, c < 128 := fun c hc => by simpa using (mem_filter.1 hc).2
  generalize hds : (Coder.digits ⟨(basic cs).length, 72, true⟩ (deltas cs)).map digitCode = ds at hrun hno
  by_cases hb : basic cs = []
  · have hall : ∀ c ∈ ds.reverse, decide (c ≠ 45) = true := fun c hc => by
      simpa using fun he : c = 45 => hno (he ▸ mem_reverse.1 hc)
    have htake : ds.reverse.takeWhile (· ≠ 45) = ds.reverse := takeWhile_eq_self_iff.2 hall
    rw [hb] at hrun
    simp only [encode, hb, if_true, nil_append, decode]
    rw [hb] at hds
    rw [hds, htake]
    simpa using hrun
  · have henc : encode cs = basic cs ++ 45 :: ds := by simp [encode, hb, hds]
    have hpos : 0 < (basic cs).length := length_pos_iff.2 hb
    have hlen : (basic cs ++ 45 :: ds).length - ds.reverse.length - 1 = (basic cs).length := by simp; omega
    have hdrop : (basic cs ++ 45 :: ds).drop ((basic cs).length + 1) = ds := by simp [drop_append]
    rw [henc, decode, takeWhile_rev hno, hlen]
    simp only [hpos, if_true, hdrop]
    rw [take_left, if_pos hbasic, hrun]

end Libuv.Punycode
