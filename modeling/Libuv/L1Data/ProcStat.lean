import Mathlib.Data.List.TakeWhile
import Mathlib.Tactic

/-!
# The size of the resident set (`unix/linux-core.c`)

`uv_resident_set_memory` reads the first 1023 bytes of `/proc/self/stat`, looks for the name of the command in its
parentheses, and from there counts blanks up to field 24. A string is a list, a pointer into it what follows. The kernel
prints no number of more than 20 characters, and in the name whatever the program has made of it.

`none` is a call that does not return: its system calls are interrupted for as long as there are answers, an assertion
fails, or the product of two `long`s overflows.

* `resident_iff`: it is field 24 if the name has no blank behind its first `')'`. Otherwise it is a field that many places
  before, which may happen to be the same.
-/
namespace Libuv.L1.ProcStat

open List Option

inductive Errno
  | intr
  | other
deriving DecidableEq

inductive Err
  | inval
  | sys (e : Errno)
deriving DecidableEq

/-- `do .. while (r == -1 && errno == EINTR)` -/
def retry {α : Type} : List (Except Errno α) → Option (Except Errno α)
  | [] => none
  | .error .intr :: rs => retry rs
  | r :: _ => some r

/-- `strchr` -/
def strchr (s : List UInt8) (c : UInt8) : Option (List UInt8) :=
  match s.dropWhile (· ≠ c) with
  | [] => none
  | t => some t

def isspace (c : UInt8) : Bool := c == 0x20 || (0x09 ≤ c && c ≤ 0x0d)

def isdigit (c : UInt8) : Bool := 0x30 ≤ c && c ≤ 0x39

def value (ds : List UInt8) : ℕ := ds.foldl (fun v c => 10 * v + (c.toNat - 0x30)) 0

def LONG_MAX : ℕ := 2 ^ 63 - 1

/-- The number behind the blanks and the sign.
`einval`: no digits at all set `errno`, which a C library may do. -/
def strtolDigits (einval : Bool) (neg : Bool) (s : List UInt8) : Option ℤ :=
  let ds := s.takeWhile isdigit
  if ds = [] then if einval then none else some 0
  else if neg then if LONG_MAX + 1 < value ds then none else some (-(value ds : ℤ))
  else if LONG_MAX < value ds then none else some (value ds)

/-- `strtol(s, NULL, 10)`; `none` is an `errno` that is not 0. -/
def strtol (einval : Bool) (s : List UInt8) : Option ℤ :=
  match s.dropWhile isspace with
  | 0x2D :: t => strtolDigits einval true t
  | 0x2B :: t => strtolDigits einval false t
  | t => strtolDigits einval false t

/-- `for (i = 1; i <= n; i++) s = strchr(s + 1, ' ')` -/
def skipFields : ℕ → List UInt8 → Option (List UInt8)
  | 0, s => some s
  | n + 1, s => do
    let s ← strchr s.tail 0x20
    skipFields n s

/-- What is made of the buffer: `val`, or none if the text is not as expected.
mirrors unix/linux-core.c:184-207 -/
def parse (einval : Bool) (buf : List UInt8) : Option ℤ := do
  let s ← strchr buf 0x20
  let s := s.tail
  if s.head? ≠ some 0x28 then none
  else
    let s ← strchr s 0x29
    let s ← skipFields 22 s
    let val ← strtol einval s
    if val < 0 then none else some val

/-- mirrors unix/linux-core.c:158-216 -/
def uvResidentSetMemory (einval : Bool) (pagesize : ℕ) (opens : List (Except Errno ℕ))
    (reads : List (Except Errno (List UInt8))) : Option (Except Err ℕ) := do
  match ← retry opens with
  | .error e => return .error (.sys e)
  | .ok fd =>
    let n ← retry reads
    -- `uv__close`
    if fd ≤ 2 then none
    else
      match n with
      | .error e => return .error (.sys e)
      | .ok bytes =>
        match parse einval (bytes.takeWhile (· ≠ 0)) with
        | none => return .error .inval
        | some val => if LONG_MAX < val.toNat * pagesize then none else return .ok (val.toNat * pagesize)

/-! ## What the kernel prints -/

structure Field where
  chars : List UInt8
  ne_nil : chars ≠ []
  word : ∀ c ∈ chars, isspace c = false ∧ c ≠ 0
  length_le : chars.length ≤ 20

/-- The fields: `pid`, the name, the 21 after it, the resident set, and more. -/
structure Stat where
  pid : Field
  comm : List UInt8
  before : List Field
  rss : Field
  after : List Field
  noNul : 0 ∉ comm
  length_comm : comm.length ≤ 15
  length_before : before.length = 21
  digits : ∀ c ∈ rss.chars, isdigit c = true

namespace Stat
variable (st : Stat)

def words (ws : List (List UInt8)) : List UInt8 := ws.flatMap (0x20 :: ·)

def fields : List (List UInt8) := (st.before ++ st.rss :: st.after).map Field.chars

/-- The content of `/proc/self/stat`. -/
def text : List UInt8 := st.pid.chars ++ 0x20 :: 0x28 :: st.comm ++ 0x29 :: words st.fields ++ [0x0a]

/-- The blanks of the name behind its first `')'`. -/
def shift : ℕ := (st.comm.dropWhile (· ≠ 0x29)).count 0x20

/-- Field `24 - shift`. -/
def taken : List UInt8 := st.fields[21 - st.shift]?.getD []

end Stat

/-- The buffer holds 1024 bytes, the last of them for the terminating zero. -/
def reading (st : Stat) : List UInt8 := st.text.take 1023

/-- The number of pages in field 24, in bytes, is stored. However often `open` and `read` are interrupted. -/
def Reports (einval : Bool) (pagesize fd : ℕ) (st : Stat) : Prop :=
  ∀ i j, uvResidentSetMemory einval pagesize (List.replicate i (.error .intr) ++ [.ok fd])
    (List.replicate j (.error .intr) ++ [.ok (reading st)]) = some (.ok (value st.rss.chars * pagesize))

/-! ## Strings -/

section
variable {s a b w : List UInt8} {c x : UInt8} {ws : List (List UInt8)} {einval neg : Bool}

theorem strchr_append (h : c ∉ a) : strchr (a ++ c :: b) c = some (c :: b) := by
  have hdrop : (a ++ c :: b).dropWhile (· ≠ c) = c :: b := by
    rw [dropWhile_append_of_pos]
    · simp
    · intro y hy
      have hne : y ≠ c := fun he => h (he ▸ hy)
      simpa using hne
  rw [strchr, hdrop]

theorem words_cons : Stat.words (w :: ws) = 0x20 :: (w ++ Stat.words ws) := rfl

theorem words_append {vs : List (List UInt8)} : Stat.words (vs ++ ws) = Stat.words vs ++ Stat.words ws :=
  flatMap_append

theorem skipFields_words (n : ℕ) (ha : 0x20 ∉ a) (hws : ∀ w ∈ ws, 0x20 ∉ w) (hn : n < ws.length) :
    skipFields (n + 1) (x :: (a ++ Stat.words ws ++ b)) = some (Stat.words (ws.drop n) ++ b) := by
  induction n generalizing x a ws with
  | zero =>
    obtain _ | ⟨w, ws⟩ := ws
    · cases hn
    · rw [words_cons, append_assoc, cons_append, skipFields, tail_cons, strchr_append ha]
      rfl
  | succ n ih =>
    obtain _ | ⟨w, ws⟩ := ws
    · cases hn
    · rw [words_cons, append_assoc, cons_append, skipFields, tail_cons, strchr_append ha]
      apply ih (hws w mem_cons_self)
      · intro v hv
        exact hws v (mem_cons_of_mem _ hv)
      · exact Nat.lt_of_succ_lt_succ hn

theorem exists_words (s : List UInt8) : ∃ a ws, s = a ++ Stat.words ws ∧ ws.length = s.count 0x20 ∧ 0x20 ∉ a ∧
    ∀ w ∈ ws, 0x20 ∉ w := by
  induction s with
  | nil => exact ⟨[], [], rfl, rfl, not_mem_nil, fun w hw => by cases hw⟩
  | cons c s ih =>
    obtain ⟨a, ws, hs, hlen, ha, hws⟩ := ih
    by_cases hc : c = 0x20
    · refine ⟨[], a :: ws, ?_, ?_, not_mem_nil, ?_⟩
      · rw [hc, hs]
        rfl
      · rw [hc, count_cons_self, length_cons, hlen]
      · intro w hw
        obtain rfl | hw := mem_cons.mp hw
        · exact ha
        · exact hws w hw
    · refine ⟨c :: a, ws, ?_, ?_, ?_, hws⟩
      · rw [hs]
        rfl
      · rw [count_cons_of_ne hc, hlen]
      · intro hmem
        obtain he | hmem := mem_cons.mp hmem
        · exact hc he.symm
        · exact ha hmem

/-! ### Numbers -/

def Ends (b : List UInt8) : Prop := ∀ c ∈ b.head?, isdigit c = false

theorem takeWhile_ends (hb : Ends b) : (a ++ b).takeWhile isdigit = a.takeWhile isdigit := by
  have hnil : b.takeWhile isdigit = [] := by
    cases b with
    | nil => rfl
    | cons c b =>
      apply takeWhile_cons_of_neg
      rw [hb c rfl]
      exact Bool.false_ne_true
  rw [takeWhile_append, hnil, append_nil]
  split_ifs with hlen
  · exact ((List.takeWhile_prefix isdigit).eq_of_length hlen).symm
  · rfl

theorem strtolDigits_ends (hb : Ends b) : strtolDigits einval neg (a ++ b) = strtolDigits einval neg a := by
  rw [strtolDigits, strtolDigits, takeWhile_ends hb]

theorem strtol_word (hne : w ≠ []) (hw : ∀ c ∈ w, isspace c = false) (hb : Ends b) :
    strtol einval (0x20 :: (w ++ b)) = strtol einval w := by
  obtain _ | ⟨c, w⟩ := w
  · exact absurd rfl hne
  · have hc : ¬ isspace c = true := by
      rw [hw c mem_cons_self]
      exact Bool.false_ne_true
    have hleft : (0x20 :: (c :: w ++ b)).dropWhile isspace = c :: (w ++ b) := by
      rw [dropWhile_cons_of_pos (by decide), cons_append, dropWhile_cons_of_neg hc]
    rw [strtol, strtol, hleft, dropWhile_cons_of_neg hc]
    split
    · rename_i he
      cases he
      exact strtolDigits_ends hb
    · rename_i he
      cases he
      exact strtolDigits_ends hb
    · rename_i hm hp
      have hrest : strtolDigits einval false (c :: (w ++ b)) = strtolDigits einval false (c :: w) :=
        strtolDigits_ends (a := c :: w) hb
      rw [hrest]
      split
      · rename_i he
        cases he
        exact absurd rfl (hm _)
      · rename_i he
        cases he
        exact absurd rfl (hp _)
      · rfl

theorem isdigit_plain (h : isdigit c = true) : isspace c = false ∧ c ≠ 0x2D ∧ c ≠ 0x2B := by
  simp only [isdigit, isspace, Bool.and_eq_true, decide_eq_true_eq, UInt8.le_iff_toNat_le] at h ⊢
  refine ⟨?_, ?_, ?_⟩
  · simp only [Bool.or_eq_false_iff, beq_eq_false_iff_ne, Bool.and_eq_false_iff, decide_eq_false_iff_not]
    refine ⟨?_, .inr ?_⟩
    · rintro rfl
      exact absurd h.1 (by decide)
    · intro hle
      exact absurd (Nat.le_trans h.1 hle) (by decide)
  · rintro rfl
    exact absurd h.1 (by decide)
  · rintro rfl
    exact absurd h.1 (by decide)

theorem strtol_digits (hne : w ≠ []) (hw : ∀ c ∈ w, isdigit c = true) :
    strtol einval w = if LONG_MAX < value w then none else some (value w : ℤ) := by
  obtain _ | ⟨c, w⟩ := w
  · exact absurd rfl hne
  · obtain ⟨hs, hminus, hplus⟩ := isdigit_plain (hw c mem_cons_self)
    have hpos : strtol einval (c :: w) = strtolDigits einval false (c :: w) := by
      rw [strtol, dropWhile_cons_of_neg (by rw [hs]; exact Bool.false_ne_true)]
      split
      · rename_i he
        cases he
        exact absurd rfl hminus
      · rename_i he
        cases he
        exact absurd rfl hplus
      · rfl
    rw [hpos, strtolDigits, takeWhile_eq_self_iff.mpr hw, if_neg (cons_ne_nil c w), if_neg Bool.false_ne_true]

theorem retry_replicate {α : Type} (i : ℕ) (r : α) : retry (List.replicate i (.error .intr) ++ [.ok r]) = some (.ok r) := by
  induction i with
  | zero => rfl
  | succ i ih => exact ih

end

/-! ## The content -/

section
variable {st : Stat} {einval : Bool}

def Stat.upTo (st : Stat) : List (List UInt8) := (st.before ++ [st.rss]).map Field.chars

def Stat.front (st : Stat) : List UInt8 := st.pid.chars ++ 0x20 :: 0x28 :: st.comm ++ 0x29 :: Stat.words st.upTo

def Stat.back (st : Stat) : List UInt8 :=
  (Stat.words (st.after.map Field.chars) ++ [0x0a]).take (1023 - st.front.length)

theorem length_words_le (ws : List (List UInt8)) (hws : ∀ w ∈ ws, w.length ≤ 20) : (Stat.words ws).length ≤ 21 * ws.length := by
  induction ws with
  | nil => exact Nat.zero_le _
  | cons w ws ih =>
    have hw := hws w mem_cons_self
    have hrest := ih fun v hv => hws v (mem_cons_of_mem _ hv)
    rw [words_cons, length_cons, length_append, length_cons]
    omega

theorem length_upTo : st.upTo.length = 22 := by
  rw [Stat.upTo, length_map, length_append, st.length_before]
  rfl

theorem fields_eq : st.fields = st.upTo ++ st.after.map Field.chars := by
  simp [Stat.fields, Stat.upTo]

theorem mem_fields {w : List UInt8} (h : w ∈ st.fields) : ∃ f : Field, w = f.chars := by
  obtain ⟨f, -, rfl⟩ := List.mem_map.mp h
  exact ⟨f, rfl⟩

theorem mem_upTo {w : List UInt8} (h : w ∈ st.upTo) : ∃ f : Field, w = f.chars := by
  obtain ⟨f, -, rfl⟩ := List.mem_map.mp h
  exact ⟨f, rfl⟩

theorem Field.no_blank (f : Field) : 0x20 ∉ f.chars := fun h => absurd (f.word _ h).1 (by decide)

theorem length_front (st : Stat) : st.front.length ≤ 500 := by
  have hpid := st.pid.length_le
  have hcomm := st.length_comm
  have hwords := length_words_le st.upTo fun w hw => by
    obtain ⟨f, rfl⟩ := mem_upTo hw
    exact f.length_le
  rw [length_upTo] at hwords
  simp only [Stat.front, length_append, length_cons]
  omega

theorem reading_eq : reading st = st.front ++ st.back := by
  have hlen := length_front st
  have htext : st.text = st.front ++ (Stat.words (st.after.map Field.chars) ++ [0x0a]) := by
    rw [Stat.text, fields_eq, words_append]
    simp [Stat.front]
  rw [reading, htext, take_append, take_of_length_le (by omega)]
  rfl

theorem reading_noNul : (reading st).takeWhile (· ≠ 0) = reading st := by
  rw [takeWhile_eq_self_iff]
  intro c hc
  have hwords : ∀ ws : List (List UInt8), (∀ w ∈ ws, ∃ f : Field, w = f.chars) → 0 ∉ Stat.words ws := by
    intro ws hws hmem
    obtain ⟨w, hw, hmem⟩ := mem_flatMap.mp hmem
    obtain ⟨f, rfl⟩ := hws w hw
    obtain he | hmem := mem_cons.mp hmem
    · cases he
    · exact (f.word 0 hmem).2 rfl
  have htext := mem_of_mem_take hc
  have hfields := hwords st.fields fun w hw => mem_fields hw
  have hzero : c ≠ 0 := by
    rintro rfl
    simp only [Stat.text, mem_append, mem_cons, not_mem_nil, or_false] at htext
    obtain ((hpid | hz | hz | hcomm) | hz | hf) | hz := htext
    · exact (st.pid.word 0 hpid).2 rfl
    · cases hz
    · cases hz
    · exact st.noNul hcomm
    · cases hz
    · exact hfields hf
    · cases hz
  simpa using hzero

theorem back_ends {ws : List (List UInt8)} : Ends (Stat.words ws ++ st.back) := by
  have hblank : ∀ (ws : List (List UInt8)) (b : List UInt8), Ends b → Ends (Stat.words ws ++ b) := by
    intro ws b hb
    cases ws with
    | nil => exact hb
    | cons w ws =>
      intro c hc
      cases hc
      decide
  apply hblank
  have hend : Ends (Stat.words (st.after.map Field.chars) ++ [0x0a]) := by
    apply hblank
    intro c hc
    cases hc
    decide
  intro c hc
  rw [Stat.back, head?_take] at hc
  split_ifs at hc
  · cases hc
  · exact hend c hc

theorem strchr_close (st : Stat) (W : List UInt8) : ∃ d : List UInt8, strchr (0x28 :: st.comm ++ 0x29 :: W) 0x29 = some (0x29 :: (d ++ W)) ∧
    d.count 0x20 = st.shift ∧ d.length ≤ 15 := by
  have hcomm := takeWhile_append_dropWhile (p := (· ≠ (0x29 : UInt8))) (l := st.comm)
  have hlen := st.length_comm
  have hout : (0x29 : UInt8) ∉ 0x28 :: st.comm.takeWhile (· ≠ 0x29) := by
    intro hmem
    obtain he | hmem := mem_cons.mp hmem
    · cases he
    · have := mem_takeWhile_imp hmem
      simp at this
  rw [← hcomm, length_append] at hlen
  rw [Stat.shift]
  generalize hd : st.comm.dropWhile (· ≠ 0x29) = b at hcomm hlen
  cases b with
  | nil =>
    refine ⟨[], ?_, rfl, Nat.zero_le _⟩
    rw [← hcomm, append_nil]
    exact strchr_append hout
  | cons c b =>
    have hc : c = 0x29 := by
      have := head?_dropWhile_not (· ≠ (0x29 : UInt8)) st.comm
      rw [hd] at this
      simpa using this
    rw [hc] at hcomm
    rw [length_cons] at hlen
    refine ⟨b ++ [0x29], ?_, ?_, ?_⟩
    · have hfirst := strchr_append (b := b ++ 0x29 :: W) hout
      rw [← hcomm]
      simp only [cons_append, append_assoc] at hfirst ⊢
      exact hfirst
    · rw [hc, count_append]
      rfl
    · rw [length_append, length_singleton]
      omega

theorem text_read : parse einval ((reading st).takeWhile (· ≠ 0)) =
    (strtol einval st.taken).bind fun v => if v < 0 then none else some v := by
  obtain ⟨d, hd, hcount, hlen⟩ := strchr_close st (Stat.words st.upTo ++ st.back)
  obtain ⟨a, ws, hda, hws, ha, hblank⟩ := exists_words d
  have hshift : st.shift ≤ 15 := by
    rw [← hcount]
    exact count_le_length.trans hlen
  have hall : ∀ w ∈ ws ++ st.upTo, 0x20 ∉ w := by
    intro w hw
    obtain hw | hw := mem_append.mp hw
    · exact hblank w hw
    · obtain ⟨f, rfl⟩ := mem_upTo hw
      exact f.no_blank
  have hn : 21 < (ws ++ st.upTo).length := by
    rw [length_append, length_upTo]
    omega
  have hskip := skipFields_words (x := 0x29) (b := st.back) 21 ha hall hn
  have hdrop : (ws ++ st.upTo).drop 21 = st.upTo.drop (21 - st.shift) := by
    rw [drop_append, drop_of_length_le (by omega), hws, hcount]
    rfl
  obtain ⟨w, rest, hw⟩ : ∃ w rest, st.upTo.drop (21 - st.shift) = w :: rest := by
    apply exists_cons_of_length_pos
    rw [length_drop, length_upTo]
    omega
  have hget : st.upTo[21 - st.shift]? = some w := by
    rw [← head?_drop, hw]
    rfl
  have htaken : st.taken = w := by
    rw [Stat.taken, fields_eq, getElem?_append_left (by rw [length_upTo]; omega), hget]
    rfl
  obtain ⟨f, rfl⟩ := mem_upTo (mem_of_getElem? hget)
  have hnum : strtol einval (Stat.words ((ws ++ st.upTo).drop 21) ++ st.back) = strtol einval st.taken := by
    rw [hdrop, hw, htaken, words_cons, cons_append, append_assoc]
    exact strtol_word f.ne_nil (fun c hc => (f.word c hc).1) back_ends
  have hpid : strchr (reading st) 0x20 =
      some (0x20 :: (0x28 :: st.comm ++ 0x29 :: (Stat.words st.upTo ++ st.back))) := by
    rw [reading_eq, Stat.front]
    simp only [append_assoc, cons_append]
    exact strchr_append st.pid.no_blank
  rw [words_append, ← append_assoc, ← hda, append_assoc] at hskip
  rw [reading_noNul, parse, hpid]
  simp only [bind_eq_bind, bind_some, tail_cons, hd, hskip, hnum]
  simp

end

/-! ## The result -/

structure Reads (einval : Bool) (pagesize fd : ℕ) (st : Stat) : Prop where
  fd : 2 < fd
  fits : value st.rss.chars * pagesize ≤ LONG_MAX
  same : st.shift = 0 ∨ strtol einval st.taken = some (value st.rss.chars : ℤ)

theorem taken_of_shift {st : Stat} (h : st.shift = 0) : st.taken = st.rss.chars := by
  have hlen : (st.before.map Field.chars).length = 21 := by rw [length_map, st.length_before]
  rw [Stat.taken, h, Stat.fields, map_append, getElem?_append_right (by omega), hlen]
  rfl

theorem resident_iff (einval : Bool) {pagesize : ℕ} (hp : 0 < pagesize) (fd : ℕ) (st : Stat) :
    Reports einval pagesize fd st ↔ Reads einval pagesize fd st := by
  have hrun : ∀ i j, uvResidentSetMemory einval pagesize (List.replicate i (.error .intr) ++ [.ok fd])
      (List.replicate j (.error .intr) ++ [.ok (reading st)]) =
        if fd ≤ 2 then none
        else
          match (strtol einval st.taken).bind fun v => if v < 0 then none else some v with
          | none => some (.error .inval)
          | some v => if LONG_MAX < v.toNat * pagesize then none else some (.ok (v.toNat * pagesize)) := by
    intro i j
    rw [uvResidentSetMemory]
    simp only [retry_replicate, bind_eq_bind, bind_some, text_read]
    rfl
  constructor
  · intro h
    have h0 := h 0 0
    rw [hrun] at h0
    split_ifs at h0 with hfd
    cases hnum : strtol einval st.taken with
    | none =>
      rw [hnum] at h0
      cases h0
    | some v =>
      rw [hnum, bind_some] at h0
      split_ifs at h0 with hneg
      · cases h0
      · dsimp only at h0
        split_ifs at h0 with hbig
        have hv : v.toNat = value st.rss.chars := Nat.eq_of_mul_eq_mul_right hp (Except.ok.inj (some.inj h0))
        refine ⟨Nat.lt_of_not_le hfd, ?_, .inr ?_⟩
        · rw [← hv]
          exact Nat.le_of_not_lt hbig
        · rw [hnum, ← hv, Int.toNat_of_nonneg (Int.not_lt.mp hneg)]
  · intro h i j
    have hnum : strtol einval st.taken = some (value st.rss.chars : ℤ) := by
      obtain hshift | hsame := h.same
      · have hle : value st.rss.chars ≤ LONG_MAX := Nat.le_trans (Nat.le_mul_of_pos_right _ hp) h.fits
        rw [taken_of_shift hshift, strtol_digits st.rss.ne_nil st.digits, if_neg (Nat.not_lt.mpr hle)]
      · exact hsame
    rw [hrun, if_neg (Nat.not_le.mpr h.fd), hnum, bind_some, if_neg (by omega)]
    dsimp only
    rw [Int.toNat_natCast, if_neg (Nat.not_lt.mpr h.fits)]

def Field.one : Field := ⟨[0x31], by decide, by simp [isspace], by decide⟩

/-- What the kernel prints of a command, with 200 in field 23 and 300 in field 24. -/
def statOf (comm : List UInt8) (hnul : 0 ∉ comm) (hlen : comm.length ≤ 15) : Stat where
  pid := .one
  comm := comm
  before := List.replicate 20 .one ++ [⟨[0x32, 0x30, 0x30], by decide, by simp [isspace], by decide⟩]
  rss := ⟨[0x33, 0x30, 0x30], by decide, by simp [isspace], by decide⟩
  after := [.one]
  noNul := hnul
  length_comm := hlen
  length_before := rfl
  digits := by simp [isdigit]

/-- `(sh)` -/
theorem resident_iff_sh : 0 < 4096 ∧ Reports false 4096 3 (statOf [0x73, 0x68] (by decide) (by decide)) :=
  ⟨by decide, (resident_iff false (by decide) 3 _).mpr ⟨by decide, by decide, .inl rfl⟩⟩

/-- The command `a) b`: field 23 is taken for field 24. -/
theorem resident_shifted : ¬ ∀ (einval : Bool) (pagesize fd : ℕ) (st : Stat), 0 < pagesize → 2 < fd →
    value st.rss.chars * pagesize ≤ LONG_MAX → Reports einval pagesize fd st := by
  intro hall
  have h := hall false 4096 3 (statOf [0x61, 0x29, 0x20, 0x62] (by decide) (by decide)) (by decide) (by decide) (by decide) 0 0
  have hrun : uvResidentSetMemory false 4096 [.ok 3]
      [.ok (reading (statOf [0x61, 0x29, 0x20, 0x62] (by decide) (by decide)))] = some (.ok (200 * 4096)) := by decide
  exact absurd (hrun.symm.trans h) (by decide)

end Libuv.L1.ProcStat
