import Libuv.L1Data.IdnaLabel

/-!
# A name to ASCII, in a destination of any size (`idna.c`, `unix/getaddrinfo.c`)

`uv__idna_toascii` splits a name at its dots, converts the labels and writes a terminator; what does not fit is dropped, here as in
`uv__idna_toascii_label`, and nothing tells the caller. No test in either function looks at what has been written. So what a
function does is one list of bytes and one way to end, whatever the destination (`Uniform`), and the bytes that arrive are the
first ones of that list.

* `toascii_fits_iff`: a result is complete and terminated unless the complete form fills the destination, and
  `uv_getaddrinfo` finds the terminator in its 256 bytes in the same cases.
-/
namespace Libuv.L1.Idna

open List

/-! ## The name -/

def HOSTNAME_ASCII_SIZE : ℕ := 256

def isDot (c : ℕ) : Bool := c == '.'.toNat || c == 0x3002 || c == 0xFF0E || c == 0xFF61

/-- One label; a negative result ends the function.
mirrors idna.c:293-296, 305-308 -/
def convertLabel (fuel de : ℕ) (label d : List UInt8) : Except Exit (List UInt8) :=
  match toasciiLabel fuel de label d with
  | .ret rc d => if rc < 0 then .error (.ret rc d) else .ok d
  | e => .error e

/-- The loop: `label` is what lies between `s` and `si`.
mirrors idna.c:280-309 -/
def toasciiLoop (fuel de : ℕ) (label si d : List UInt8) : Except Exit (List UInt8) :=
  match si with
  | [] => if label = [] then .ok d else convertLabel fuel de label d
  | a :: p =>
    let r := utf8Decode1 (a :: p)
    if r.1 = UINT_MAX then .error (.ret UV_EINVAL d)
    else if isDot r.1 then
      (convertLabel fuel de label d).bind fun d => toasciiLoop fuel de [] r.2 (put de d '.'.toNat)
    else toasciiLoop fuel de (label ++ (a :: p).take ((a :: p).length - r.2.length)) r.2 d
termination_by si.length
decreasing_by all_goals exact Nat.lt_succ_of_le (decode1_length a p)

/-- mirrors idna.c:270-315 -/
def toascii (fuel de : ℕ) (s : List UInt8) : Exit :=
  match toasciiLoop fuel de [] s [] with
  | .ok d => .ret (put de d 0).length (put de d 0)
  | .error e => e

/-- What a destination with room for everything receives before the terminator. -/
def Complete (fuel : ℕ) (s out : List UInt8) : Prop :=
  ∃ N, ∀ de ≥ N, toascii fuel de s = .ret (out.length + 1) (out ++ [0])

/-- A result in a destination of `de` bytes is complete and terminated. -/
def Safe (fuel de : ℕ) (s : List UInt8) : Prop :=
  ∀ rc d, toascii fuel de s = .ret rc d → 0 ≤ rc → ∃ out, Complete fuel s out ∧ d = out ++ [0] ∧ rc = d.length

/-- `strlen` on what has been written; none where it reads on behind that. -/
def strlen (d : List UInt8) : Option ℕ := d.idxOf? 0

/-- The bytes that `uv_getaddrinfo` copies are the converted name and its terminator. The name ends before the first zero in
`hostname`.
mirrors unix/getaddrinfo.c:168-181, 214 -/
def NameRead (fuel : ℕ) (hostname : List UInt8) : Prop :=
  ∀ rc d, toascii fuel HOSTNAME_ASCII_SIZE (hostname.takeWhile (· ≠ 0)) = .ret rc d → 0 ≤ rc →
    ∃ out len, Complete fuel (hostname.takeWhile (· ≠ 0)) out ∧ strlen d = some len ∧ d.take (len + 1) = out ++ [0]

/-! ## What does not depend on the destination -/

inductive End
  | ret (rc : ℤ)
  | abort
  | fuel

def End.exit : End → List UInt8 → Exit
  | .ret rc, d => .ret rc d
  | .abort, _ => .abort
  | .fuel, _ => .fuel

section Uniform

variable {σ τ υ ω : Type}

def outcome (mk : τ → List UInt8 → σ) (r : Except End τ) (d : List UInt8) : Except Exit σ :=
  match r with
  | .ok y => .ok (mk y d)
  | .error e => .error (e.exit d)

/-- `P` writes one list of bytes that meet `A`, and ends in one way; the state that it ends in is made of `y`, which is the same
for every destination, and of what is in the destination. -/
def Uniform (A : ℕ → Prop) (mk : τ → List UInt8 → σ) (P : ℕ → List UInt8 → Except Exit σ) : Prop :=
  ∃ (cs : List ℕ) (r : Except End τ), (∀ c ∈ cs, A c) ∧ ∀ de d, P de d = outcome mk r (putAll de d cs)

variable {A : ℕ → Prop} {mk : τ → List UInt8 → σ} {mk' : υ → List UInt8 → ω}

theorem Uniform.ok {cs : List ℕ} (hcs : ∀ c ∈ cs, A c) (y : τ) : Uniform A mk fun de d => .ok (mk y (putAll de d cs)) :=
  ⟨cs, .ok y, hcs, fun _ _ => rfl⟩

theorem Uniform.pure (y : τ) : Uniform A mk fun _ d => .ok (mk y d) :=
  ⟨[], .ok y, fun _ h => absurd h not_mem_nil, fun _ _ => rfl⟩

theorem Uniform.error (e : End) : Uniform A mk fun _ d => .error (e.exit d) :=
  ⟨[], .error e, fun _ h => absurd h not_mem_nil, fun _ _ => rfl⟩

variable {P : ℕ → List UInt8 → Except Exit σ}

theorem Uniform.bind {Q : ℕ → σ → Except Exit ω} (hP : Uniform A mk P)
    (hQ : ∀ y, Uniform A mk' fun de d => Q de (mk y d)) : Uniform A mk' fun de d => (P de d).bind (Q de) := by
  obtain ⟨cs, r, hcs, hP⟩ := hP
  cases r with
  | error e =>
    refine ⟨cs, .error e, hcs, fun de d => ?_⟩
    dsimp only
    rw [hP]
    rfl
  | ok y =>
    obtain ⟨cs', r', hcs', hQ⟩ := hQ y
    refine ⟨cs ++ cs', r', fun c hc => (mem_append.1 hc).elim (hcs c) (hcs' c), fun de d => ?_⟩
    dsimp only
    rw [hP, putAll_append]
    exact hQ de _

theorem Uniform.map (hP : Uniform A mk P) {f : σ → ω} {g : τ → υ}
    (hf : ∀ y d, f (mk y d) = mk' (g y) d) : Uniform A mk' fun de d => (P de d).map f := by
  have hbind : Uniform A mk' fun de d => (P de d).bind fun x => .ok (f x) :=
    hP.bind (Q := fun _ x => .ok (f x)) fun y => by
      simp only [hf]
      exact .pure (g y)
  exact hbind

theorem Uniform.after (hP : Uniform A mk P) {cs : List ℕ} (hcs : ∀ c ∈ cs, A c) :
    Uniform A mk fun de d => P de (putAll de d cs) := by
  obtain ⟨cs', r, hcs', hP⟩ := hP
  refine ⟨cs ++ cs', r, fun c hc => (mem_append.1 hc).elim (hcs c) (hcs' c), fun de d => ?_⟩
  dsimp only
  rw [hP, putAll_append]

/-! ### Loops -/

theorem checkSequence_ge {min : ℕ} (hmin : min ≤ UINT_MAX) (a b c d : ℕ) : min ≤ checkSequence min a b c d := by
  unfold checkSequence
  dsimp only
  split
  · exact hmin
  split
  · exact hmin
  split
  · exact hmin
  split
  · exact hmin
  · omega

theorem decode1_spec (a : UInt8) (p : List UInt8) :
    ((utf8Decode1 (a :: p)).1 < 128 → (utf8Decode1 (a :: p)).1 = a.toNat) ∧ ∀ b ∈ (utf8Decode1 (a :: p)).2, b ∈ p := by
  have hmax : 128 ≤ UINT_MAX := by decide
  have h1 (n : ℕ) (d : UInt8) (q : List UInt8) : 128 ≤ (case1 n d q).1 ∧ ∀ b ∈ (case1 n d q).2, b ∈ d :: q := by
    unfold case1
    split
    · exact ⟨checkSequence_ge hmax _ _ _ _, fun b hb => mem_cons_of_mem d hb⟩
    · exact ⟨hmax, fun b hb => hb⟩
  have h2 (n : ℕ) (c d : UInt8) (q : List UInt8) : 128 ≤ (case2 n c d q).1 ∧ ∀ b ∈ (case2 n c d q).2, b ∈ c :: d :: q := by
    unfold case2
    split
    · refine ⟨Nat.le_trans (by decide) (checkSequence_ge (by decide) _ _ _ _), fun b hb => ?_⟩
      exact mem_cons_of_mem c (mem_cons_of_mem d hb)
    · exact h1 n c (d :: q)
  have h3 (n : ℕ) (b c d : UInt8) (q : List UInt8) :
      128 ≤ (case3 n b c d q).1 ∧ ∀ x ∈ (case3 n b c d q).2, x ∈ b :: c :: d :: q := by
    unfold case3
    split
    · refine ⟨Nat.le_trans (by decide) (checkSequence_ge (by decide) _ _ _ _), fun x hx => ?_⟩
      exact mem_cons_of_mem b (mem_cons_of_mem c (mem_cons_of_mem d hx))
    · exact h2 n b c (d :: q)
  have hslow (n : ℕ) (q : List UInt8) : 128 ≤ (utf8Decode1Slow q n).1 ∧ ∀ b ∈ (utf8Decode1Slow q n).2, b ∈ q := by
    unfold utf8Decode1Slow
    split
    · exact ⟨hmax, fun b hb => hb⟩
    · split
      · exact ⟨hmax, fun b hb => hb⟩
      · exact h1 _ _ _
      · exact h2 _ _ _ _
      · exact h3 _ _ _ _ _
  rw [utf8Decode1]
  split
  · exact ⟨fun _ => rfl, fun b hb => hb⟩
  · exact ⟨fun hlt => absurd (hslow a.toNat p).1 (Nat.not_le.2 hlt), (hslow a.toNat p).2⟩

def stepMk (mk : τ → List UInt8 → σ) : ForInStep τ → List UInt8 → ForInStep σ
  | .done y, d => .done (mk y d)
  | .yield y, d => .yield (mk y d)

theorem forEach_uniform {body : ℕ → ℕ → σ → Except Exit (ForInStep σ)}
    (hbody : ∀ c y, (c < 128 → A c) → Uniform A (stepMk mk) fun de d => body de c (mk y d)) {s : List UInt8}
    (hs : ∀ b ∈ s, b.toNat < 128 → A b.toNat) (y : τ) : Uniform A mk fun de d => forEach s (mk y d) (body de) := by
  induction hn : s.length using Nat.strongRecOn generalizing s y with
  | _ n ih =>
    cases s with
    | nil =>
      simp only [forEach]
      exact .pure y
    | cons a p =>
      obtain ⟨hascii, hrest⟩ := decode1_spec a p
      have hlen := decode1_length a p
      simp only [forEach]
      generalize utf8Decode1 (a :: p) = r at hascii hrest hlen
      obtain ⟨cs, res, hcs, hres⟩ := hbody r.1 y fun hlt => by
        rw [hascii hlt]
        exact hs a mem_cons_self (hascii hlt ▸ hlt)
      simp only [hres]
      cases res with
      | error e => exact ⟨cs, .error e, hcs, fun _ _ => rfl⟩
      | ok st =>
        cases st with
        | done y' => exact ⟨cs, .ok y', hcs, fun _ _ => rfl⟩
        | yield y' =>
          have hnext := ih r.2.length (by rw [← hn, length_cons]; omega) (s := r.2)
            (fun b hb => hs b (mem_cons_of_mem a (hrest b hb))) y' rfl
          exact hnext.after hcs

theorem forEach_silent {body : List UInt8 → ℕ → σ → Except Exit (ForInStep σ)}
    (hbody : ∀ c x, ∃ r : Except End (ForInStep σ), ∀ d, body d c x = outcome (fun y _ => y) r d) (s : List UInt8) (x : σ) :
    ∃ r : Except End σ, ∀ d, forEach s x (body d) = outcome (fun y _ => y) r d := by
  induction hn : s.length using Nat.strongRecOn generalizing s x with
  | _ n ih =>
    cases s with
    | nil =>
      simp only [forEach]
      exact ⟨.ok x, fun _ => rfl⟩
    | cons a p =>
      have hlen := decode1_length a p
      simp only [forEach]
      generalize utf8Decode1 (a :: p) = r at hlen
      obtain ⟨res, hres⟩ := hbody r.1 x
      simp only [hres]
      cases res with
      | error e => exact ⟨.error e, fun _ => rfl⟩
      | ok st =>
        cases st with
        | done x' => exact ⟨.ok x', fun _ => rfl⟩
        | yield x' => exact ih r.2.length (by rw [← hn, length_cons]; omega) r.2 x' rfl

end Uniform

/-! ## The functions -/

/-- The bytes that the functions write of their own. -/
structure Letters (A : ℕ → Prop) : Prop where
  codes : ∀ c ∈ prefixCodes, A c
  delimiter : A '-'.toNat
  dot : A '.'.toNat
  digit : ∀ d < 36, A (Punycode.digitCode d)

section Functions

variable {A : ℕ → Prop}

/-- The encoder that has written `d`. -/
def encAt (e : Enc) (d : List UInt8) : Enc := { e with d := d }

theorem count_uniform (s : List UInt8) : ∃ r : Except End (ℕ × ℕ), ∀ d, count s d = outcome (fun y _ => y) r d := by
  refine forEach_silent (fun c x => ?_) s (0, 0)
  by_cases h1 : c = UINT_MAX
  · simp only [h1, if_true]
    exact ⟨.error (.ret UV_EINVAL), fun _ => rfl⟩
  · simp only [h1, if_false]
    split
    · exact ⟨.ok _, fun _ => rfl⟩
    · exact ⟨.ok _, fun _ => rfl⟩

theorem findMin_uniform (n : ℕ) (s : List UInt8) : ∃ r : Except End ℕ, ∀ d, findMin n s = outcome (fun y _ => y) r d := by
  refine forEach_silent (fun c m => ?_) s UINT_MAX
  split
  · exact ⟨.error .abort, fun _ => rfl⟩
  · split
    · exact ⟨.ok _, fun _ => rfl⟩
    · exact ⟨.ok _, fun _ => rfl⟩

variable {s : List UInt8}

theorem writeAscii_uniform (h : ℕ) (hs : ∀ b ∈ s, b.toNat < 128 → A b.toNat) :
    Uniform A (fun (x : ℕ) d => (x, d)) fun de d => writeAscii h de s d := by
  refine forEach_uniform (fun c x hc => ?_) hs 0
  by_cases h1 : c = UINT_MAX
  · simp only [h1, if_true]
    exact .error .abort
  by_cases h2 : 127 < c
  · simp only [h1, h2, if_true, if_false]
    exact .pure (ForInStep.yield x)
  · simp only [h1, h2, if_false]
    have hput : ∀ b ∈ [c], A b := fun b hb => by
      rw [mem_singleton.1 hb]
      exact hc (by omega)
    by_cases h3 : u32 (x + 1) = h
    · simp only [h3, if_true]
      exact .ok hput (ForInStep.done h)
    · simp only [h3, if_false]
      exact .ok hput (ForInStep.yield (u32 (x + 1)))

theorem writeCodePoint_uniform (hA : Letters A) (e : Enc) :
    ∃ cs, (∀ c ∈ cs, A c) ∧ ∀ de d, writeCodePoint de (encAt e d) = encAt (writeCodePoint 0 e) (putAll de d cs) := by
  refine ⟨(Punycode.varint e.bias 36 e.delta).map Punycode.digitCode, fun c hc => ?_, fun de d => ?_⟩
  · obtain ⟨x, hx, rfl⟩ := mem_map.1 hc
    exact hA.digit x (Punycode.varint_lt _ _ _ x hx)
  · rw [← writeDelta_eq]
    rfl

theorem visit_uniform (hA : Letters A) (c : ℕ) (e : Enc) : Uniform A (stepMk encAt) fun de d => visit de c (encAt e d) := by
  unfold visit
  by_cases h1 : c = UINT_MAX
  · simp only [h1, if_true]
    exact .error .abort
  simp only [h1, if_false]
  by_cases h2 : c < e.n ∧ u32 (e.delta + 1) = 0
  · have h2' (d : List UInt8) : c < (encAt e d).n ∧ u32 ((encAt e d).delta + 1) = 0 := h2
    simp only [h2', and_self, if_true]
    exact .error (.ret UV_E2BIG)
  have h2' (d : List UInt8) : ¬(c < (encAt e d).n ∧ u32 ((encAt e d).delta + 1) = 0) := h2
  simp only [h2', if_false]
  -- one code point more that is handled already
  obtain ⟨e', he'⟩ : ∃ e' : Enc, ∀ d,
      (if c < (encAt e d).n then { encAt e d with delta := u32 ((encAt e d).delta + 1) } else encAt e d) = encAt e' d := by
    by_cases h3 : c < e.n
    · exact ⟨{ e with delta := u32 (e.delta + 1) }, fun d => if_pos h3⟩
    · exact ⟨e, fun d => if_neg h3⟩
  simp only [he']
  by_cases h4 : c ≠ e'.n
  · have h4' (d : List UInt8) : c ≠ (encAt e' d).n := h4
    simp only [h4', ne_eq, not_false_eq_true, if_true]
    exact .pure (ForInStep.yield e')
  · have h4' (d : List UInt8) : ¬c ≠ (encAt e' d).n := h4
    simp only [h4', if_false]
    obtain ⟨cs, hcs, hw⟩ := writeCodePoint_uniform hA e'
    simp only [hw]
    exact .ok hcs (ForInStep.yield (writeCodePoint 0 e'))

theorem round_uniform (hA : Letters A) (hs : ∀ b ∈ s, b.toNat < 128 → A b.toNat) (e : Enc) :
    Uniform A encAt fun de d => round de s (encAt e d) := by
  have hn (d : List UInt8) : (encAt e d).n = e.n := rfl
  unfold round
  simp only [hn]
  obtain ⟨r, hr⟩ := findMin_uniform e.n s
  cases r with
  | error err =>
    refine ⟨[], .error err, fun _ h => absurd h not_mem_nil, fun de d => ?_⟩
    rw [hr d]
    rfl
  | ok m =>
    have hm : findMin e.n s = .ok m := hr []
    simp only [hm, Except.bind]
    by_cases hover : (UINT_MAX - e.delta) / u32 (e.h + 1) < u32 (m + 2 ^ 32 - e.n)
    · have hover' (d : List UInt8) : (UINT_MAX - (encAt e d).delta) / u32 ((encAt e d).h + 1) < u32 (m + 2 ^ 32 - e.n) := hover
      simp only [hover', if_true]
      exact .error (.ret UV_E2BIG)
    · have hover' (d : List UInt8) : ¬(UINT_MAX - (encAt e d).delta) / u32 ((encAt e d).h + 1) < u32 (m + 2 ^ 32 - e.n) := hover
      simp only [hover', if_false]
      have hloop := forEach_uniform (fun c y _ => visit_uniform hA c y) hs
        { e with delta := u32 (e.delta + u32 (u32 (m + 2 ^ 32 - e.n) * u32 (e.h + 1))), n := m }
      exact hloop.map (g := fun e => { e with delta := u32 (e.delta + 1), n := u32 (e.n + 1) }) fun _ _ => rfl

theorem rounds_uniform (hA : Letters A) (hs : ∀ b ∈ s, b.toNat < 128 → A b.toNat) (fuel : ℕ) (e : Enc) :
    Uniform A encAt fun de d => rounds de s fuel (encAt e d) := by
  -- with nothing left to do the state is returned
  have hdone (e : Enc) {P : ℕ → Enc → Except Exit Enc} (hP : Uniform A encAt fun de d => P de (encAt e d)) :
      Uniform A encAt fun de d => if (encAt e d).todo = 0 then .ok (encAt e d) else P de (encAt e d) := by
    have htodo (d : List UInt8) : (encAt e d).todo = e.todo := rfl
    simp only [htodo]
    by_cases h0 : e.todo = 0
    · simp only [h0, if_true]
      exact .pure e
    · simp only [h0, if_false]
      exact hP
  induction fuel generalizing e with
  | zero => exact hdone e (P := fun _ _ => .error .fuel) (.error .fuel)
  | succ fuel ih => exact hdone e (P := fun de e => (round de s e).bind (rounds de s fuel)) ((round_uniform hA hs e).bind ih)

theorem enter_uniform (hA : Letters A) (hs : ∀ b ∈ s, b.toNat < 128 → A b.toNat) :
    Uniform A encAt fun de d => enter de s d := by
  obtain ⟨r, hr⟩ := count_uniform s
  unfold enter
  simp only [hr]
  cases r with
  | error err => exact .error err
  | ok y =>
    obtain ⟨h, todo⟩ := y
    have hrest : Uniform A encAt fun de d => (writeAscii h de s d).bind fun x =>
        if todo = 0 then .error (.ret (toInt h) x.2)
        else .ok ⟨128, h, todo, 72, 0, true, if 0 < h then put de x.2 '-'.toNat else x.2⟩ := by
      refine (writeAscii_uniform h hs).bind fun x => ?_
      by_cases h0 : todo = 0
      · simp only [h0, if_true]
        exact .error (.ret (toInt h))
      · simp only [h0, if_false]
        by_cases h1 : 0 < h
        · simp only [h1, if_true]
          have hdelim : ∀ c ∈ ['-'.toNat], A c := fun c hc => by
            rw [mem_singleton.1 hc]
            exact hA.delimiter
          exact .ok hdelim (⟨128, h, todo, 72, 0, true, []⟩ : Enc)
        · simp only [h1, if_false]
          exact .pure (⟨128, h, todo, 72, 0, true, []⟩ : Enc)
    simp only [outcome, Except.bind] at hrest ⊢
    by_cases htodo : 0 < todo
    · simp only [htodo, if_true]
      exact hrest.after hA.codes
    · simp only [htodo, if_false]
      exact hrest

theorem toasciiLabel_uniform (hA : Letters A) (hs : ∀ b ∈ s, b.toNat < 128 → A b.toNat) (fuel : ℕ) :
    ∃ cs e, (∀ c ∈ cs, A c) ∧ ∀ de d, toasciiLabel fuel de s d = End.exit e (putAll de d cs) := by
  obtain ⟨cs, r, hcs, hr⟩ := (enter_uniform hA hs).bind (Q := fun de e => rounds de s fuel e) (rounds_uniform hA hs fuel)
  dsimp only at hr
  cases r with
  | error err => exact ⟨cs, err, hcs, fun de d => by rw [toasciiLabel, hr]; rfl⟩
  | ok e => exact ⟨cs, .ret 0, hcs, fun de d => by rw [toasciiLabel, hr]; rfl⟩

theorem convertLabel_uniform (hA : Letters A) (hs : ∀ b ∈ s, b.toNat < 128 → A b.toNat) (fuel : ℕ) :
    Uniform A (fun (_ : Unit) d => d) fun de d => convertLabel fuel de s d := by
  obtain ⟨cs, e, hcs, he⟩ := toasciiLabel_uniform hA hs fuel
  unfold convertLabel
  simp only [he]
  cases e with
  | ret rc =>
    by_cases hrc : rc < 0
    · exact ⟨cs, .error (.ret rc), hcs, fun de d => if_pos hrc⟩
    · exact ⟨cs, .ok (), hcs, fun de d => if_neg hrc⟩
  | abort => exact ⟨cs, .error .abort, hcs, fun _ _ => rfl⟩
  | fuel => exact ⟨cs, .error .fuel, hcs, fun _ _ => rfl⟩

theorem toasciiLoop_uniform (hA : Letters A) (fuel : ℕ) {label si : List UInt8}
    (hlabel : ∀ b ∈ label, b.toNat < 128 → A b.toNat) (hsi : ∀ b ∈ si, b.toNat < 128 → A b.toNat) :
    Uniform A (fun (_ : Unit) d => d) fun de d => toasciiLoop fuel de label si d := by
  induction hn : si.length using Nat.strongRecOn generalizing label si with
  | _ n ih =>
    cases si with
    | nil =>
      simp only [toasciiLoop]
      by_cases hnil : label = []
      · simp only [hnil, if_true]
        exact .pure ()
      · simp only [hnil, if_false]
        exact convertLabel_uniform hA hlabel fuel
    | cons a p =>
      have hrest := (decode1_spec a p).2
      have hlen := decode1_length a p
      simp only [toasciiLoop]
      generalize utf8Decode1 (a :: p) = r at hrest hlen
      have hnext {label : List UInt8} (hlabel : ∀ b ∈ label, b.toNat < 128 → A b.toNat) :
          Uniform A (fun (_ : Unit) d => d) fun de d => toasciiLoop fuel de label r.2 d :=
        ih r.2.length (by rw [← hn, length_cons]; omega) hlabel
          (fun b hb => hsi b (mem_cons_of_mem a (hrest b hb))) rfl
      by_cases h1 : r.1 = UINT_MAX
      · simp only [h1, if_true]
        exact .error (.ret UV_EINVAL)
      simp only [h1, if_false]
      by_cases h2 : isDot r.1 = true
      · simp only [h2, if_true]
        have hdot : ∀ c ∈ ['.'.toNat], A c := fun c hc => by
          rw [mem_singleton.1 hc]
          exact hA.dot
        have hempty : Uniform A (fun (_ : Unit) d => d) fun de d => toasciiLoop fuel de [] r.2 d :=
          hnext fun b hb => absurd hb not_mem_nil
        exact (convertLabel_uniform hA hlabel fuel).bind fun _ => hempty.after hdot
      · simp only [h2]
        refine hnext fun b hb => ?_
        rcases mem_append.1 hb with hb | hb
        · exact hlabel b hb
        · exact hsi b (mem_of_mem_take hb)

theorem toasciiLoop_error {fuel de : ℕ} {rc : ℤ} {d' : List UInt8} {label si d : List UInt8}
    (h : toasciiLoop fuel de label si d = .error (.ret rc d')) : rc < 0 := by
  have hlabel {l d : List UInt8} (h : convertLabel fuel de l d = .error (.ret rc d')) : rc < 0 := by
    unfold convertLabel at h
    generalize toasciiLabel fuel de l d = e at h
    cases e with
    | ret rc' d₁ =>
      dsimp only at h
      split at h
      · next hrc =>
        cases h
        exact hrc
      · cases h
    | abort | fuel => cases h
  induction hn : si.length using Nat.strongRecOn generalizing label si d with
  | _ n ih =>
    cases si with
    | nil =>
      rw [toasciiLoop] at h
      split at h
      · cases h
      · exact hlabel h
    | cons a p =>
      have hlen := decode1_length a p
      rw [toasciiLoop] at h
      generalize utf8Decode1 (a :: p) = r at hlen h
      have hlt : r.2.length < n := by
        rw [← hn, length_cons]
        omega
      split at h
      · cases h
        decide
      split at h
      · cases hconv : convertLabel fuel de label d with
        | ok d₁ =>
          rw [hconv] at h
          exact ih _ hlt h rfl
        | error e =>
          rw [hconv] at h
          cases h
          exact hlabel hconv
      · exact ih _ hlt h rfl

theorem put_terminator (de : ℕ) (cs : List ℕ) : put de (putAll de [] cs) 0 = (cs.map UInt8.ofNat ++ [0]).take de := by
  have hall := putAll_eq de [] (cs ++ [0])
  rw [putAll_append, map_append] at hall
  exact hall

/-- **A name**: the bytes of the complete form, of which as many arrive as there is room for, or how the function fails. -/
theorem toascii_uniform (hA : Letters A) (fuel : ℕ) (hs : ∀ b ∈ s, b.toNat < 128 → A b.toNat) :
    (∃ cs : List ℕ, (∀ c ∈ cs, A c) ∧ ∀ de, toascii fuel de s =
      .ret ((cs.map UInt8.ofNat ++ [0]).take de).length ((cs.map UInt8.ofNat ++ [0]).take de)) ∨
    ∀ de rc d, toascii fuel de s = .ret rc d → rc < 0 := by
  have hloop : Uniform A (fun (_ : Unit) d => d) fun de d => toasciiLoop fuel de [] s d :=
    toasciiLoop_uniform hA fuel (fun b hb => absurd hb not_mem_nil) hs
  obtain ⟨cs, r, hcs, hr⟩ := hloop
  dsimp only at hr
  cases r with
  | ok y =>
    refine .inl ⟨cs, hcs, fun de => ?_⟩
    rw [toascii, hr]
    dsimp only [outcome]
    rw [put_terminator]
  | error e =>
    refine .inr fun de rc d h => ?_
    have hloop := hr de []
    rw [toascii, hloop] at h
    dsimp only [outcome] at h
    rw [outcome, h] at hloop
    exact toasciiLoop_error hloop

end Functions

/-! ## What arrives -/

theorem letters_true : Letters fun _ => True := ⟨fun _ _ => trivial, trivial, trivial, fun _ _ => trivial⟩

theorem letters_nonzero : Letters fun c => UInt8.ofNat c ≠ 0 := ⟨by decide, by decide, by decide, by decide⟩

variable {fuel c : ℕ} {cs : List ℕ}

theorem complete_bytes {s bytes : List UInt8}
    (h : ∀ de, toascii fuel de s = .ret ((bytes ++ [0]).take de).length ((bytes ++ [0]).take de)) (out : List UInt8) :
    Complete fuel s out ↔ out = bytes := by
  have hall {de : ℕ} (hde : bytes.length < de) : (bytes ++ [0]).take de = bytes ++ [0] :=
    take_of_length_le (by rw [length_append]; exact hde)
  constructor
  · intro h
    obtain ⟨N, hN⟩ := h
    have hout := hN (max N (bytes.length + 1)) (le_max_left _ _)
    rw [h, hall (lt_of_lt_of_le (Nat.lt_succ_self _) (le_max_right _ _))] at hout
    exact (append_cancel_right (Exit.ret.inj hout).2).symm
  · intro h
    subst h
    refine ⟨out.length + 1, fun de hde => ?_⟩
    rw [h, hall hde, length_append]
    rfl

theorem complete_none {s : List UInt8} (h : ∀ de rc d, toascii fuel de s = .ret rc d → rc < 0) (out : List UInt8) :
    ¬Complete fuel s out := by
  intro h
  obtain ⟨N, hN⟩ := h
  have hrc := h N _ _ (hN N le_rfl)
  omega

theorem safe_iff (fuel de : ℕ) (s : List UInt8) : Safe fuel de s ↔ ∀ out, Complete fuel s out → out.length < de := by
  rcases toascii_uniform letters_true fuel (s := s) (fun _ _ _ => trivial) with ⟨cs, -, h⟩ | h
  · generalize cs.map UInt8.ofNat = bytes at h
    have hcomplete := complete_bytes h
    constructor
    · intro hsafe out hout
      obtain rfl := (hcomplete out).1 hout
      obtain ⟨out', hout', hd, -⟩ := hsafe _ _ (h de) (Int.natCast_nonneg _)
      obtain rfl := (hcomplete out').1 hout'
      have hlen := congrArg List.length hd
      rw [length_take, length_append, length_singleton] at hlen
      omega
    · intro hfit rc d hret _
      rw [h] at hret
      cases hret
      have hlt := hfit bytes ((hcomplete bytes).2 rfl)
      exact ⟨bytes, (hcomplete bytes).2 rfl, take_of_length_le (by rw [length_append]; exact hlt), rfl⟩
  · refine iff_of_true (fun rc d hret hrc => ?_) fun out hout => absurd hout (complete_none h out)
    exact absurd (h de rc d hret) (not_lt.2 hrc)

theorem strlen_none {d : List UInt8} (h : (0 : UInt8) ∉ d) : strlen d = none := idxOf?_eq_none_iff.2 h

theorem strlen_some {d : List UInt8} (h : (0 : UInt8) ∉ d) : strlen (d ++ [0]) = some d.length := by
  induction d with
  | nil => rfl
  | cons b d ih =>
    have hb : b ≠ 0 := fun hb => h (hb ▸ mem_cons_self)
    have ih := ih fun hmem => h (mem_cons_of_mem b hmem)
    unfold strlen at ih ⊢
    rw [cons_append, idxOf?_cons, if_neg (by simpa using hb), ih]
    rfl

theorem nameRead_iff (fuel : ℕ) (hostname : List UInt8) :
    NameRead fuel hostname ↔ ∀ out, Complete fuel (hostname.takeWhile (· ≠ 0)) out → out.length < HOSTNAME_ASCII_SIZE := by
  have hname : ∀ b ∈ hostname.takeWhile (· ≠ 0), b.toNat < 128 → UInt8.ofNat b.toNat ≠ 0 := by
    intro b hb _
    simpa using mem_takeWhile_imp hb
  rcases toascii_uniform letters_nonzero fuel hname with ⟨cs, hcs, h⟩ | h
  · have hzero : (0 : UInt8) ∉ cs.map UInt8.ofNat := by
      intro hmem
      obtain ⟨c, hc, h0⟩ := mem_map.1 hmem
      exact hcs c hc h0
    generalize cs.map UInt8.ofNat = bytes at h hzero
    have hcomplete := complete_bytes h
    constructor
    · intro hread out hout
      obtain rfl := (hcomplete out).1 hout
      by_contra hlong
      obtain ⟨out', len, -, hlen, -⟩ := hread _ _ (h _) (Int.natCast_nonneg _)
      rw [take_append_of_le_length (by omega), strlen_none fun hmem => hzero (mem_of_mem_take hmem)] at hlen
      cases hlen
    · intro hfit rc d hret _
      have hlt := hfit bytes ((hcomplete bytes).2 rfl)
      rw [h, take_of_length_le (by rw [length_append]; exact hlt)] at hret
      cases hret
      exact ⟨bytes, bytes.length, (hcomplete bytes).2 rfl, strlen_some hzero,
        take_of_length_le (by rw [length_append]; rfl)⟩
  · refine iff_of_true (fun rc d hret hrc => ?_) fun out hout => absurd hout (complete_none h out)
    exact absurd (h _ rc d hret) (not_lt.2 hrc)

/-! ## The complete form -/

/-- The ASCII form of a label, as RFC 3492 has it; none where a delta has no room in 32 bits. -/
def labelForm (cs : List ℕ) : Option (List ℕ) :=
  if ∀ c ∈ cs, c < 128 then some cs
  else if ∀ delta ∈ Punycode.deltas cs, delta < 2 ^ 32 then some (prefixCodes ++ Punycode.encode cs)
  else none

/-- The ASCII form of a name whose first label begins with `label`. -/
def nameForm (label : List ℕ) : List ℕ → Option (List ℕ)
  | [] => labelForm label
  | c :: cs =>
    if isDot c then (labelForm label).bind fun x => (nameForm [] cs).map fun y => x ++ '.'.toNat :: y
    else nameForm (label ++ [c]) cs

theorem convertLabel_form (hs : ∀ c ∈ cs, Scalar c) (hlen : cs.length < 2 ^ 31)
    (hfuel : cs.length ≤ fuel) :
    (∃ x, labelForm cs = some x ∧ ∀ de d, convertLabel fuel de (cs.flatMap encode) d = .ok (putAll de d x)) ∨
      labelForm cs = none ∧ ∀ de d, ∃ d', convertLabel fuel de (cs.flatMap encode) d = .error (.ret UV_E2BIG d') := by
  have hlen' : cs.length < 2 ^ 32 := hlen.trans (by norm_num)
  unfold labelForm convertLabel
  by_cases hascii : ∀ c ∈ cs, c < 128
  · refine .inl ⟨cs, if_pos hascii, fun de d => ?_⟩
    have hrc : ¬toInt cs.length < 0 := by
      rw [toInt]
      omega
    rw [label_ascii hlen' hascii, putAll_eq, encode_ascii hascii]
    exact if_neg hrc
  · have hother : ∃ c ∈ cs, 128 ≤ c := by
      by_contra hno
      exact hascii fun c hc => Nat.lt_of_not_le fun h => hno ⟨c, hc, h⟩
    rw [if_neg hascii]
    by_cases hfit : ∀ delta ∈ Punycode.deltas cs, delta < 2 ^ 32
    · refine .inl ⟨_, if_pos hfit, fun de d => ?_⟩
      obtain ⟨-, hret⟩ | ⟨⟨delta, hmem, hge⟩, -⟩ := label_spec hs hlen' hother de d hfuel
      · rw [hret, putAll_eq]
        exact if_neg (lt_irrefl 0)
      · exact absurd (hfit delta hmem) (Nat.not_lt.2 hge)
    · refine .inr ⟨if_neg hfit, fun de d => ?_⟩
      obtain ⟨hall, -⟩ | ⟨-, d', hret⟩ := label_spec hs hlen' hother de d hfuel
      · exact absurd hall hfit
      · rw [hret]
        exact ⟨d', if_pos (by decide)⟩

theorem flatMap_encode_ne_nil (h : cs ≠ []) : cs.flatMap encode ≠ [] := by
  obtain ⟨c, l, rfl⟩ := exists_cons_of_ne_nil h
  exact append_ne_nil_of_left_ne_nil (encode_ne_nil c) _

theorem loop_nil (fuel de : ℕ) (label d : List UInt8) :
    toasciiLoop fuel de label [] d = if label = [] then .ok d else convertLabel fuel de label d := by
  rw [toasciiLoop]

theorem loop_cons (fuel de : ℕ) (hc : Scalar c) (label : List UInt8) (cs : List ℕ) (d : List UInt8) :
    toasciiLoop fuel de label ((c :: cs).flatMap encode) d =
      if isDot c then (convertLabel fuel de label d).bind fun d => toasciiLoop fuel de [] (cs.flatMap encode) (put de d '.'.toNat)
      else toasciiLoop fuel de (label ++ encode c) (cs.flatMap encode) d := by
  have hdec := decode1_encode hc (cs.flatMap encode)
  have htake : (encode c ++ cs.flatMap encode).take ((encode c ++ cs.flatMap encode).length - (cs.flatMap encode).length) =
      encode c := by
    rw [length_append, Nat.add_sub_cancel, take_left]
  rw [flatMap_cons]
  obtain ⟨a, q, haq⟩ := exists_cons_of_ne_nil (append_ne_nil_of_left_ne_nil (encode_ne_nil c) (cs.flatMap encode))
  rw [haq] at hdec htake ⊢
  have hmax : (c, cs.flatMap encode).1 ≠ UINT_MAX := hc.ne_max
  rw [toasciiLoop, hdec]
  simp only [hmax, if_false, htake]

theorem loop_dot (fuel de : ℕ) (hc : Scalar c) (hdot : isDot c = true) (label : List UInt8) (cs : List ℕ)
    (d : List UInt8) : toasciiLoop fuel de label ((c :: cs).flatMap encode) d =
      (convertLabel fuel de label d).bind fun d => toasciiLoop fuel de [] (cs.flatMap encode) (put de d '.'.toNat) := by
  rw [loop_cons fuel de hc, if_pos hdot]

theorem loop_other (fuel de : ℕ) (hc : Scalar c) (hdot : ¬isDot c = true) (label cs : List ℕ) (d : List UInt8) :
    toasciiLoop fuel de (label.flatMap encode) ((c :: cs).flatMap encode) d =
      toasciiLoop fuel de ((label ++ [c]).flatMap encode) (cs.flatMap encode) d := by
  rw [loop_cons fuel de hc, if_neg hdot, flatMap_append, flatMap_singleton]

theorem toasciiLoop_form {label : List ℕ} (hs : ∀ c ∈ label ++ cs, Scalar c) (hlen : (label ++ cs).length < 2 ^ 31)
    (hfuel : (label ++ cs).length ≤ fuel) :
    (∃ x, nameForm label cs = some x ∧
      ∀ de d, toasciiLoop fuel de (label.flatMap encode) (cs.flatMap encode) d = .ok (putAll de d x)) ∨
      nameForm label cs = none ∧
        ∀ de d, ∃ d', toasciiLoop fuel de (label.flatMap encode) (cs.flatMap encode) d = .error (.ret UV_E2BIG d') := by
  induction cs generalizing label with
  | nil =>
    rw [append_nil] at hs hlen hfuel
    rw [flatMap_nil]
    simp only [loop_nil, nameForm]
    by_cases hnil : label = []
    · subst hnil
      exact .inl ⟨[], if_pos fun c hc => absurd hc not_mem_nil, fun de d => if_pos rfl⟩
    · have hne : label.flatMap encode ≠ [] := flatMap_encode_ne_nil hnil
      simp only [hne, if_false]
      exact convertLabel_form hs hlen hfuel
  | cons c cs ih =>
    have hc : Scalar c := hs c (mem_append_right label mem_cons_self)
    by_cases hdot : isDot c = true
    · simp only [loop_dot fuel _ hc hdot, nameForm, hdot, if_true]
      have hrest : ∀ c' ∈ ([] : List ℕ) ++ cs, Scalar c' := fun c' hc' =>
        hs c' (mem_append_right label (mem_cons_of_mem c hc'))
      have hlabel : ∀ c' ∈ label, Scalar c' := fun c' hc' => hs c' (mem_append_left (c :: cs) hc')
      rw [length_append, length_cons] at hlen hfuel
      rcases convertLabel_form hlabel (by omega) (show label.length ≤ fuel by omega) with ⟨x, hx, hok⟩ | ⟨hx, herr⟩
      · simp only [hx, hok, Option.bind_some, Except.bind]
        rcases ih hrest (by rw [nil_append]; omega) (by rw [nil_append]; omega) with ⟨y, hy, hok'⟩ | ⟨hy, herr'⟩
        · refine .inl ⟨x ++ '.'.toNat :: y, by rw [hy]; rfl, fun de d => ?_⟩
          rw [putAll_append]
          exact hok' de _
        · exact .inr ⟨by rw [hy]; rfl, fun de d => herr' de _⟩
      · simp only [hx, Option.bind_none]
        refine .inr ⟨trivial, fun de d => ?_⟩
        obtain ⟨d', hd'⟩ := herr de d
        exact ⟨d', by rw [hd']; rfl⟩
    · simp only [loop_other fuel _ hc hdot, nameForm, hdot]
      exact ih (by rwa [← append_cons]) (by rwa [← append_cons]) (by rwa [← append_cons])

/-- **The complete form of a name** that is valid UTF-8: its labels, in the form of RFC 3492, with dots between them. -/
theorem complete_iff (hs : ∀ c ∈ cs, Scalar c) (hlen : cs.length < 2 ^ 31) (hfuel : cs.length ≤ fuel)
    (out : List UInt8) :
    Complete fuel (cs.flatMap encode) out ↔ (nameForm [] cs).map (fun x => x.map UInt8.ofNat) = some out := by
  rcases @toasciiLoop_form fuel cs [] hs hlen hfuel with ⟨x, hx, hok⟩ | ⟨hx, herr⟩
  · have hret (de : ℕ) : toascii fuel de (cs.flatMap encode) =
        .ret ((x.map UInt8.ofNat ++ [0]).take de).length ((x.map UInt8.ofNat ++ [0]).take de) := by
      have hloop := hok de []
      rw [flatMap_nil] at hloop
      rw [toascii, hloop, ← put_terminator]
    rw [complete_bytes hret, hx, Option.map_some, Option.some.injEq]
    exact eq_comm
  · refine iff_of_false (complete_none (fun de rc d h => ?_) out) fun h => ?_
    · obtain ⟨d', hd'⟩ := herr de []
      rw [flatMap_nil] at hd'
      rw [toascii, hd'] at h
      cases h
      decide
    · rw [hx] at h
      cases h

theorem complete_plain (hs : ∀ c ∈ cs, c < 128 ∧ isDot c = false) (hlen : cs.length < 2 ^ 31) :
    Complete cs.length (cs.flatMap encode) (cs.map UInt8.ofNat) := by
  have hform (label cs : List ℕ) (h : ∀ c ∈ cs, isDot c = false) : nameForm label cs = labelForm (label ++ cs) := by
    induction cs generalizing label with
    | nil => rw [nameForm, append_nil]
    | cons c cs ih =>
      have hc : ¬isDot c = true := by
        rw [h c mem_cons_self]
        exact Bool.false_ne_true
      rw [nameForm, if_neg hc, ih _ fun c' hc' => h c' (mem_cons_of_mem c hc'), ← append_cons]
  have hscalar : ∀ c ∈ cs, Scalar c := fun c hc => by
    have hlt := (hs c hc).1
    exact ⟨by omega, by omega⟩
  refine (complete_iff hscalar hlen le_rfl _).2 ?_
  rw [hform [] cs fun c hc => (hs c hc).2, nil_append, labelForm, if_pos fun c hc => (hs c hc).1]
  rfl

/-- **A name that is converted arrives complete and terminated, and `uv_getaddrinfo` copies it**, exactly where the complete form
leaves room for the terminator. -/
theorem toascii_fits_iff (fuel : ℕ) (s : List UInt8) :
    (∀ de, Safe fuel de s ↔ ∀ out, Complete fuel s out → out.length < de) ∧
      (NameRead fuel s ↔ ∀ out, Complete fuel (s.takeWhile (· ≠ 0)) out → out.length < HOSTNAME_ASCII_SIZE) :=
  ⟨fun de => safe_iff fuel de s, nameRead_iff fuel s⟩

/-- `a` in a destination of one byte, and 256 times `a` as a host name. -/
theorem toascii_full : (¬∀ fuel de s, 0 < de → Safe fuel de s) ∧ ¬∀ fuel hostname, NameRead fuel hostname := by
  constructor
  · intro hall
    have hcomplete := @complete_plain [97] (by decide) (by decide)
    have hlt := (safe_iff _ 1 _).1 (hall _ 1 _ Nat.one_pos) _ hcomplete
    exact absurd hlt (by decide)
  · intro hall
    have hplain : ∀ c ∈ List.replicate 256 97, c < 128 ∧ isDot c = false := fun c hc => by
      rw [(mem_replicate.1 hc).2]
      decide
    have hcomplete := complete_plain hplain (by rw [length_replicate]; norm_num)
    have hname : ((List.replicate 256 97).flatMap encode).takeWhile (· ≠ 0) = (List.replicate 256 97).flatMap encode := by
      have hall : ∀ b ∈ (List.replicate 256 97).flatMap encode, (b ≠ 0 : Bool) = true := fun b hb => by
        obtain ⟨c, hc, hb⟩ := mem_flatMap.1 hb
        rw [(mem_replicate.1 hc).2] at hb
        rw [mem_singleton.1 hb]
        decide
      have happend := @takeWhile_append_of_pos _ _ ((List.replicate 256 97).flatMap encode) [] hall
      rwa [takeWhile_nil, append_nil] at happend
    rw [← hname] at hcomplete
    have hlt := (nameRead_iff _ _).1 (hall _ _) _ hcomplete
    rw [length_map, length_replicate] at hlt
    exact absurd hlt (lt_irrefl 256)

end Libuv.L1.Idna
