import Libuv.L1Data.Utf8

/-!
# Labels to ASCII (`idna.c`)

`uv__idna_toascii_label` reads its label `[s, se)` once for each pass: `forEach` is the loop
`while (s < se) { c = uv__utf8_decode1(&s, se); … }`, whose body may `break` (`.done`) or
return from the function. The output is the list of bytes written, of which `de` fit; what
does not fit is dropped. `unsigned` arithmetic is reduced by `u32` where it can wrap. The
outer `while` takes fuel.
-/
namespace Libuv.L1.Idna

def u32 (n : ℕ) : ℕ := n % 2 ^ 32

def UV_EINVAL : ℤ := -22

def UV_E2BIG : ℤ := -7

/-- The conversion of an `unsigned` to `int`. -/
def toInt (n : ℕ) : ℤ := if n < 2 ^ 31 then n else n - 2 ^ 32

/-- How the function ends: with a return value and the output, in a failed assertion, or (in the model
only) without fuel. -/
inductive Exit where
  | ret (rc : ℤ) (d : List UInt8)
  | abort
  | fuel
  deriving DecidableEq

theorem case1_length (a : ℕ) (d : UInt8) (p : List UInt8) : (case1 a d p).2.length ≤ p.length + 1 := by
  unfold case1
  split <;> simp

theorem case2_length (a : ℕ) (c d : UInt8) (p : List UInt8) : (case2 a c d p).2.length ≤ p.length + 2 := by
  unfold case2
  split
  · simp
  · exact case1_length a c (d :: p)

theorem case3_length (a : ℕ) (b c d : UInt8) (p : List UInt8) : (case3 a b c d p).2.length ≤ p.length + 3 := by
  unfold case3
  split
  · simp
  · exact case2_length a b c (d :: p)

theorem decode1Slow_length (p : List UInt8) (a : ℕ) : (utf8Decode1Slow p a).2.length ≤ p.length := by
  unfold utf8Decode1Slow
  split
  · exact Nat.le_refl p.length
  · match p with
    | [] => exact Nat.le_refl 0
    | [d] => exact case1_length a d []
    | [c, d] => exact case2_length a c d []
    | b :: c :: d :: p => exact case3_length a b c d p

theorem decode1_length (a : UInt8) (p : List UInt8) : (utf8Decode1 (a :: p)).2.length ≤ p.length := by
  by_cases h : a.toNat < 128
  · rw [utf8Decode1, if_pos h]
  · rw [utf8Decode1, if_neg h]
    exact decode1Slow_length p a.toNat

def forEach {σ : Type} (s : List UInt8) (x : σ) (body : ℕ → σ → Except Exit (ForInStep σ)) : Except Exit σ :=
  match s with
  | [] => .ok x
  | a :: p =>
    let r := utf8Decode1 (a :: p)
    match body r.1 x with
    | .error e => .error e
    | .ok (.done x) => .ok x
    | .ok (.yield x) => forEach r.2 x body
termination_by s.length
decreasing_by exact Nat.lt_succ_of_le (decode1_length a p)

/-- `if (*d < de) *(*d)++ = c;` -/
def put (de : ℕ) (d : List UInt8) (c : ℕ) : List UInt8 := if d.length < de then d ++ [UInt8.ofNat c] else d

def alphabet : List ℕ := "abcdefghijklmnopqrstuvwxyz0123456789".toList.map Char.toNat

/-- The numbers of ASCII and of other characters.
mirrors idna.c:123-140 -/
def count (s d : List UInt8) : Except Exit (ℕ × ℕ) :=
  forEach s (0, 0) fun c (h, todo) =>
    if c = UINT_MAX then .error (.ret UV_EINVAL d)
    else if c < 128 then .ok (.yield (u32 (h + 1), todo))
    else .ok (.yield (h, u32 (todo + 1)))

/-- mirrors idna.c:150-165 -/
def writeAscii (h de : ℕ) (s d : List UInt8) : Except Exit (ℕ × List UInt8) :=
  forEach s (0, d) fun c (x, d) =>
    if c = UINT_MAX then .error .abort
    else if 127 < c then .ok (.yield (x, d))
    else
      let d := put de d c
      let x := u32 (x + 1)
      if x = h then .ok (.done (x, d)) else .ok (.yield (x, d))

/-- The smallest code point from `n` on.
mirrors idna.c:181-191 -/
def findMin (n : ℕ) (s : List UInt8) : Except Exit ℕ :=
  forEach s UINT_MAX fun c m =>
    if c = UINT_MAX then .error .abort
    else if n ≤ c then .ok (.yield (if c < m then c else m))
    else .ok (.yield m)

structure Enc where
  n : ℕ
  h : ℕ
  todo : ℕ
  bias : ℕ
  delta : ℕ
  first : Bool
  d : List UInt8

/-- The `t` of a digit.
mirrors idna.c:215-221 -/
def tOf (bias k : ℕ) : ℕ :=
  let t := if bias < k then k - bias else 1
  if 26 < t then 26 else t

theorem tOf_pos (bias k : ℕ) : 1 ≤ tOf bias k := by
  unfold tOf
  grind

/-- mirrors idna.c:214-240 -/
def writeDelta (de bias k q : ℕ) (d : List UInt8) : List UInt8 :=
  let t := tOf bias k
  if _h : q < t then put de d (alphabet.getD q 0)
  else
    let x := q - t
    let y := 36 - t
    writeDelta de bias (k + 36) (x / y) (put de d (alphabet.getD (t + x % y) 0))
termination_by q
decreasing_by exact (Nat.div_le_self _ _).trans_lt (by have := tOf_pos bias k; omega)

/-- mirrors idna.c:255-258 -/
def adaptBias (delta bias : ℕ) : ℕ :=
  if h : 35 * 26 / 2 < delta then adaptBias (delta / 35) (bias + 36) else bias + 36 * delta / (delta + 38)
termination_by delta
decreasing_by exact Nat.div_lt_self (by omega) (by decide)

/-- The code point `n` is written.
mirrors idna.c:214-260 -/
def writeCodePoint (de : ℕ) (e : Enc) : Enc :=
  let d := writeDelta de e.bias 36 e.delta e.d
  let delta := e.delta / 2
  let delta := if e.first then delta / 350 else delta
  let h := u32 (e.h + 1)
  let delta := u32 (delta + delta / h)
  { e with d := d, first := false, h := h, bias := adaptBias delta 0, delta := 0, todo := u32 (e.todo + UINT_MAX) }

/-- The body of the second inner loop.
mirrors idna.c:204-260 -/
def visit (de c : ℕ) (e : Enc) : Except Exit (ForInStep Enc) :=
  if c = UINT_MAX then .error .abort
  else if c < e.n ∧ u32 (e.delta + 1) = 0 then .error (.ret UV_E2BIG e.d)
  else
    let e := if c < e.n then { e with delta := u32 (e.delta + 1) } else e
    if c ≠ e.n then .ok (.yield e) else .ok (.yield (writeCodePoint de e))

/-- mirrors idna.c:180-265 -/
def round (de : ℕ) (s : List UInt8) (e : Enc) : Except Exit Enc :=
  (findMin e.n s).bind fun m =>
    let x := u32 (m + 2 ^ 32 - e.n)
    let y := u32 (e.h + 1)
    if (UINT_MAX - e.delta) / y < x then .error (.ret UV_E2BIG e.d)
    else (forEach s { e with delta := u32 (e.delta + u32 (x * y)), n := m } (visit de)).map fun e =>
      { e with delta := u32 (e.delta + 1), n := u32 (e.n + 1) }

/-- `while (todo > 0)` -/
def rounds (de : ℕ) (s : List UInt8) : ℕ → Enc → Except Exit Enc
  | 0, e => if e.todo = 0 then .ok e else .error .fuel
  | fuel + 1, e => if e.todo = 0 then .ok e else (round de s e).bind (rounds de s fuel)

/-- What comes before the `while`.
mirrors idna.c:123-178 -/
def enter (de : ℕ) (s d : List UInt8) : Except Exit Enc :=
  (count s d).bind fun (h, todo) =>
    let d := if 0 < todo then ("xn--".toList.map Char.toNat).foldl (put de) d else d
    (writeAscii h de s d).bind fun (_, d) =>
      if todo = 0 then .error (.ret (toInt h) d)
      else
        let d := if 0 < h then put de d '-'.toNat else d
        .ok ⟨128, h, todo, 72, 0, true, d⟩

/-- mirrors idna.c:105-268 -/
def toasciiLabel (fuel de : ℕ) (s d : List UInt8) : Exit :=
  match (enter de s d).bind (rounds de s fuel) with
  | .ok e => .ret 0 e.d
  | .error e => e

end Libuv.L1.Idna
