import Libuv.L5Windows.TtyWrite

/-!
# Control sequences (`win/tty.c`)

A control sequence is read one character at a time. Its parameters go to the array of arguments, each digit to the number
that is already there; a sequence that cannot be obeyed is read up to its final character and forgotten.

`Reads` is a triple over bytes: what the parser is before and after, and the characters and actions that come of the bytes.
`At` is the parser within a sequence: the arguments so far, or `none` where the rest is ignored.

A number is taken modulo 2^16, and given up for a digit that follows more than 6553. That finds every number above 65535 but
those that begin with 65536, ..., 65539. And after `ESC [ arguments space` a character that does not end the sequence is
written.

* `csi_iff`: a sequence is obeyed with the arguments that are written, or leaves no trace, if and only if `Sound` holds.
* `csi_wraps`: 65537 moves the caret up by a line.
-/
namespace Libuv.L5.TtyCsi

open TtyWrite Option

/-! ## Sequences -/

/-- The number that digits stand for, and 0 for none. -/
def value (p : List (Fin 10)) : ℕ := p.foldl (fun v d => 10 * v + d.val) 0

def digitChar (d : Fin 10) : UInt8 := 0x30 + UInt8.ofNat d.val

inductive Intro
  | esc
  | c1
deriving DecidableEq

/-- `ESC [`, or U+009B. -/
def Intro.text : Intro → List UInt8
  | .esc => [0x1b, 0x5b]
  | .c1 => [0xc2, 0x9b]

def paramsText : List (List (Fin 10)) → List UInt8
  | [] => []
  | [p] => p.map digitChar
  | p :: ps => p.map digitChar ++ 0x3b :: paramsText ps

def stored : List (List (Fin 10)) → List (List (Fin 10))
  | [] => []
  | [p] => if p = [] then [] else [p]
  | p :: ps => p :: stored ps

structure Sequence where
  intro : Intro
  question : Bool
  params : List (List (Fin 10))
  space : Bool
  others : List UInt8
  final : UInt8
  others_range : ∀ c ∈ others, 0x20 ≤ c ∧ c ≤ 0x3f
  final_range : 0x40 ≤ final ∧ final ≤ 0x7e
  /-- What comes behind the parameters is not one of them. -/
  others_head : space = false → ∀ c, others.head? = some c →
    ¬ (0x30 ≤ c ∧ c ≤ 0x39) ∧ c ≠ 0x3b ∧ c ≠ 0x20 ∧ (c = 0x3f → question = true ∨ stored params ≠ [])

def argsOf (vals : List ℕ) : CsiArgs :=
  ⟨UInt8.ofNat vals.length, Vector.ofFn fun i : Fin 4 => UInt16.ofNat (vals.getD i.val 0)⟩

def action? : Escape → Option Action
  | .control a => some a
  | _ => none

namespace Sequence
variable (q : Sequence)

def text : List UInt8 :=
  q.intro.text ++ ((if q.question then [0x3f] else []) ++ (paramsText q.params ++
    ((if q.space then [0x20] else []) ++ (q.others ++ [q.final]))))

/-- What the final character asks for with these arguments, if anything. -/
def action (vals : List ℕ) : Option Action :=
  if q.others ≠ [] then none
  else
    match q.question, q.space with
    | true, true => none
    | true, false => action? (extension (argsOf vals) q.final.toUInt32)
    | false, true => action? (ansiDecscusr (argsOf vals) q.final.toUInt32).esc
    | false, false => (command (argsOf vals) q.final.toUInt32).bind action?

/-- No more than there is room for, and none above 65535. -/
def Representable : Prop := (stored q.params).length ≤ 4 ∧ ∀ p ∈ stored q.params, value p ≤ 0xffff

instance : Decidable q.Representable := inferInstanceAs (Decidable (_ ∧ _))

/-- The action, with the arguments that are written. -/
def wanted : Option Action := if q.Representable then q.action ((stored q.params).map value) else none

end Sequence

def Fits (p : List (Fin 10)) : Prop := ∀ n < p.length, 10 * (value (p.take n) % 2 ^ 16) ≤ 0xffff

instance (p : List (Fin 10)) : Decidable (Fits p) := inferInstanceAs (Decidable (∀ n < _, _))

namespace Sequence
variable (q : Sequence)

/-- The code finds nothing wrong with the parameters. -/
def Accepted : Prop := (stored q.params).length ≤ 4 ∧ ∀ p ∈ stored q.params, Fits p

instance : Decidable q.Accepted := inferInstanceAs (Decidable (_ ∧ _))

/-- A blank ends the parameters, and is not followed by the final character. -/
def Trails : Prop := q.question = false ∧ q.space = true ∧ q.others ≠ []

instance : Decidable q.Trails := inferInstanceAs (Decidable (_ ∧ _))

/-- A sequence with parameters that are accepted does not trail, and where one of them is above 65535, nothing is done for
what is left of them modulo 2^16. -/
def Sound : Prop :=
  q.Accepted → ¬ q.Trails ∧
    ((∃ p ∈ stored q.params, 0xffff < value p) → q.action ((stored q.params).map (value · % 2 ^ 16)) = none)

def outcome : List Call :=
  if q.Accepted then
    if q.Trails then (q.others.head?.map fun c => .text [c.toUInt16]).toList
    else ((q.action ((stored q.params).map (value · % 2 ^ 16))).map Call.control).toList
  else []

end Sequence

/-! ## Numbers -/

section
variable {p : List (Fin 10)}

theorem value_append (p : List (Fin 10)) (d : Fin 10) : value (p ++ [d]) = 10 * value p + d.val := by
  simp [value]

theorem fits_append (d : Fin 10) : Fits (p ++ [d]) ↔ Fits p ∧ 10 * (value p % 2 ^ 16) ≤ 0xffff := by
  constructor
  · intro h
    refine ⟨?_, ?_⟩
    · intro n hn
      have hn' := h n (by simp; omega)
      rwa [List.take_append_of_le_length (Nat.le_of_lt hn)] at hn'
    · have hn' := h p.length (by simp)
      rwa [List.take_append_of_le_length (Nat.le_refl _), List.take_length] at hn'
  · intro h n hn
    simp only [List.length_append, List.length_singleton] at hn
    obtain hlt | rfl := Nat.lt_succ_iff_lt_or_eq.mp hn
    · rw [List.take_append_of_le_length (Nat.le_of_lt hlt)]
      exact h.1 n hlt
    · rw [List.take_append_of_le_length (Nat.le_refl _), List.take_length]
      exact h.2

theorem value_take_le (p : List (Fin 10)) {n : ℕ} (hn : n < p.length) : 10 * value (p.take n) ≤ value p := by
  induction p using List.reverseRecOn with
  | nil => cases hn
  | append_singleton p d ih =>
    rw [value_append]
    simp only [List.length_append, List.length_singleton] at hn
    obtain hlt | rfl := Nat.lt_succ_iff_lt_or_eq.mp hn
    · rw [List.take_append_of_le_length (Nat.le_of_lt hlt)]
      omega
    · rw [List.take_append_of_le_length (Nat.le_refl _), List.take_length]
      omega

theorem fits_of_le (h : value p ≤ 0xffff) : Fits p := by
  intro n hn
  have hle := value_take_le p hn
  omega

end

theorem Sequence.Representable.accepted {q : Sequence} (h : q.Representable) : q.Accepted :=
  ⟨h.1, fun p hp => fits_of_le (h.2 p hp)⟩

/-! ## Bytes -/

/-- From a parser of which `P` is true, the bytes lead to one of which `Q` is true; `cs` comes of them. -/
def Reads (env : Env) (P : Wr → Prop) (bs : List UInt8) (Q : Wr → Prop) (cs : List Call) : Prop :=
  ∀ w, P w → ∃ x, feedAll env w bs = some x ∧ Q x.1 ∧ x.2.flatMap Reaction.chars = cs

section
variable {env : Env} {P Q R : Wr → Prop} {bs bs' : List UInt8} {cs cs' : List Call}

theorem Reads.nil : Reads env P [] P [] := fun w hw => ⟨(w, []), rfl, hw, rfl⟩

theorem Reads.append (h : Reads env P bs Q cs) (h' : Reads env Q bs' R cs') : Reads env P (bs ++ bs') R (cs ++ cs') := by
  intro w hw
  obtain ⟨x, hx, hq, hcs⟩ := h w hw
  obtain ⟨y, hy, hr, hcs'⟩ := h' x.1 hq
  refine ⟨(y.1, x.2 ++ y.2), ?_, hr, ?_⟩
  · rw [feedAll_append, hx, bind_some, hy]
    rfl
  · rw [List.flatMap_append, hcs, hcs']

theorem Reads.mono (h : Reads env P bs Q cs) (hqr : ∀ w, Q w → R w) : Reads env P bs R cs := by
  intro w hw
  obtain ⟨x, hx, hq, hcs⟩ := h w hw
  exact ⟨x, hx, hqr x.1 hq, hcs⟩

theorem Reads.then (h : Reads env P bs Q []) (h' : Reads env Q bs' R cs) : Reads env P (bs ++ bs') R cs := h.append h'

theorem Reads.all (h : ∀ c ∈ bs, Reads env P [c] P []) : Reads env P bs P [] := by
  induction bs with
  | nil => exact .nil
  | cons c bs ih =>
    have hrest := ih fun c' hc' => h c' (List.mem_cons_of_mem _ hc')
    exact (h c List.mem_cons_self).then hrest

end

/-- The parser, with no bytes of a code point to come. -/
structure In (st : UInt16) (A : CsiArgs → Prop) (w : Wr) : Prop where
  left : w.cache.utf8BytesLeft = 0
  state : w.cache.ansiParserState = st
  args : A w.args

def Rest : Wr → Prop := In ANSI_NORMAL fun _ => True

/-! ### A character below U+0080 -/

theorem log2_not : ∀ n < 128, (~~~ UInt8.ofNat n).toUInt32.log2 = 7 := by decide

theorem firstZeroBit_ascii (cc : Compiler) {c : UInt8} (h0 : 0 < c) (h : c < 0x80) : firstZeroBit cc c = some 7 := by
  have hlog : (~~~ c).toUInt32.log2 = 7 := by
    have := log2_not c.toNat (UInt8.lt_iff_toNat_lt.mp h)
    rwa [UInt8.ofNat_toNat] at this
  have hne : ~~~ c ≠ 0 := by
    intro hf
    rw [hf] at hlog
    exact absurd hlog (by decide)
  have hc : c ≠ 0 := by
    rintro rfl
    exact absurd h0 (by decide)
  cases cc with
  | msc => simp only [firstZeroBit, if_neg hne, hlog]
  | gcc clz0 =>
    simp only [firstZeroBit, if_neg hc, if_neg hne, hlog]
    rfl

theorem decode_ascii (cc : Compiler) {s : Cache} (hs : s.utf8BytesLeft = 0) {c : UInt8} (h0 : 0 < c) (h : c < 0x80) :
    decode cc s c = ({ s with utf8Codepoint := c.toUInt32 }, false) := by
  rw [decode, if_pos hs, firstZeroBit_ascii cc h0 h]
  rfl

/-- What becomes of a character that ends no line. -/
def shown (c : UInt8) : Escape → List Call
  | .skip => []
  | .flush => []
  | .control a => [.control a]
  | .print => [.text [c.toUInt16]]

theorem encode_ascii {s : Cache} {c : UInt8} (hcp : s.utf8Codepoint = c.toUInt32) (h : 0x1b ≤ c) :
    encode s = ([c.toUInt16], { s with previousEol := 0 }) := by
  have hle : 0x1b ≤ c.toNat := UInt8.le_iff_toNat_le.mp h
  have heol : ¬ (c.toUInt32 = 0x0a ∨ c.toUInt32 = 0x0d) := by
    rintro (hf | hf)
    all_goals
      have := congrArg UInt32.toNat hf
      simp at this
      omega
  have hsmall : c.toUInt32 ≤ 0xffff := by
    rw [UInt32.le_iff_toNat_le, UInt8.toNat_toUInt32]
    have := c.toNat_lt
    change _ ≤ 0xffff
    omega
  have htrunc : c.toUInt32.toUInt16 = c.toUInt16 := by simp
  rw [encode, hcp]
  rw [if_neg heol, if_pos hsmall, htrunc]

section
variable {env : Env} {st st' : UInt16} {A B : CsiArgs → Prop} {c : UInt8}

theorem reads_char (hv : env.vterm = false) (h1 : 0x1b ≤ c) (h2 : c < 0x80) {e : Escape}
    (hp : ∀ a, A a → ∃ a', parse false st a c.toUInt32 = some ⟨st', a', e⟩ ∧ B a') :
    Reads env (In st A) [c] (In st' B) (shown c e) := by
  intro w hw
  obtain ⟨a', ha', hb⟩ := hp w.args hw.args
  have h0 : 0 < c := by
    have := UInt8.le_iff_toNat_le.mp h1
    change 0x1b ≤ c.toNat at this
    change 0 < c.toNat
    omega
  have hreact : ∃ r, react env w c = some r ∧ r.back = false ∧ In st' B r.wr ∧ r.reaction.chars = shown c e := by
    rw [react, decode_ascii env.cc hw.left h0 h2]
    rw [if_neg (not_not_intro hw.left), hv, hw.state, ha']
    cases e with
    | skip | flush | control a => exact ⟨_, rfl, rfl, ⟨hw.left, rfl, hb⟩, rfl⟩
    | print =>
      simp only [bind_eq_bind, bind_some]
      rw [encode_ascii (c := c) rfl h1]
      exact ⟨_, rfl, rfl, ⟨hw.left, rfl, hb⟩, rfl⟩
  obtain ⟨r, hr, hback, hin, hchars⟩ := hreact
  refine ⟨(r.wr, [r.reaction]), ?_, hin, ?_⟩
  · rw [feedAll, feed]
    simp only [bind_eq_bind, hr, bind_some, hback]
    rfl
  · rw [List.flatMap_singleton, hchars]

end

/-! ### Arguments -/

structure Holds (vals : List ℕ) (a : CsiArgs) : Prop where
  argc : a.argc.toNat = vals.length
  room : vals.length ≤ 4
  argv : ∀ (i : Fin 4) v, vals[i.val]? = some v → a.argv[i].toNat = v

theorem Holds.nil (a : CsiArgs) : Holds [] { a with argc := 0 } := ⟨rfl, Nat.zero_le _, fun i v h => by simp at h⟩

section
variable {vals : List ℕ} {a b : CsiArgs}

theorem Holds.last {n : ℕ} (h : Holds (vals ++ [n]) a) : ∃ i : Fin 4, i.val = vals.length ∧ a.last = some i := by
  have hargc := h.argc
  have hroom := h.room
  rw [List.length_append, List.length_singleton] at hargc hroom
  have hi : vals.length < 4 := by omega
  refine ⟨⟨vals.length, hi⟩, rfl, ?_⟩
  rw [CsiArgs.last, dif_pos (by omega)]
  exact congrArg some (Fin.ext (by dsimp only; omega))

theorem Holds.set {n : ℕ} (h : Holds (vals ++ [n]) a) {i : Fin 4} (hi : i.val = vals.length) (v : UInt16) :
    Holds (vals ++ [v.toNat]) (a.set i v) := by
  refine ⟨?_, ?_, ?_⟩
  · have := h.argc
    rw [List.length_append] at this ⊢
    exact this
  · have := h.room
    rw [List.length_append] at this ⊢
    exact this
  · intro j u hj
    by_cases hij : i = j
    · subst hij
      rw [hi, List.getElem?_append_right (Nat.le_refl _), Nat.sub_self] at hj
      cases some.inj hj
      simp [CsiArgs.set]
    · have hlen := (List.getElem?_eq_some_iff.mp hj).1
      rw [List.length_append, List.length_singleton] at hlen
      have hlt : j.val < vals.length := by
        omega
      have hold := h.argv j u (by rwa [List.getElem?_append_left hlt] at hj ⊢)
      rw [← hold, CsiArgs.set]
      simp [Fin.val_ne_of_ne hij]

theorem Holds.push (h : Holds vals a) (hlt : vals.length < 4) (v : UInt16) :
    ∃ a', a.push v = some a' ∧ Holds (vals ++ [v.toNat]) a' := by
  have hargc := h.argc
  have hsucc : (a.argc + 1).toNat = vals.length + 1 := by
    rw [UInt8.toNat_add, hargc]
    change (vals.length + 1) % 2 ^ 8 = _
    omega
  -- The place is there before its content.
  have hplace : Holds (vals ++ [a.argv[vals.length].toNat]) { a with argc := a.argc + 1 } := by
    refine ⟨?_, ?_, ?_⟩
    · rw [List.length_append]
      exact hsucc
    · rw [List.length_append]
      exact hlt
    · intro j u hj
      by_cases hjl : j.val < vals.length
      · rw [List.getElem?_append_left hjl] at hj
        exact h.argv j u hj
      · have hlen := (List.getElem?_eq_some_iff.mp hj).1
        rw [List.length_append, List.length_singleton] at hlen
        have hj' : j = ⟨vals.length, hlt⟩ := Fin.ext (by dsimp only; omega)
        subst hj'
        simpa using hj
  obtain ⟨i, hi, hlast⟩ := hplace.last
  refine ⟨CsiArgs.set { a with argc := a.argc + 1 } i v, ?_, hplace.set hi v⟩
  rw [CsiArgs.push]
  simp only [bind_eq_bind, hlast, bind_some]
  rfl

theorem Holds.argv_eq (h : Holds vals a) (h' : Holds vals b) (i : Fin 4) (hi : i.val < vals.length) : a.argv[i] = b.argv[i] := by
  have ha := h.argv i _ (List.getElem?_eq_getElem hi)
  have hb := h'.argv i _ (List.getElem?_eq_getElem hi)
  exact UInt16.toNat_inj.mp (ha.trans hb.symm)

theorem Holds.full_iff (h : Holds vals a) : 4 ≤ a.argc ↔ 4 ≤ vals.length := by
  rw [UInt8.le_iff_toNat_le, h.argc]
  exact Iff.rfl

theorem Holds.argc_eq (h : Holds vals a) (h' : Holds vals b) : a.argc = b.argc :=
  UInt8.toNat_inj.mp (h.argc.trans h'.argc.symm)

theorem Holds.first (h : Holds vals a) (h' : Holds vals b) (d : ℤ) : a.first d = b.first d := by
  rw [CsiArgs.first, CsiArgs.first, h.argc_eq h']
  split_ifs with h0
  · rfl
  · have hpos : 0 < vals.length := by
      rw [← h'.argc]
      exact Nat.pos_of_ne_zero fun hf => h0 (UInt8.toNat_inj.mp hf)
    exact congrArg (fun v : UInt16 => (v.toNat : ℤ)) (h.argv_eq h' 0 hpos)

theorem Holds.coord (h : Holds vals a) (h' : Holds vals b) (i : Fin 4) : a.coord i = b.coord i := by
  have ha : a.argv[i.val]? = some a.argv[i] := by simp
  have hb : b.argv[i.val]? = some b.argv[i] := by simp
  rw [CsiArgs.coord, CsiArgs.coord, ha, hb]
  dsimp only
  by_cases hi : i.val < vals.length
  · rw [h.argv_eq h' i hi, h.argc, h'.argc]
  · rw [if_neg fun hf => hi (h.argc ▸ hf.1), if_neg fun hf => hi (h'.argc ▸ hf.1)]

theorem Holds.given (h : Holds vals a) (h' : Holds vals b) : a.given = b.given := by
  have hroom := h.room
  rw [CsiArgs.given, CsiArgs.given, h.argc, h'.argc, if_pos hroom, if_pos hroom]
  apply congrArg some
  apply List.ext_getElem?
  intro i
  rw [List.getElem?_take, List.getElem?_take]
  split_ifs with hi
  · have hlt : i < 4 := by omega
    have heq := h.argv_eq h' ⟨i, hlt⟩ hi
    simp only [Fin.getElem_fin] at heq
    simp [Vector.getElem?_eq_getElem hlt, heq]
  · rfl

theorem Holds.command (h : Holds vals a) (h' : Holds vals b) (cp : UInt32) : command a cp = command b cp := by
  have h0 := h.coord h' 0
  have h1 := h.coord h' 1
  simp only [Fin.val_zero, Fin.val_one] at h0 h1
  simp [TtyWrite.command, h.first h', h0, h1, h.given h']

theorem Holds.extension (h : Holds vals a) (h' : Holds vals b) (cp : UInt32) : extension a cp = extension b cp := by
  have hargv : a.argc = 1 → a.argv[0] = b.argv[0] := by
    intro h1
    apply h.argv_eq h' 0
    rw [← h.argc, h1]
    decide
  rw [TtyWrite.extension, TtyWrite.extension, ← h.argc_eq h']
  by_cases h1 : a.argc = 1
  · rw [hargv h1]
  · simp [h1]

theorem Holds.argsOf (hlen : vals.length ≤ 4) (hlt : ∀ v ∈ vals, v < 2 ^ 16) : Holds vals (argsOf vals) := by
  refine ⟨?_, hlen, ?_⟩
  · exact Nat.mod_eq_of_lt (by omega)
  · intro i v hv
    have hmem := List.mem_of_getElem? hv
    have hget : vals.getD i.val 0 = v := by rw [List.getD_eq_getElem?_getD, hv, getD_some]
    simp only [TtyCsi.argsOf, Fin.getElem_fin, Vector.getElem_ofFn, hget]
    exact Nat.mod_eq_of_lt (hlt v hmem)

end

/-! ### The states of a sequence -/

def csi (question inArg : Bool) : UInt16 :=
  ANSI_CSI ||| (if question then ANSI_EXTENSION else 0) ||| (if inArg then ANSI_IN_ARG else 0)

/-- Within a sequence: the arguments so far, or nothing that is to be obeyed. `i`: after a digit. -/
def At (q i : Bool) : Option (List ℕ) → Wr → Prop
  | none => In ANSI_IGNORE fun _ => True
  | some vals => In (csi q i) (Holds vals)

def push (x : Option (List ℕ)) (v : ℕ) : Option (List ℕ) :=
  x.bind fun vals => if vals.length < 4 then some (vals ++ [v]) else none

def add (x : Option (List ℕ)) (p : List (Fin 10)) : Option (List ℕ) :=
  if Fits p then push x (value p % 2 ^ 16) else none

theorem parse_csi (q i : Bool) (a : CsiArgs) (cp : UInt32) : parse false (csi q i) a cp = ansiCsi (csi q i) a cp := by
  cases q <;> cases i <;> rfl

theorem ascii_of_le {c : UInt8} (hlo : 0x20 ≤ c) (hhi : c ≤ 0x7e) : 0x1b ≤ c ∧ c < 0x80 := by
  change 0x20 ≤ c.toNat at hlo
  change c.toNat ≤ 0x7e at hhi
  refine ⟨UInt8.le_iff_toNat_le.mpr ?_, UInt8.lt_iff_toNat_lt.mpr ?_⟩
  · change 0x1b ≤ _
    omega
  · change _ < 0x80
    omega

theorem final_iff {c : UInt8} : '@'.val ≤ c.toUInt32 ∧ c.toUInt32 ≤ '~'.val ↔ 0x40 ≤ c ∧ c ≤ 0x7e := by
  exact Iff.rfl

theorem not_final {c : UInt8} (hc : c ≤ 0x3f) : ¬ ('@'.val ≤ c.toUInt32 ∧ c.toUInt32 ≤ '~'.val) := by
  rw [final_iff]
  intro hf
  exact absurd (Nat.le_trans (UInt8.le_iff_toNat_le.mp hf.1) (UInt8.le_iff_toNat_le.mp hc)) (by decide)

theorem digitChar_range (d : Fin 10) : 0x20 ≤ digitChar d ∧ digitChar d ≤ 0x3f := by
  revert d
  decide

theorem digitChar_val (d : Fin 10) : (digitChar d).toUInt32 - '0'.val = UInt32.ofNat d.val := by
  revert d
  decide

theorem toUInt16_digit (d : Fin 10) : (UInt32.ofNat d.val).toUInt16.toNat = d.val := by
  revert d
  decide

theorem ansiCsi_digit (st : UInt16) (a : CsiArgs) (d : Fin 10) :
    ansiCsi st a (digitChar d).toUInt32 = digit st a (digitChar d).toUInt32 := by
  rw [ansiCsi, if_pos]
  revert d
  decide

section
variable {env : Env} {q i : Bool} {vals : List ℕ}

variable {c : UInt8}

theorem reads_csi (hv : env.vterm = false) {st' : UInt16} {B : CsiArgs → Prop} {e : Escape}
    (hlo : 0x20 ≤ c) (hhi : c ≤ 0x7e)
    (hp : ∀ a, Holds vals a → ∃ a', ansiCsi (csi q i) a c.toUInt32 = some ⟨st', a', e⟩ ∧ B a') :
    Reads env (At q i (some vals)) [c] (In st' B) (shown c e) := by
  obtain ⟨h1, h2⟩ := ascii_of_le hlo hhi
  apply reads_char hv h1 h2
  intro a ha
  rw [parse_csi]
  exact hp a ha

theorem le_3f (hc : c ≤ 0x3f) : c ≤ 0x7e :=
  UInt8.le_trans hc (by decide)

theorem reads_ignore (hv : env.vterm = false) (hlo : 0x20 ≤ c) (hhi : c ≤ 0x3f) :
    Reads env (In ANSI_IGNORE fun _ => True) [c] (In ANSI_IGNORE fun _ => True) [] := by
  obtain ⟨h1, h2⟩ := ascii_of_le hlo (le_3f hhi)
  apply reads_char hv h1 h2 (e := .skip)
  intro a _
  refine ⟨a, ?_, trivial⟩
  change some (ansiIgnore a c.toUInt32) = _
  rw [ansiIgnore, if_neg (not_final hhi)]

theorem reads_first (hv : env.vterm = false) (x : Option (List ℕ)) (d : Fin 10) :
    Reads env (At q false x) [digitChar d] (At q true (push x d.val)) [] := by
  obtain ⟨hlo, hhi⟩ := digitChar_range d
  cases x with
  | none => exact reads_ignore hv hlo hhi
  | some vals =>
    have hno : csi q false &&& ANSI_IN_ARG = 0 := by
      cases q <;> rfl
    have hset : csi q false ||| ANSI_IN_ARG = csi q true := by
      cases q <;> rfl
    rw [push, bind_some]
    split_ifs with hlt
    · apply reads_csi hv hlo (le_3f hhi) (e := .skip)
      intro a ha
      obtain ⟨a', ha', hh⟩ := ha.push hlt (UInt32.ofNat d.val).toUInt16
      rw [toUInt16_digit] at hh
      refine ⟨a', ?_, hh⟩
      rw [ansiCsi_digit, digit, if_pos hno, if_neg fun hf => absurd (ha.full_iff.mp hf) (Nat.not_le.mpr hlt), digitChar_val]
      simp only [bind_eq_bind, ha', bind_some, hset]
      rfl
    · apply reads_csi hv hlo (le_3f hhi) (e := .skip)
      intro a ha
      refine ⟨a, ?_, trivial⟩
      rw [ansiCsi_digit, digit, if_pos hno, if_pos (ha.full_iff.mpr (Nat.not_lt.mp hlt))]

theorem reads_next (hv : env.vterm = false) {n : ℕ} (d : Fin 10) :
    Reads env (At q true (some (vals ++ [n]))) [digitChar d]
      (At q true (if 10 * n ≤ 0xffff then some (vals ++ [(10 * n + d.val) % 2 ^ 16]) else none)) [] := by
  obtain ⟨hlo, hhi⟩ := digitChar_range d
  have hin : ¬ csi q true &&& ANSI_IN_ARG = 0 := by
    cases q <;> decide
  have hten {v : UInt16} (hn : v.toNat = n) : (10 * v.toUInt32).toNat = 10 * n := by
    have := v.toNat_lt
    rw [UInt32.toNat_mul, UInt16.toNat_toUInt32, hn]
    change 10 * n % 2 ^ 32 = _
    omega
  have hbig {v : UInt16} (hn : v.toNat = n) : 0xffff < 10 * v.toUInt32 ↔ 0xffff < 10 * n := by
    rw [UInt32.lt_iff_toNat_lt, hten hn]
    exact Iff.rfl
  split_ifs with hle
  · apply reads_csi hv hlo (le_3f hhi) (e := .skip)
    intro a ha
    obtain ⟨i, hi, hlast⟩ := ha.last
    have hn := ha.argv i n (hi ▸ List.getElem?_concat_length)
    have hsum : (10 * a.argv[i].toUInt32 + UInt32.ofNat d.val).toUInt16.toNat = (10 * n + d.val) % 2 ^ 16 := by
      have hd : (UInt32.ofNat d.val).toNat = d.val := by
        exact Nat.mod_eq_of_lt (by omega)
      rw [UInt32.toNat_toUInt16, UInt32.toNat_add, hten hn, hd, Nat.mod_mod_of_dvd _ (by decide)]
    have hset := ha.set hi (10 * a.argv[i].toUInt32 + UInt32.ofNat d.val).toUInt16
    rw [hsum] at hset
    refine ⟨_, ?_, hset⟩
    rw [ansiCsi_digit, digit, if_neg hin, digitChar_val]
    simp only [bind_eq_bind, hlast, bind_some, if_neg fun hf => absurd ((hbig hn).mp hf) (Nat.not_lt.mpr hle)]
    rfl
  · apply reads_csi hv hlo (le_3f hhi) (e := .skip)
    intro a ha
    obtain ⟨i, hi, hlast⟩ := ha.last
    have hn := ha.argv i n (hi ▸ List.getElem?_concat_length)
    refine ⟨a, ?_, trivial⟩
    rw [ansiCsi_digit, digit, if_neg hin]
    simp only [bind_eq_bind, hlast, bind_some, if_pos ((hbig hn).mpr (Nat.not_le.mp hle))]
    rfl

/-! ### Parameters -/

theorem push_some {x : Option (List ℕ)} {v : ℕ} {vals' : List ℕ} (h : push x v = some vals') :
    ∃ vals, vals' = vals ++ [v] ∧ ∀ v', push x v' = some (vals ++ [v']) := by
  cases x with
  | none => cases h
  | some vals =>
    rw [push, bind_some] at h
    split_ifs at h with hlt
    · refine ⟨vals, (some.inj h).symm, ?_⟩
      intro v'
      rw [push, bind_some, if_pos hlt]

theorem push_none {x : Option (List ℕ)} {v : ℕ} (h : push x v = none) (v' : ℕ) : push x v' = none := by
  cases x with
  | none => rfl
  | some vals =>
    rw [push, bind_some] at h ⊢
    split_ifs at h ⊢
    · rfl

/-- A number: the induction is on its digits, the last one last. -/
theorem reads_param (hv : env.vterm = false) (x : Option (List ℕ)) {p : List (Fin 10)} (hp : p ≠ []) :
    Reads env (At q false x) (p.map digitChar) (At q true (add x p)) [] := by
  induction p using List.reverseRecOn with
  | nil => exact absurd rfl hp
  | append_singleton p d ih =>
    rw [List.map_append]
    by_cases hnil : p = []
    · subst hnil
      have hfits : Fits [d] := by
        intro n hn
        rw [List.length_singleton, Nat.lt_one_iff] at hn
        rw [hn, List.take_zero]
        decide
      have hval : value [d] % 2 ^ 16 = d.val := by
        rw [value, List.foldl_cons, List.foldl_nil]
        omega
      rw [List.nil_append, add, hval]
      exact reads_first hv x d
    · apply (ih hnil).then
      obtain ⟨hlo, hhi⟩ := digitChar_range d
      rw [add, add]
      by_cases hfits : Fits p
      · rw [if_pos hfits]
        cases hx : push x (value p % 2 ^ 16) with
        | none =>
          rw [push_none hx, ite_self]
          exact reads_ignore hv hlo hhi
        | some vals' =>
          obtain ⟨vals, rfl, hpush⟩ := push_some hx
          have hmod : value (p ++ [d]) % 2 ^ 16 = (10 * (value p % 2 ^ 16) + d.val) % 2 ^ 16 := by
            rw [value_append]
            omega
          have hnext := @reads_next env q vals hv (value p % 2 ^ 16) d
          rw [hpush, hmod]
          by_cases hle : 10 * (value p % 2 ^ 16) ≤ 0xffff
          · rw [if_pos hle] at hnext
            rw [if_pos ((fits_append d).mpr ⟨hfits, hle⟩)]
            exact hnext
          · rw [if_neg hle] at hnext
            rw [if_neg fun hf => hle ((fits_append d).mp hf).2]
            exact hnext
      · rw [if_neg hfits, if_neg fun hf => hfits ((fits_append d).mp hf).1]
        exact reads_ignore hv hlo hhi

def Within (q : Bool) (x : Option (List ℕ)) (w : Wr) : Prop := ∃ i, At q i x w

theorem reads_semicolon (hv : env.vterm = false) (x : Option (List ℕ)) :
    Reads env (At q true x) [0x3b] (At q false x) [] := by
  cases x with
  | none => exact reads_ignore hv (by decide) (by decide)
  | some vals =>
    apply reads_csi hv (by decide) (by decide) (e := .skip)
    intro a ha
    refine ⟨a, ?_, ha⟩
    cases q <;> rfl

theorem reads_empty (hv : env.vterm = false) (x : Option (List ℕ)) :
    Reads env (At q false x) [0x3b] (At q false (push x 0)) [] := by
  cases x with
  | none => exact reads_ignore hv (by decide) (by decide)
  | some vals =>
    have hno : ¬ csi q false &&& ANSI_IN_ARG ≠ 0 := by
      cases q <;> decide
    have hsemi (a : CsiArgs) : ansiCsi (csi q false) a (0x3b : UInt8).toUInt32 = semicolon (csi q false) a := by
      cases q <;> rfl
    rw [push, bind_some]
    split_ifs with hlt
    · apply reads_csi hv (by decide) (by decide) (e := .skip)
      intro a ha
      obtain ⟨a', ha', hh⟩ := ha.push hlt 0
      refine ⟨a', ?_, hh⟩
      rw [hsemi, semicolon, if_neg hno, if_neg fun hf => absurd (ha.full_iff.mp hf) (Nat.not_le.mpr hlt)]
      simp only [bind_eq_bind, ha', bind_some]
      rfl
    · apply reads_csi hv (by decide) (by decide) (e := .skip)
      intro a ha
      refine ⟨a, ?_, trivial⟩
      rw [hsemi, semicolon, if_neg hno, if_pos (ha.full_iff.mpr (Nat.not_lt.mp hlt))]

theorem reads_params (hv : env.vterm = false) (x : Option (List ℕ)) (ps : List (List (Fin 10))) :
    Reads env (At q false x) (paramsText ps) (Within q ((stored ps).foldl add x)) [] := by
  induction ps using paramsText.induct generalizing x with
  | case1 => exact Reads.nil.mono fun w hw => ⟨false, hw⟩
  | case2 p =>
    rw [stored]
    split_ifs with hp
    · rw [hp]
      exact Reads.nil.mono fun w hw => ⟨false, hw⟩
    · exact (reads_param hv x hp).mono fun w hw => ⟨true, hw⟩
  | case3 p ps hne ih =>
    rw [paramsText.eq_3 p ps hne, stored.eq_3 p ps hne]
    by_cases hp : p = []
    · have hadd : add x p = push x 0 := by
        rw [hp]
        rfl
      rw [hp] at hadd ⊢
      exact (reads_empty hv x).then (ih _)
    · exact (reads_param hv x hp).then ((reads_semicolon hv _).then (ih _))

theorem foldl_add_none (ps : List (List (Fin 10))) : ps.foldl add none = none := by
  induction ps with
  | nil => rfl
  | cons p ps ih =>
    have hadd : add none p = none := ite_self none
    rw [List.foldl_cons, hadd, ih]

theorem foldl_add (ps : List (List (Fin 10))) (hroom : vals.length ≤ 4) :
    ps.foldl add (some vals) =
      if vals.length + ps.length ≤ 4 ∧ ∀ p ∈ ps, Fits p then some (vals ++ ps.map (value · % 2 ^ 16)) else none := by
  induction ps generalizing vals with
  | nil =>
    rw [List.foldl_nil, if_pos ⟨hroom, fun p hp => by cases hp⟩, List.map_nil, List.append_nil]
  | cons p ps ih =>
    rw [List.foldl_cons]
    by_cases hok : vals.length < 4 ∧ Fits p
    · have hadd : add (some vals) p = some (vals ++ [value p % 2 ^ 16]) := by
        rw [add, if_pos hok.2, push, bind_some, if_pos hok.1]
      rw [hadd, ih (by simp; omega)]
      apply if_congr
      · rw [List.length_append, List.length_singleton, List.length_cons, List.forall_mem_cons, Nat.add_assoc,
          Nat.add_comm 1]
        simp [hok.2]
      · simp
      · rfl
    · have hadd : add (some vals) p = none := by
        rw [add, push, bind_some]
        split_ifs with hfits hlt
        · exact absurd ⟨hlt, hfits⟩ hok
        · rfl
        · rfl
      rw [hadd, foldl_add_none, if_neg]
      intro hf
      simp only [List.length_cons] at hf
      exact hok ⟨by omega, hf.2 p List.mem_cons_self⟩

/-! ### The end of a sequence -/

def Shape : Option (List ℕ) → Wr → Prop
  | none => In ANSI_IGNORE fun _ => True
  | some vals => In ANSI_DECSCUSR (Holds vals)

theorem reads_space (hv : env.vterm = false) (x : Option (List ℕ)) : Reads env (Within false x) [0x20] (Shape x) [] := by
  rintro w ⟨i, hw⟩
  cases x with
  | none => exact reads_ignore hv (by decide) (by decide) w hw
  | some vals =>
    refine reads_csi hv (q := false) (i := i) (by decide) (by decide) (e := .skip) ?_ w hw
    intro a ha
    refine ⟨a, ?_, ha⟩
    cases i <;> rfl

theorem reads_other (hv : env.vterm = false) (x : Option (List ℕ)) (hlo : 0x20 ≤ c) (hhi : c ≤ 0x3f)
    (hdigit : ¬ (0x30 ≤ c ∧ c ≤ 0x39)) (hsemi : c ≠ 0x3b) (hspace : c = 0x20 → q = true)
    (hquestion : c = 0x3f → q = true ∨ x ≠ some []) :
    Reads env (Within q x) [c] (In ANSI_IGNORE fun _ => True) [] := by
  rintro w ⟨i, hw⟩
  cases x with
  | none => exact reads_ignore hv hlo hhi w hw
  | some vals =>
    refine reads_csi hv (q := q) (i := i) hlo (le_3f hhi) (e := .skip) ?_ w hw
    intro a ha
    refine ⟨a, ?_, trivial⟩
    have hinj {b : UInt8} (h : c.toUInt32 = b.toUInt32) : c = b := by
      have := congrArg UInt32.toNat h
      exact UInt8.toNat_inj.mp this
    have hdigit' : ¬ ('0'.val ≤ c.toUInt32 ∧ c.toUInt32 ≤ '9'.val) := by
      exact hdigit
    have hsemi' : ¬ c.toUInt32 = ';'.val := fun h => hsemi (hinj (b := 0x3b) h)
    have hext : csi true i &&& ANSI_EXTENSION ≠ 0 := by
      cases i <;> decide
    have hquestion' : ¬ (c.toUInt32 = '?'.val ∧ csi q i &&& ANSI_IN_ARG = 0 ∧ csi q i &&& ANSI_EXTENSION = 0 ∧ a.argc = 0) := by
      rintro ⟨hc, -, hq, h0⟩
      obtain rfl | hne := hquestion (hinj (b := 0x3f) hc)
      · exact hext hq
      · have hlen := ha.argc
        rw [h0] at hlen
        exact hne (congrArg some (List.length_eq_zero_iff.mp hlen.symm))
    have hspace' : ¬ (c.toUInt32 = ' '.val ∧ csi q i &&& ANSI_EXTENSION = 0) := by
      rintro ⟨hc, hq⟩
      rw [hspace (hinj (b := 0x20) hc)] at hq
      exact hext hq
    rw [ansiCsi, if_neg hdigit', if_neg hsemi', if_neg hquestion', if_neg hspace', if_neg (not_final hhi)]

theorem reads_end (hv : env.vterm = false) (hc : 0x40 ≤ c ∧ c ≤ 0x7e) :
    Reads env (In ANSI_IGNORE fun _ => True) [c] Rest [] := by
  obtain ⟨h1, h2⟩ := ascii_of_le (UInt8.le_trans (by decide) hc.1) hc.2
  apply reads_char hv h1 h2 (e := .skip)
  intro a _
  refine ⟨a, ?_, trivial⟩
  change some (ansiIgnore a c.toUInt32) = _
  rw [ansiIgnore, if_pos (final_iff.mpr hc)]

theorem reads_trail (hv : env.vterm = false) (hlo : 0x20 ≤ c) (hhi : c ≤ 0x3f) :
    Reads env (Shape (some vals)) [c] (In ANSI_IGNORE fun _ => True) [.text [c.toUInt16]] := by
  obtain ⟨h1, h2⟩ := ascii_of_le hlo (le_3f hhi)
  apply reads_char hv h1 h2 (e := .print)
  intro a _
  refine ⟨a, ?_, trivial⟩
  change some (ansiDecscusr a c.toUInt32) = _
  rw [ansiDecscusr, if_neg (not_final hhi)]

theorem shown_action (c : UInt8) {esc : Escape} (h : esc ≠ .print) :
    shown c esc = ((action? esc).map Call.control).toList := by
  cases esc with
  | skip | flush | control a => rfl
  | print => exact absurd rfl h

theorem ite_ne_print {c : Prop} [Decidable c] {x y : Option Escape} (hx : x ≠ some .print) (hy : y ≠ some .print) :
    (if c then x else y) ≠ some .print := by
  split_ifs
  · exact hx
  · exact hy

theorem command_ne_print (a : CsiArgs) (cp : UInt32) : command a cp ≠ some .print := by
  have hclear {c : Prop} [Decidable c] (b : Action) : some (if c then Escape.control b else .flush) ≠ some .print := by
    split_ifs
    · exact fun hf => by cases hf
    · exact fun hf => by cases hf
  have hstyle (o : Option (List UInt16)) : o.map (fun args => Escape.control (.setStyle args)) ≠ some .print := by
    cases o with
    | none | some args => exact fun hf => by cases hf
  repeat' apply ite_ne_print
  all_goals first
    | exact hclear _
    | exact hstyle _
    | exact fun hf => by cases hf

theorem extension_ne_print (a : CsiArgs) (cp : UInt32) : extension a cp ≠ .print := by
  rw [extension]
  split_ifs <;> simp

theorem ansiCsi_final {st : UInt16} (a : CsiArgs) (hc : 0x40 ≤ c ∧ c ≤ 0x7e) :
    ansiCsi st a c.toUInt32 =
      (if st &&& ANSI_EXTENSION ≠ 0 then some (extension a c.toUInt32) else command a c.toUInt32).map (⟨ANSI_NORMAL, a, ·⟩) := by
  have hlo : 0x40 ≤ c.toUInt32.toNat := UInt32.le_iff_toNat_le.mp (final_iff.mpr hc).1
  have hdigit : ¬ ('0'.val ≤ c.toUInt32 ∧ c.toUInt32 ≤ '9'.val) := by
    intro hf
    have := UInt32.le_iff_toNat_le.mp hf.2
    change _ ≤ 0x39 at this
    omega
  have hne {d : UInt32} (hd : d.toNat < 0x40) : c.toUInt32 ≠ d := by
    rintro hf
    rw [hf] at hlo
    omega
  rw [ansiCsi, if_neg hdigit, if_neg (hne (by decide)), if_neg fun hf => hne (by decide) hf.1,
    if_neg fun hf => hne (by decide) hf.1, if_pos (final_iff.mpr hc)]
  split_ifs
  · rfl
  · cases command a c.toUInt32 with
    | none | some e => rfl

def asked (q : Bool) (vals : List ℕ) (c : UInt8) : Option Action :=
  if q then action? (extension (argsOf vals) c.toUInt32) else (command (argsOf vals) c.toUInt32).bind action?

theorem reads_final (hv : env.vterm = false) (hc : 0x40 ≤ c ∧ c ≤ 0x7e) (hlt : ∀ v ∈ vals, v < 2 ^ 16) :
    Reads env (Within q (some vals)) [c] Rest ((asked q vals c).map Call.control).toList := by
  rintro w ⟨i, hw⟩
  have hlo : 0x20 ≤ c := UInt8.le_trans (by decide) hc.1
  cases q with
  | true =>
    rw [asked, if_pos rfl, ← shown_action c (extension_ne_print _ _)]
    refine reads_csi hv hlo hc.2 ?_ w hw
    intro a ha
    refine ⟨a, ?_, trivial⟩
    have hext : csi true i &&& ANSI_EXTENSION ≠ 0 := by
      cases i <;> decide
    rw [ansiCsi_final a hc, if_pos hext, ha.extension (.argsOf ha.room hlt)]
    rfl
  | false =>
    have hext : ¬ csi false i &&& ANSI_EXTENSION ≠ 0 := by
      cases i <;> decide
    have hroom : vals.length ≤ 4 := hw.args.room
    obtain ⟨e, he⟩ := command_some (a := argsOf vals) (by rw [(Holds.argsOf hroom hlt).argc]; exact hroom) c.toUInt32
    have hne : e ≠ .print := by
      rintro rfl
      exact command_ne_print _ _ he
    rw [asked, if_neg Bool.false_ne_true, he, bind_some, ← shown_action c hne]
    refine reads_csi hv hlo hc.2 ?_ w hw
    intro a ha
    refine ⟨a, ?_, trivial⟩
    rw [ansiCsi_final a hc, if_neg hext, ha.command (.argsOf hroom hlt), he]
    rfl

theorem reads_shape (hv : env.vterm = false) (hc : 0x40 ≤ c ∧ c ≤ 0x7e) (hlt : ∀ v ∈ vals, v < 2 ^ 16) :
    Reads env (Shape (some vals)) [c] Rest ((action? (ansiDecscusr (argsOf vals) c.toUInt32).esc).map Call.control).toList := by
  intro w hw
  have hroom : vals.length ≤ 4 := hw.args.room
  have hdec (a : CsiArgs) : (ansiDecscusr a c.toUInt32).state = ANSI_NORMAL ∧ (ansiDecscusr a c.toUInt32).esc ≠ .print := by
    rw [ansiDecscusr, if_pos (final_iff.mpr hc)]
    split_ifs
    · exact ⟨rfl, fun hf => by cases hf⟩
    · exact ⟨rfl, fun hf => by cases hf⟩
  obtain ⟨h1, h2⟩ := ascii_of_le (UInt8.le_trans (by decide) hc.1) hc.2
  rw [← shown_action c (hdec _).2]
  refine reads_char hv h1 h2 ?_ w hw
  intro a ha
  refine ⟨(ansiDecscusr a c.toUInt32).args, ?_, trivial⟩
  have hesc : (ansiDecscusr a c.toUInt32).esc = (ansiDecscusr (argsOf vals) c.toUInt32).esc := by
    rw [ansiDecscusr, ansiDecscusr, ha.first (.argsOf hroom hlt), if_pos (final_iff.mpr hc), if_pos (final_iff.mpr hc)]
    split_ifs
    · rfl
    · rfl
  change some (ansiDecscusr a c.toUInt32) = _
  rw [← hesc, ← (hdec a).1]

end

/-! ## A whole sequence -/

section
variable {env : Env}

theorem firstZeroBit_c2 (cc : Compiler) : firstZeroBit cc 0xc2 = some 5 := by
  cases cc with
  | msc => decide
  | gcc clz0 =>
    simp only [firstZeroBit]
    rw [if_neg (by decide), if_neg (by decide)]
    decide

theorem reads_intro (hv : env.vterm = false) (i : Intro) : Reads env Rest i.text (At false false (some [])) [] := by
  cases i with
  | esc =>
    have hesc : Reads env Rest [0x1b] (In ANSI_ESCAPE_SEEN fun _ => True) [] :=
      reads_char hv (by decide) (by decide) (e := .skip) fun a _ => ⟨a, rfl, trivial⟩
    have hbracket : Reads env (In ANSI_ESCAPE_SEEN fun _ => True) [0x5b] (At false false (some [])) [] :=
      reads_char hv (by decide) (by decide) (e := .skip) fun a _ => ⟨{ a with argc := 0 }, rfl, .nil a⟩
    exact hesc.then hbracket
  | c1 =>
    intro w hw
    obtain ⟨⟨left, cp, eol, st⟩, a⟩ := w
    obtain ⟨hleft, hst, -⟩ := hw
    subst hleft hst
    have hdecode : decode env.cc ⟨0, cp, eol, ANSI_NORMAL⟩ 0xc2 = (⟨1, 2, eol, ANSI_NORMAL⟩, false) := by
      rw [decode, firstZeroBit_c2]
      rfl
    have hdecode' : decode env.cc ⟨1, 2, eol, ANSI_NORMAL⟩ 0x9b = (⟨0, 0x9b, eol, ANSI_NORMAL⟩, false) := by
      have hleft : (1 : UInt8) - 1 = 0 := by decide
      have hcp : (2 : UInt32) <<< 6 ||| ((0x9b : UInt8).toUInt32 &&& 0x3f) = 0x9b := by decide
      rw [decode]
      dsimp only
      rw [if_neg (by decide), if_pos (by decide), hleft, hcp]
    have hlead : feed env ⟨⟨0, cp, eol, ANSI_NORMAL⟩, a⟩ 0xc2 = some (⟨⟨1, 2, eol, ANSI_NORMAL⟩, a⟩, [.nothing]) := by
      rw [feed, react, hdecode]
      rfl
    have hlast : feed env ⟨⟨1, 2, eol, ANSI_NORMAL⟩, a⟩ 0x9b =
        some (⟨⟨0, 0x9b, eol, ANSI_CSI⟩, { a with argc := 0 }⟩, [.nothing]) := by
      rw [feed, react, hdecode', hv]
      rfl
    refine ⟨(⟨⟨0, 0x9b, eol, ANSI_CSI⟩, { a with argc := 0 }⟩, [.nothing, .nothing]), ?_, ⟨rfl, rfl, .nil a⟩, rfl⟩
    rw [Intro.text, feedAll, hlead]
    simp only [bind_eq_bind, bind_some]
    rw [feedAll, hlast]
    rfl

theorem reads_question (hv : env.vterm = false) : Reads env (At false false (some [])) [0x3f] (At true false (some [])) [] := by
  apply reads_csi hv (by decide) (by decide) (e := .skip)
  intro a ha
  have h0 : a.argc = 0 := UInt8.toNat_inj.mp ha.argc
  refine ⟨a, ?_, ha⟩
  rw [ansiCsi, if_neg (by decide), if_neg (by decide), if_pos ⟨by decide, by decide, by decide, h0⟩]
  rfl

namespace Sequence
variable (q : Sequence)

def kept : List ℕ := (stored q.params).map (value · % 2 ^ 16)

theorem kept_lt : ∀ v ∈ q.kept, v < 2 ^ 16 := by
  intro v hv
  obtain ⟨p, -, rfl⟩ := List.mem_map.mp hv
  exact Nat.mod_lt _ (by decide)

theorem foldl_stored : (stored q.params).foldl add (some []) = if q.Accepted then some q.kept else none := by
  rw [foldl_add _ (Nat.zero_le _), List.length_nil, Nat.zero_add]
  rfl

theorem reads_ignored (hv : env.vterm = false) {cs : List UInt8} (hcs : ∀ c ∈ cs, c ∈ q.others) :
    Reads env (In ANSI_IGNORE fun _ => True) (cs ++ [q.final]) Rest [] := by
  have hall : Reads env (In ANSI_IGNORE fun _ => True) cs (In ANSI_IGNORE fun _ => True) [] := by
    apply Reads.all
    intro c hc
    obtain ⟨hlo, hhi⟩ := q.others_range c (hcs c hc)
    exact reads_ignore hv hlo hhi
  exact hall.then (reads_end hv q.final_range)

theorem outcome_nil (ht : ¬ q.Trails) (ha : ∀ vals, q.action vals = none) : q.outcome = [] := by
  rw [outcome, ha]
  split_ifs
  · rfl
  · rfl

theorem action_others (ho : q.others ≠ []) (vals : List ℕ) : q.action vals = none := if_pos ho

theorem reads_plain (hv : env.vterm = false) (hs : q.space = false) :
    Reads env (Within q.question (if q.Accepted then some q.kept else none)) (q.others ++ [q.final]) Rest q.outcome := by
  have htrails : ¬ q.Trails := by
    rintro ⟨-, hf, -⟩
    rw [hs] at hf
    cases hf
  cases ho : q.others with
  | nil =>
    have haction : q.action q.kept = asked q.question q.kept q.final := by
      rw [action, if_neg (not_not_intro ho), hs]
      cases q.question with
      | true | false => rfl
    rw [outcome]
    by_cases hacc : q.Accepted
    · rw [if_pos hacc, if_pos hacc, if_neg htrails, ← kept, haction]
      exact reads_final hv q.final_range q.kept_lt
    · rw [if_neg hacc, if_neg hacc]
      rintro w ⟨i, hw⟩
      exact reads_end hv q.final_range w hw
  | cons c cs =>
    have hne : q.others ≠ [] := by
      rw [ho]
      exact List.cons_ne_nil c cs
    have hmem : c ∈ q.others := ho ▸ List.mem_cons_self
    obtain ⟨hlo, hhi⟩ := q.others_range c hmem
    obtain ⟨hdigit, hsemi, hspace, hquestion⟩ := q.others_head hs c (by rw [ho]; rfl)
    rw [q.outcome_nil htrails (q.action_others hne)]
    refine (reads_other hv _ hlo hhi hdigit hsemi (fun hf => absurd hf hspace) ?_).then
      (q.reads_ignored hv fun c' hc' => ho ▸ List.mem_cons_of_mem _ hc')
    intro hc
    refine (hquestion hc).imp id ?_
    intro hne' hx
    split_ifs at hx
    exact hne' (List.map_eq_nil_iff.mp (some.inj hx))

theorem reads_blank (hv : env.vterm = false) (hs : q.space = true) :
    Reads env (Within q.question (if q.Accepted then some q.kept else none)) ([0x20] ++ (q.others ++ [q.final])) Rest q.outcome := by
  cases hq : q.question with
  | true =>
    have htrails : ¬ q.Trails := by
      rintro ⟨hf, -⟩
      rw [hq] at hf
      cases hf
    have haction (vals : List ℕ) : q.action vals = none := by
      rw [action, hq, hs]
      exact ite_self none
    rw [q.outcome_nil htrails haction]
    exact (reads_other hv _ (by decide) (by decide) (by decide) (by decide) (fun _ => rfl) (fun hf => absurd hf (by decide))).then
      (q.reads_ignored hv fun c hc => hc)
  | false =>
    apply (reads_space hv _).then
    rw [outcome]
    by_cases hacc : q.Accepted
    · rw [if_pos hacc, if_pos hacc]
      cases ho : q.others with
      | nil =>
        have htrails : ¬ q.Trails := fun hf => hf.2.2 ho
        have haction : q.action q.kept = action? (ansiDecscusr (argsOf q.kept) q.final.toUInt32).esc := by
          rw [action, if_neg (not_not_intro ho), hq, hs]
        rw [if_neg htrails, ← kept, haction]
        exact reads_shape hv q.final_range q.kept_lt
      | cons c cs =>
        have hmem : c ∈ q.others := ho ▸ List.mem_cons_self
        have htrails : q.Trails := ⟨hq, hs, List.ne_nil_of_mem hmem⟩
        obtain ⟨hlo, hhi⟩ := q.others_range c hmem
        rw [if_pos htrails]
        exact (reads_trail hv hlo hhi).append (q.reads_ignored hv fun c' hc' => ho ▸ List.mem_cons_of_mem _ hc')
    · rw [if_neg hacc, if_neg hacc]
      exact q.reads_ignored hv fun c hc => hc

theorem reads_sequence (hv : env.vterm = false) : Reads env Rest q.text Rest q.outcome := by
  have hquestion : Reads env (At false false (some [])) (if q.question then [0x3f] else []) (At q.question false (some [])) [] := by
    cases q.question with
    | true => exact reads_question hv
    | false => exact .nil
  have hparams := reads_params hv (q := q.question) (some []) q.params
  rw [foldl_stored] at hparams
  refine (reads_intro hv q.intro).then (hquestion.then (hparams.then ?_))
  cases hs : q.space with
  | true => exact q.reads_blank hv hs
  | false => exact q.reads_plain hv hs

theorem sound_iff : q.Sound ↔ q.outcome = (q.wanted.map Call.control).toList := by
  rw [outcome]
  constructor
  · intro h
    by_cases hacc : q.Accepted
    · obtain ⟨htrails, hbig⟩ := h hacc
      rw [if_pos hacc, if_neg htrails, wanted]
      by_cases hrep : q.Representable
      · have hkept : (stored q.params).map (value · % 2 ^ 16) = (stored q.params).map value := by
          apply List.map_congr_left
          intro p hp
          exact Nat.mod_eq_of_lt (Nat.lt_succ_of_le (hrep.2 p hp))
        rw [if_pos hrep, hkept]
      · have hex : ∃ p ∈ stored q.params, 0xffff < value p := by
          by_contra hno
          refine hrep ⟨hacc.1, ?_⟩
          intro p hp
          exact Nat.le_of_not_lt fun hf => hno ⟨p, hp, hf⟩
        rw [if_neg hrep, hbig hex]
    · rw [if_neg hacc, wanted, if_neg fun hrep => hacc (Representable.accepted hrep)]
      rfl
  · intro h hacc
    rw [if_pos hacc] at h
    have htrails : ¬ q.Trails := by
      intro ht
      rw [if_pos ht] at h
      cases ho : q.others with
      | nil => exact ht.2.2 ho
      | cons c cs =>
        rw [ho] at h
        cases hw : q.wanted with
        | none | some b =>
          rw [hw] at h
          cases h
    refine ⟨htrails, ?_⟩
    rintro ⟨p, hp, hbig⟩
    rw [if_neg htrails, wanted, if_neg fun hrep => absurd (hrep.2 p hp) (Nat.not_le.mpr hbig)] at h
    cases ha : q.action ((stored q.params).map (value · % 2 ^ 16)) with
    | none => rfl
    | some b =>
      rw [ha] at h
      cases h

end Sequence

end

/-! ## Calls -/

/-- A sequence in the course of calls, which have made `cs` so far and of the parser `w`; `after` is what follows it. All that
comes of it is the action that is wanted, and the parser is at rest again. -/
def Handled (env : Env) (q : Sequence) (h w : Wr) (cs : List Call) (after : List UInt8) (calls : List (List UvBuf)) : Prop :=
  ∃ x y t, feedAll env w q.text = some x ∧ Rest x.1 ∧ x.2.flatMap Reaction.chars = (q.wanted.map Call.control).toList ∧
    feedAll env x.1 after = some y ∧ run env h calls = some (y.1, t) ∧
    ((∀ n, env.fails n = 0) → Packs (cs ++ ((q.wanted.map Call.control).toList ++ y.2.flatMap Reaction.chars)) t)

theorem run_feeds {env : Env} {calls : List (List UvBuf)} {h : Wr} {x : Wr × List Reaction}
    (hx : feedAll env h (bytes calls) = some x) : ∃ t, run env h calls = some (x.1, t) := by
  induction calls generalizing h x with
  | nil =>
    cases some.inj hx
    exact ⟨[], rfl⟩
  | cons bufs calls ih =>
    obtain ⟨y, z, hy, hz, hw, -⟩ := feedAll_append_some hx
    obtain ⟨t, ht⟩ := ih hz
    rw [run, write_feeds hy]
    simp only [bind_eq_bind, bind_some, ht, hw]
    exact ⟨_, rfl⟩

theorem csi_iff (env : Env) (hv : env.vterm = false) (q : Sequence) {h w : Wr} (before : List UInt8) (rs : List Reaction)
    (hbefore : feedAll env h before = some (w, rs)) (hw : Rest w) (after : List UInt8) (calls : List (List UvBuf))
    (hbytes : bytes calls = before ++ (q.text ++ after)) :
    Handled env q h w (rs.flatMap Reaction.chars) after calls ↔ q.Sound := by
  obtain ⟨x, hx, hrest, hchars⟩ := q.reads_sequence hv w hw
  constructor
  · rintro ⟨x', y, t, hx', -, hwanted, -⟩
    rw [hx] at hx'
    cases some.inj hx'
    exact q.sound_iff.mpr (hchars.symm.trans hwanted)
  · intro hsound
    rw [q.sound_iff.mp hsound] at hchars
    have hok : x.1.Ok := by
      rw [Wr.Ok, hrest.state]
      exact Ok.normal
    obtain ⟨y, hy, -⟩ := feedAll_total env hok after
    have hall : feedAll env h (bytes calls) = some (y.1, rs ++ (x.2 ++ y.2)) := by
      rw [hbytes, feedAll_append, hbefore, bind_some, feedAll_append, hx, bind_some, hy]
      rfl
    obtain ⟨t, ht⟩ := run_feeds hall
    refine ⟨x, y, t, hx, hrest, hchars, hy, ht, ?_⟩
    intro henv
    obtain ⟨t', ht', hpacks⟩ := run_packs henv hall
    rw [ht] at ht'
    cases some.inj ht'
    rwa [List.flatMap_append, List.flatMap_append, hchars] at hpacks

/-- `ESC [`, one number and a letter. -/
def single (p : List (Fin 10)) (final : UInt8) (h : 0x40 ≤ final ∧ final ≤ 0x7e) : Sequence where
  intro := .esc
  question := false
  params := [p]
  space := false
  others := []
  final := final
  others_range c hc := by cases hc
  final_range := h
  others_head _ c hc := by cases hc

/-- `A ESC [ 2 J B`, cut within the sequence. -/
theorem csi_iff_clear :
    Handled plainEnv (single [2] 0x4a (by decide)) newTty ⟨⟨0, 0x41, 0, ANSI_NORMAL⟩, newTty.args⟩ [.text [0x41]] [0x42]
      [[⟨[0x41, 0x1b], by decide⟩], [⟨[0x5b, 0x32], by decide⟩, ⟨[0x4a, 0x42], by decide⟩]] :=
  (csi_iff plainEnv rfl (single [2] 0x4a (by decide)) [0x41] [.put [0x41]] (by decide)
    ⟨rfl, rfl, trivial⟩ [0x42] _ (by decide)).mpr fun _ => ⟨by decide, fun hbig => absurd hbig (by decide)⟩

/-- `ESC [ 65537 A` moves the caret up. -/
theorem csi_wraps :
    ¬ ∀ (env : Env) (q : Sequence) (h w : Wr) (before after : List UInt8) (rs : List Reaction) (calls : List (List UvBuf)),
      env.vterm = false → feedAll env h before = some (w, rs) → Rest w → bytes calls = before ++ (q.text ++ after) →
        Handled env q h w (rs.flatMap Reaction.chars) after calls := by
  intro hall
  obtain ⟨x, -, -, hx, -, hchars, -⟩ := hall plainEnv (single [6, 5, 5, 3, 7] 0x41 (by decide)) newTty newTty [] [] []
    [[⟨(single [6, 5, 5, 3, 7] 0x41 (by decide)).text, by decide⟩]] rfl rfl ⟨rfl, rfl, trivial⟩ (by decide)
  have hmove : (feedAll plainEnv newTty (single [6, 5, 5, 3, 7] 0x41 (by decide)).text).map
      (fun x => x.2.flatMap Reaction.chars) = some [.control (.moveCaret 0 true (-1) true)] := by decide
  rw [hx, map_some, hchars] at hmove
  exact absurd hmove (by decide)

/-- The second blank is written. -/
example : run plainEnv newTty [[⟨[0x1b, 0x5b, 0x20, 0x20, 0x71], by decide⟩]] =
    some (⟨⟨0, 0x71, 0, ANSI_NORMAL⟩, newTty.args⟩, [.text [0x20]]) := by decide

end Libuv.L5.TtyCsi
