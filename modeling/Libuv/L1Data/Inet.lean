import Libuv.Core.CInt

/-!
# Addresses as text (`inet.c`)

`uv_inet_ntop` and `uv_inet_pton`. A pointer to bytes is a function of the offset, a string
is the list of its characters, without the `'\0'`. `snprintf` prints a number with
`Nat.toDigits`. The printer's `tmp` is the text written so far; the parser's is `out`, the
bytes before `tp`, with zeros behind them, until the bytes after the `::` are moved to the
end. A null pointer is not an argument here. A `memcpy` behind the end of `tmp` counts as an error of its own, `overrun`.
-/
namespace Libuv.L1.Inet

inductive Errno where
  | eafnosupport | einval | enospc | overrun
  deriving DecidableEq

/-- `AF_INET`, `AF_INET6`, any other family. -/
inductive Af where
  | inet | inet6 | other
  deriving DecidableEq

def UV_INET_ADDRSTRLEN : ℕ := 16

def UV_INET6_ADDRSTRLEN : ℕ := 46

/-! ## Printing -/

/-- What `uv__strscpy(d, s, n)` leaves in `d`.
mirrors strscpy.c:25-38 -/
def strscpy (s : List Char) (n : ℕ) : List Char := if s.length < n then s else s.take (n - 1)

/-- `"%u.%u.%u.%u"` -/
def dotted (src : ℕ → UInt8) : List Char :=
  Nat.toDigits 10 (src 0).toNat ++ '.' :: (Nat.toDigits 10 (src 1).toNat ++ '.' :: (Nat.toDigits 10 (src 2).toNat ++
    '.' :: Nat.toDigits 10 (src 3).toNat))

/-- mirrors inet.c:53-64 -/
def inetNtop4 (src : ℕ → UInt8) (size : ℕ) : Except Errno (List Char) :=
  let l := (dotted src).length
  let tmp := (dotted src).take (UV_INET_ADDRSTRLEN - 1)
  if l = 0 ∨ size ≤ l then .error .enospc else .ok (strscpy tmp size)

/-- mirrors inet.c:85-87 -/
def words (src : ℕ → UInt8) : ℕ → ℕ :=
  (List.range 16).foldl
    (fun words i => Function.update words (i / 2) (words (i / 2) ||| (src i).toNat <<< ((1 - i % 2) <<< 3))) fun _ => 0

/-- A run of zero words; without one `base` is -1. -/
structure Run where
  base : ℤ
  len : ℕ
  deriving DecidableEq

/-- One round of the loop at inet.c:92-105, on `best` and `cur`. -/
def scanStep (words : ℕ → ℕ) (s : Run × Run) (i : ℕ) : Run × Run :=
  let (best, cur) := s
  if words i = 0 then (best, if cur.base = -1 then ⟨i, 1⟩ else { cur with len := cur.len + 1 })
  else if cur.base ≠ -1 then
    (if best.base = -1 ∨ best.len < cur.len then cur else best, { cur with base := -1 })
  else (best, cur)

/-- mirrors inet.c:88-111 -/
def bestRun (words : ℕ → ℕ) : Run :=
  let (best, cur) := (List.range 8).foldl (scanStep words) (⟨-1, 0⟩, ⟨-1, 0⟩)
  let best := if cur.base ≠ -1 ∧ (best.base = -1 ∨ best.len < cur.len) then cur else best
  if best.base ≠ -1 ∧ best.len < 2 then { best with base := -1 } else best

/-- `i` is inside the best run. -/
def Run.Inside (best : Run) (i : ℕ) : Prop := best.base ≠ -1 ∧ best.base ≤ i ∧ i < best.base + best.len

instance (best : Run) (i : ℕ) : Decidable (best.Inside i) := by unfold Run.Inside; infer_instance

/-- The address is an encapsulated IPv4 address, and this is where it starts. -/
def Encapsulated (words : ℕ → ℕ) (best : Run) (i : ℕ) : Prop :=
  i = 6 ∧ best.base = 0 ∧ (best.len = 6 ∨ best.len = 7 ∧ words 7 ≠ 0x0001 ∨ best.len = 5 ∧ words 5 = 0xffff)

instance (words : ℕ → ℕ) (best : Run) (i : ℕ) : Decidable (Encapsulated words best i) := by
  unfold Encapsulated; infer_instance

/-- The loop over the words that are left.
mirrors inet.c:116-139 -/
def format (src : ℕ → UInt8) (words : ℕ → ℕ) (best : Run) : List ℕ → List Char → Except Errno (List Char)
  | [], tp => .ok tp
  | i :: is, tp =>
    if best.Inside i then format src words best is (if best.base = i then tp ++ [':'] else tp)
    else
      let tp := if i ≠ 0 then tp ++ [':'] else tp
      if Encapsulated words best i then
        (inetNtop4 (fun j => src (12 + j)) (UV_INET6_ADDRSTRLEN - tp.length)).map fun s => tp ++ s
      else format src words best is (tp ++ Nat.toDigits 16 (words i))

/-- mirrors inet.c:67-148 -/
def inetNtop6 (src : ℕ → UInt8) (size : ℕ) : Except Errno (List Char) :=
  let words := words src
  let best := bestRun words
  match format src words best (List.range 8) [] with
  | .error err => .error err
  | .ok tp =>
    let tp := if best.base ≠ -1 ∧ best.base + best.len = 8 then tp ++ [':'] else tp
    if size < tp.length + 1 then .error .enospc else .ok (strscpy tp size)

/-- mirrors inet.c:40-50 -/
def uvInetNtop (af : Af) (src : ℕ → UInt8) (size : ℕ) : Except Errno (List Char) :=
  match af with
  | .inet => inetNtop4 src size
  | .inet6 => inetNtop6 src size
  | .other => .error .eafnosupport

/-! ## Parsing -/

def digits : List Char := "0123456789".toList

def xdigitsL : List Char := "0123456789abcdef".toList

def xdigitsU : List Char := "0123456789ABCDEF".toList

/-- The loop of `inet_pton4`: `before` are the finished octets, `cur` is `*tp`.
mirrors inet.c:180-216 -/
def pton4 : List Char → Bool → ℕ → List UInt8 → ℕ → Except Errno (List UInt8)
  | [], _, octets, before, cur => if octets < 4 then .error .einval else .ok (before ++ [UInt8.ofNat cur])
  | ch :: src, sawDigit, octets, before, cur =>
    match digits.idxOf? ch with
    | some d =>
      let nw := cur * 10 + d
      if sawDigit = true ∧ cur = 0 then .error .einval
      else if 255 < nw then .error .einval
      else if sawDigit then pton4 src true octets before nw
      else if 4 < octets + 1 then .error .einval
      else pton4 src true (octets + 1) before nw
    | none =>
      if ch = '.' ∧ sawDigit = true then
        if octets = 4 then .error .einval else pton4 src false octets (before ++ [UInt8.ofNat cur]) 0
      else .error .einval

/-- mirrors inet.c:180-216 -/
def inetPton4 (src : List Char) : Except Errno (List UInt8) := pton4 src false 0 [] 0

/-- The locals of `inet_pton6`; `out` are the bytes before `tp`, `colonp` is an offset. -/
structure Pton6 where
  out : List UInt8
  colonp : Option ℕ
  curtok : List Char
  seenXdigits : ℕ
  val : ℕ

/-- `strchr` in the lower-case digits, then in the upper-case ones. -/
def xdigit (ch : Char) : Option ℕ := (xdigitsL.idxOf? ch).or (xdigitsU.idxOf? ch)

def group (val : ℕ) : List UInt8 := [UInt8.ofNat (val >>> 8), UInt8.ofNat val]

/-- The loop of `inet_pton6`.
mirrors inet.c:237-276 -/
def pton6 (s : Pton6) : List Char → Except Errno Pton6
  | [] => .ok s
  | ch :: src =>
    match xdigit ch with
    | some d =>
      if 4 < s.seenXdigits + 1 then .error .einval
      else pton6 { s with val := s.val <<< 4 ||| d, seenXdigits := s.seenXdigits + 1 } src
    | none =>
      if ch = ':' then
        if s.seenXdigits = 0 then
          if s.colonp.isSome then .error .einval
          else pton6 { s with curtok := src, colonp := some s.out.length } src
        else if src = [] then .error .einval
        else if 16 < s.out.length + 2 then .error .einval
        else pton6 { s with curtok := src, out := s.out ++ group s.val, seenXdigits := 0, val := 0 } src
      else if ch = '.' ∧ s.out.length + 4 ≤ 16 then
        match inetPton4 s.curtok with
        | .ok octets => .ok { s with out := s.out ++ octets, seenXdigits := 0 }
        | .error _ => .error .einval
      else .error .einval

/-- One round of the shift by hand, `i` counted from 0.
mirrors inet.c:293-296 -/
def shiftStep (colonp n : ℕ) (tmp : List UInt8) (i : ℕ) : List UInt8 :=
  (tmp.set (16 - (i + 1)) (tmp.getD (colonp + (n - (i + 1))) 0)).set (colonp + (n - (i + 1))) 0

/-- What follows the loop.
mirrors inet.c:277-302 -/
def finish (s : Pton6) : Except Errno (List UInt8) :=
  if s.seenXdigits ≠ 0 ∧ 16 < s.out.length + 2 then .error .einval
  else
    let out := if s.seenXdigits ≠ 0 then s.out ++ group s.val else s.out
    match s.colonp with
    | some colonp =>
      let n := out.length - colonp
      if out.length = 16 then .error .einval
      else .ok ((List.range n).foldl (shiftStep colonp n) (out ++ List.replicate (16 - out.length) 0))
    | none => if out.length ≠ 16 then .error .einval else .ok out

/-- mirrors inet.c:219-303 -/
def inetPton6 (src : List Char) : Except Errno (List UInt8) :=
  let start (src : List Char) := (pton6 ⟨[], none, src, 0, 0⟩ src).bind finish
  match src with
  | ':' :: src => if src.head? ≠ some ':' then .error .einval else start src
  | _ => start src

/-- mirrors inet.c:151-177 -/
def uvInetPton (af : Af) (src : List Char) : Except Errno (List UInt8) :=
  match af with
  | .inet => inetPton4 src
  | .inet6 =>
    match src.idxOf? '%' with
    | some p =>
      let len := CInt.ofNat p
      if (UV_INET6_ADDRSTRLEN : ℤ) - 1 < len then .error .einval
      else if len < 0 then .error .overrun
      else inetPton6 (src.take len.toNat)
    | none => inetPton6 src
  | .other => .error .eafnosupport

end Libuv.L1.Inet
