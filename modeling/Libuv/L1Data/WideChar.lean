import Libuv.L1Data.ProgramArgs
import Libuv.L1Data.Utf8

/-!
# From UTF-16 to UTF-8 (`WideCharToMultiByte`)

With `CP_UTF8` and no flags: a surrogate pair is one character, and a surrogate by itself becomes U+FFFD.
-/
namespace Libuv.L1.WideChar
open ProgramArgs Idna

def IsHigh (c : WCHAR) : Prop := 0xD800 ≤ c.toNat ∧ c.toNat < 0xDC00
def IsLow (c : WCHAR) : Prop := 0xDC00 ≤ c.toNat ∧ c.toNat < 0xE000

instance (c : WCHAR) : Decidable (IsHigh c) := inferInstanceAs (Decidable (_ ∧ _))
instance (c : WCHAR) : Decidable (IsLow c) := inferInstanceAs (Decidable (_ ∧ _))

def pairPoint (hi lo : WCHAR) : ℕ := 0x10000 + (hi.toNat - 0xD800) * 0x400 + (lo.toNat - 0xDC00)

def replacement : ℕ := 0xFFFD

/-- `WideCharToMultiByte(CP_UTF8, 0, ..)` -/
def utf8 : List WCHAR → List UInt8
  | [] => []
  | [c] => encode (if IsHigh c ∨ IsLow c then replacement else c.toNat)
  | c :: d :: s =>
    if IsHigh c ∧ IsLow d then encode (pairPoint c d) ++ utf8 s
    else encode (if IsHigh c ∨ IsLow c then replacement else c.toNat) ++ utf8 (d :: s)

end Libuv.L1.WideChar
