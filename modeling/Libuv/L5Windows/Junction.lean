import Mathlib.Tactic
import Libuv.L1Data.SearchPath
import Libuv.L1Data.WideChar

/-!
# Junctions (`win/fs.c`)

`fs__create_junction` writes the target into the reparse data of a directory, twice: the substitute name, which Windows
follows, and the print name. `fs__readlink_handle` gets the data back. The names are where the offsets and lengths say, in
bytes, which are `USHORT`s; names that are not in the data are `none`, as is a write behind the buffer.

The size of the buffer is an `int`. A negative one is too much for `uv__malloc`, and fatal; else memory does not run out.

* `squeeze`: every run of slashes as one backslash.
* `junction_round_trip`: the data of a target that fits into them is read as the target.
-/
namespace Libuv.L5.Junction

open L1.WideChar List
open L1.ProgramArgs (WCHAR WString Buffer put_spec puts_spec)
open L1.SearchPath (colon backslash isSlash)

def question : WCHAR := 0x3F

def longPathPrefix : List WCHAR := [backslash, backslash, question, backslash]
def junctionPrefix : List WCHAR := [backslash, question, question, backslash]

def isLetter (c : WCHAR) : Bool := (0x61 ≤ c && c ≤ 0x7A) || (0x41 ≤ c && c ≤ 0x5A)

inductive WinError
  | symlinkNotSupported
  | notSupported
  | invalidParameter
  | other (code : ℕ)
deriving DecidableEq

/-- `SymbolicLinkReparseBuffer`, `MountPointReparseBuffer`: `PathBuffer`, and what is where in it. -/
structure Names where
  substituteNameOffset : ℕ
  substituteNameLength : ℕ
  printNameOffset : ℕ
  printNameLength : ℕ
  pathBuffer : List WCHAR
deriving DecidableEq

/-- `REPARSE_DATA_BUFFER`, by its tag. -/
inductive ReparseData
  | symlink (names : Names)
  | mountPoint (names : Names)
  | appExecLink (stringCount : ℕ) (stringList : List WCHAR)
  | other

def Names.slice (names : Names) (offset length : ℕ) : Option (List WCHAR) :=
  if offset / 2 + length / 2 ≤ names.pathBuffer.length then some ((names.pathBuffer.drop (offset / 2)).take (length / 2))
  else none

def Names.substituteName (names : Names) : Option (List WCHAR) :=
  names.slice names.substituteNameOffset names.substituteNameLength

def Names.printName (names : Names) : Option (List WCHAR) := names.slice names.printNameOffset names.printNameLength

/-! ## Writing -/

def word : ℕ := 2 ^ 32
def ushort : ℕ := 2 ^ 16

/-- Without overflow, of a target of `n` characters.
mirrors win/fs.c:2408-2412 -/
def neededBufSize (n : ℕ) : ℕ := 16 + 4 * 2 + 2 * (n + 2) * 2

/-- mirrors win/fs.c:2384-2400 -/
def isAbsolute (path : List WCHAR) : Bool :=
  longPathPrefix.isPrefixOf path ||
    match path with
    | c :: d :: e :: _ => isLetter c && d == colon && isSlash e
    | _ => false

def source (path : List WCHAR) : List WCHAR := if longPathPrefix.isPrefixOf path then path.drop 4 else path

/-- `path_buf[path_buf_len++] = L'\\'`, or not. -/
def putSlash {cap : ℕ} (b : Buffer cap) (add : Bool) : Option (Buffer cap) := if add then b.put backslash else some b

/-- mirrors win/fs.c:2431-2444 -/
def copyPath {cap : ℕ} : List WCHAR → Bool → Buffer cap → Option (Buffer cap)
  | [], _, b => some b
  | c :: s, addSlash, b =>
    if isSlash c then copyPath s true b
    else do
      let b ← putSlash b addSlash
      let b ← b.put c
      copyPath s false b

/-- mirrors win/fs.c:2420-2483 -/
def fillBuffer {cap : ℕ} (path : List WCHAR) (b : Buffer cap) : Option Names := do
  let b ← b.puts junctionPrefix
  let b ← copyPath (source path) false b
  let b ← b.put backslash
  let substituteLen := b.text.length
  let b ← b.put 0
  let start := b.text.length
  let b ← copyPath (source path) false b
  let b ← putSlash b (b.text.length - start = 2)
  let printLen := b.text.length - start
  let b ← b.put 0
  some ⟨0, substituteLen * 2 % ushort, start * 2 % ushort, printLen * 2 % ushort, b.text⟩

/-- What is sent to the file system: the data, their size, and that of the whole buffer. -/
structure Sent where
  names : Names
  reparseDataLength : ℕ
  usedBufSize : ℕ

/-- mirrors win/fs.c:2485-2494 -/
def Names.send (names : Names) : Sent := ⟨names, (8 + names.pathBuffer.length * 2) % ushort, 16 + names.pathBuffer.length * 2⟩

/-- The calls that make a directory of it, which fail with an error. -/
structure Windows where
  createDirectory : Option WinError
  createFile : Option WinError
  deviceIoControl : Sent → Option WinError

/-- A directory that has been created is removed when a later call fails. -/
inductive Created
  | fatal
  | failed (e : WinError)
  | made (names : Names)

/-- mirrors win/fs.c:2496-2545 -/
def Windows.create (w : Windows) (sent : Sent) : Created :=
  match w.createDirectory with
  | some e => .failed e
  | none =>
    match w.createFile with
    | some e => .failed e
    | none =>
      match w.deviceIoControl sent with
      | some e => .failed e
      | none => .made sent.names

/-- mirrors win/fs.c:2379-2546 -/
def fsCreateJunction (w : Windows) (path : WString) : Option Created :=
  if isAbsolute path.chars = false then some (.failed .notSupported)
  else if word / 2 ≤ neededBufSize path.chars.length % word then some .fatal
  else do
    let names ← fillBuffer path.chars
      ({ text := [], fits := Nat.zero_le _ } : Buffer ((neededBufSize path.chars.length % word - 16) / 2))
    return w.create names.send

/-! ## Reading -/

/-- The text up to its terminating zero, and what is behind it. -/
def cutString (s : List WCHAR) : Option (List WCHAR × List WCHAR) :=
  if 0 ∈ s then some (s.takeWhile (· ≠ 0), (s.dropWhile (· ≠ 0)).tail) else none

/-- `<drive>:`, and nothing or a backslash behind it -/
def isDrive : List WCHAR → Bool
  | c :: d :: s => isLetter c && d == colon && (s == [] || s.head? == some backslash)
  | _ => false

/-- `UNC\` -/
def isUnc : List WCHAR → Bool
  | u :: n :: c :: b :: _ =>
    (u == 0x55 || u == 0x75) && (n == 0x4E || n == 0x6E) && (c == 0x43 || c == 0x63) && b == backslash
  | _ => false

/-- mirrors win/fs.c:332-372 -/
def symlinkTarget (w : List WCHAR) : List WCHAR :=
  if junctionPrefix.isPrefixOf w then
    if isDrive (w.drop 4) then w.drop 4
    else if isUnc (w.drop 4) then backslash :: w.drop 7
    else w
  else w

/-- mirrors win/fs.c:375-400 -/
def junctionTarget (w : List WCHAR) : Except WinError (List WCHAR) :=
  if junctionPrefix.isPrefixOf w && isDrive (w.drop 4) then .ok (w.drop 4) else .error .symlinkNotSupported

/-- mirrors win/fs.c:403-433 -/
def appExecTarget (count : ℕ) (list : List WCHAR) : Option (Except WinError (List WCHAR)) :=
  if count < 3 then some (.error .symlinkNotSupported)
  else do
    let (s₁, list) ← cutString list
    if s₁ = [] then return .error .symlinkNotSupported
    let (s₂, list) ← cutString list
    if s₂ = [] then return .error .symlinkNotSupported
    let (s₃, _) ← cutString list
    if isDrive s₃ && 3 ≤ s₃.length then return .ok s₃
    return .error .symlinkNotSupported

/-- `WideCharToMultiByte` refuses the empty string.
mirrors win/fs.c:260-306 -/
def fsWideToUtf8 (w : List WCHAR) : Except WinError (List UInt8) := if w = [] then .error .invalidParameter else .ok (utf8 w)

/-- `data`: `FSCTL_GET_REPARSE_POINT`.
mirrors win/fs.c:309-441 -/
def fsReadlinkHandle (data : Except WinError ReparseData) : Option (Except WinError (List UInt8)) :=
  match data with
  | .error e => some (.error e)
  | .ok (.symlink names) => do
    let w ← names.substituteName
    return fsWideToUtf8 (symlinkTarget w)
  | .ok (.mountPoint names) => do
    let w ← names.substituteName
    return (junctionTarget w).bind fsWideToUtf8
  | .ok (.appExecLink count list) => do
    let r ← appExecTarget count list
    return r.bind fsWideToUtf8
  | .ok .other => some (.error .symlinkNotSupported)

/-! ## Slashes -/

/-- Every run of slashes as one backslash: a slash in front of another is left out. -/
def squeeze : List WCHAR → List WCHAR
  | [] => []
  | [c] => [if isSlash c then backslash else c]
  | c :: d :: s =>
    if isSlash c ∧ isSlash d then squeeze (d :: s)
    else (if isSlash c then backslash else c) :: squeeze (d :: s)

def normal (path : List WCHAR) : List WCHAR := squeeze (path ++ [backslash])

section
variable {c d : WCHAR} {s : List WCHAR}

theorem squeeze_char (hc : isSlash c = false) : squeeze (c :: s) = c :: squeeze s := by
  cases s with
  | nil => simp [squeeze, hc]
  | cons d s =>
    rw [squeeze, hc]
    rfl

theorem squeeze_skip (hc : isSlash c = true) (hd : isSlash d = true) : squeeze (c :: d :: s) = squeeze (d :: s) := by
  rw [squeeze, if_pos ⟨hc, hd⟩]

theorem squeeze_sep (hc : isSlash c = true) (hd : isSlash d = false) : squeeze (c :: d :: s) = backslash :: squeeze (d :: s) := by
  rw [squeeze, if_neg (by rw [hd]; exact fun h => Bool.false_ne_true h.2), if_pos hc]

theorem squeeze_slash (hc : isSlash c = true) (hd : isSlash d = true) : squeeze (c :: s) = squeeze (d :: s) := by
  cases s with
  | nil => rw [squeeze, squeeze, if_pos hc, if_pos hd]
  | cons e s =>
    cases he : isSlash e with
    | true => rw [squeeze_skip hc he, squeeze_skip hd he]
    | false => rw [squeeze_sep hc he, squeeze_sep hd he]

theorem squeeze_head (hc : isSlash c = true) : ∃ t, squeeze (c :: s) = backslash :: t := by
  induction s generalizing c with
  | nil => exact ⟨[], by rw [squeeze, if_pos hc]⟩
  | cons d s ih =>
    cases hd : isSlash d with
    | true =>
      rw [squeeze_skip hc hd]
      exact ih hd
    | false => exact ⟨_, squeeze_sep hc hd⟩

theorem squeeze_length_le (s : List WCHAR) : (squeeze s).length ≤ s.length := by
  induction s with
  | nil => exact Nat.le_refl 0
  | cons c s ih =>
    cases s with
    | nil => rw [squeeze, length_singleton, length_singleton]
    | cons d s =>
      rw [squeeze]
      split_ifs
      · exact Nat.le_succ_of_le ih
      · exact Nat.succ_le_succ ih
      · exact Nat.succ_le_succ ih

/-- What `copyPath` writes. -/
def copied : List WCHAR → Bool → List WCHAR
  | [], _ => []
  | c :: s, addSlash =>
    if isSlash c then copied s true else (if addSlash then [backslash] else []) ++ c :: copied s false

theorem copied_append (s : List WCHAR) (addSlash : Bool) :
    copied s addSlash ++ [backslash] = squeeze ((if addSlash then [backslash] else []) ++ s ++ [backslash]) := by
  have hb : isSlash backslash = true := rfl
  induction s generalizing addSlash with
  | nil =>
    cases addSlash with
    | false | true => rfl
  | cons c s ih =>
    rw [copied]
    cases hc : isSlash c with
    | true =>
      have hih := ih true
      rw [if_pos rfl, hih]
      have heq : squeeze (backslash :: (s ++ [backslash])) = squeeze (c :: (s ++ [backslash])) := squeeze_slash hb hc
      cases addSlash with
      | false => exact heq
      | true => exact heq.trans (squeeze_skip hb hc).symm
    | false =>
      have hih := ih false
      rw [if_neg Bool.false_ne_true, append_assoc, cons_append, hih]
      cases addSlash with
      | false => exact (squeeze_char hc).symm
      | true =>
        have heq : squeeze (backslash :: c :: (s ++ [backslash])) = backslash :: squeeze (c :: (s ++ [backslash])) :=
          squeeze_sep hb hc
        exact (congrArg (backslash :: ·) (squeeze_char hc).symm).trans heq.symm

theorem copied_normal (s : List WCHAR) : copied s false ++ [backslash] = normal s := copied_append s false

theorem normal_length_le (s : List WCHAR) : (normal s).length ≤ s.length + 1 := by
  have h := squeeze_length_le (s ++ [backslash])
  rwa [length_append] at h

/-- The print name has its last backslash behind a bare drive only. -/
def printed (s : List WCHAR) : List WCHAR := if (normal s).length = 3 then normal s else (normal s).dropLast

theorem copied_length (s : List WCHAR) : (copied s false).length + 1 = (normal s).length := by
  rw [← copied_normal, length_append]
  rfl

theorem copied_printed (s : List WCHAR) :
    copied s false ++ (if (copied s false).length = 2 then [backslash] else []) = printed s := by
  rw [printed, ← copied_length]
  split_ifs with h h' h'
  · exact copied_normal s
  · omega
  · omega
  · rw [← copied_normal, dropLast_concat, append_nil]

theorem printed_length_le (s : List WCHAR) : (printed s).length ≤ (normal s).length := by
  rw [printed]
  split_ifs
  · exact Nat.le_refl _
  · rw [length_dropLast]
    exact Nat.sub_le _ _

/-! ## The buffer -/

variable {cap : ℕ} {b : Buffer cap}

theorem putSlash_spec (add : Bool) (h : b.text.length + (if add then [backslash] else []).length ≤ cap) :
    ∃ b', putSlash b add = some b' ∧ b'.text = b.text ++ if add then [backslash] else [] := by
  cases add with
  | false => exact ⟨b, rfl, (append_nil _).symm⟩
  | true => exact put_spec backslash h

theorem copyPath_spec (addSlash : Bool) (h : b.text.length + (copied s addSlash).length ≤ cap) :
    ∃ b', copyPath s addSlash b = some b' ∧ b'.text = b.text ++ copied s addSlash := by
  induction s generalizing b addSlash with
  | nil => exact ⟨b, rfl, (append_nil _).symm⟩
  | cons c s ih =>
    rw [copied] at h ⊢
    rw [copyPath]
    cases hc : isSlash c with
    | true =>
      rw [hc] at h
      exact ih true h
    | false =>
      rw [hc, if_neg Bool.false_ne_true, length_append, length_cons] at h
      obtain ⟨b₁, h₁, e₁⟩ := putSlash_spec (b := b) addSlash (by omega)
      have hlen₁ : b₁.text.length = b.text.length + (if addSlash then [backslash] else []).length := by
        rw [e₁, length_append]
      obtain ⟨b₂, h₂, e₂⟩ := put_spec (b := b₁) c (by omega)
      obtain ⟨b₃, h₃, e₃⟩ := ih (b := b₂) false (by rw [e₂, length_append, length_singleton]; omega)
      refine ⟨b₃, ?_, by rw [e₃, e₂, e₁, if_neg Bool.false_ne_true]; simp⟩
      rw [h₁]
      exact (congrArg (Option.bind · _) h₂).trans h₃

def content (s : List WCHAR) : List WCHAR := junctionPrefix ++ normal s ++ [0] ++ printed s ++ [0]

theorem fillBuffer_spec {path : List WCHAR} (hb : b.text = []) (h : (content (source path)).length ≤ cap) :
    fillBuffer path b = some ⟨0, (junctionPrefix ++ normal (source path)).length * 2 % ushort,
      ((junctionPrefix ++ normal (source path)).length + 1) * 2 % ushort, (printed (source path)).length * 2 % ushort,
      content (source path)⟩ := by
  rw [fillBuffer]
  generalize source path = s at h ⊢
  have hlen : (content s).length = (junctionPrefix ++ normal s).length + 1 + (printed s).length + 1 := by
    simp only [content, length_append, length_singleton]
  have hnormal : (junctionPrefix ++ normal s).length = 4 + (normal s).length := by rw [length_append]; rfl
  have hprinted : (copied s false).length + (if (copied s false).length = 2 then [backslash] else []).length =
      (printed s).length := by rw [← length_append, copied_printed]
  -- the substitute name
  obtain ⟨b₁, h₁, e₁⟩ := puts_spec (b := b) (s := junctionPrefix) (by
    rw [hb]
    change 0 + 4 ≤ cap
    omega)
  rw [hb, nil_append] at e₁
  obtain ⟨b₂, h₂, e₂⟩ := copyPath_spec (s := s) (b := b₁) false (by rw [e₁]; change 4 + _ ≤ cap; omega)
  have hlen₂ : b₂.text.length = 4 + (copied s false).length := by rw [e₂, e₁, length_append]; rfl
  obtain ⟨b₃, h₃, e₃⟩ := put_spec (b := b₂) backslash (by omega)
  have hsub : b₃.text = junctionPrefix ++ normal s := by rw [e₃, e₂, e₁, append_assoc, copied_normal]
  obtain ⟨b₄, h₄, e₄⟩ := put_spec (b := b₃) 0 (by rw [hsub]; omega)
  have hlen₄ : b₄.text.length = (junctionPrefix ++ normal s).length + 1 := by rw [e₄, hsub, length_append]; rfl
  -- the print name
  obtain ⟨b₅, h₅, e₅⟩ := copyPath_spec (s := s) (b := b₄) false (by omega)
  have hlen₅ : b₅.text.length - b₄.text.length = (copied s false).length := by rw [e₅, length_append]; omega
  obtain ⟨b₆, h₆, e₆⟩ := putSlash_spec (b := b₅) ((copied s false).length = 2) (by
    simp only [decide_eq_true_eq]
    omega)
  have hprint : b₆.text = b₄.text ++ printed s := by
    simp only [decide_eq_true_eq] at e₆
    rw [e₆, e₅, append_assoc, copied_printed]
  rw [hlen₄] at hlen₅
  have hlen₆ : b₆.text.length - b₄.text.length = (printed s).length := by rw [hprint, length_append]; omega
  obtain ⟨b₇, h₇, e₇⟩ := put_spec (b := b₆) 0 (by rw [hprint, length_append]; omega)
  simp only [Option.bind_eq_bind, h₁, h₂, h₃, h₄, h₅, Option.bind_some, hlen₄, hlen₅, h₆, h₇, hsub]
  rw [hlen₄] at hlen₆
  rw [hlen₆, e₇, hprint, e₄, hsub, content]

end

/-! ## The round trip -/

/-- `<letter>:` and a slash, then anything, with or without the prefix of a long path. -/
def IsTarget (path : List WCHAR) : Prop :=
  ∃ c e r, isLetter c = true ∧ isSlash e = true ∧
    (path = c :: colon :: e :: r ∨ path = longPathPrefix ++ c :: colon :: e :: r)

/-- `MAXIMUM_REPARSE_DATA_BUFFER_SIZE` -/
def maximumReparseDataBufferSize : ℕ := 16 * 1024

/-- The two names fit into a reparse buffer; an `int` is enough to calculate the size. -/
def ShortEnough (path : List WCHAR) : Prop :=
  neededBufSize path.length < word / 2 ∧ 16 + (content (source path)).length * 2 ≤ maximumReparseDataBufferSize

section
variable {path : List WCHAR} {c e : WCHAR} {r : List WCHAR}

theorem letter_plain (hc : isLetter c = true) : isSlash c = false := by
  by_contra h
  rw [Bool.not_eq_false, isSlash, Bool.or_eq_true, beq_iff_eq, beq_iff_eq] at h
  obtain rfl | rfl := h
  · exact absurd hc (by decide)
  · exact absurd hc (by decide)

theorem letter_source (hc : isLetter c = true) : source (c :: colon :: e :: r) = c :: colon :: e :: r := by
  rw [source, if_neg]
  intro hprefix
  obtain ⟨t, ht⟩ := isPrefixOf_iff_prefix.mp hprefix
  obtain rfl : backslash = c := (List.cons.inj ht).1
  exact absurd hc (by decide)

theorem prefix_source : source (longPathPrefix ++ r) = r := by
  rfl

theorem IsTarget.absolute (h : IsTarget path) : isAbsolute path = true := by
  obtain ⟨c, e, r, hc, he, rfl | rfl⟩ := h
  · rw [isAbsolute, hc, he]
    exact Bool.or_true _
  · have hprefix : longPathPrefix.isPrefixOf (longPathPrefix ++ c :: colon :: e :: r) = true :=
      isPrefixOf_iff_prefix.mpr (List.prefix_append _ _)
    exact Bool.or_eq_true_iff.mpr (.inl hprefix)

theorem IsTarget.drive (h : IsTarget path) : ∃ c t, isLetter c = true ∧ normal (source path) = c :: colon :: backslash :: t := by
  have hplain : ∀ {c e : WCHAR} {r : List WCHAR}, isLetter c = true → isSlash e = true →
      ∃ t, normal (c :: colon :: e :: r) = c :: colon :: backslash :: t := by
    intro c e r hc he
    obtain ⟨t, ht⟩ := squeeze_head (s := r ++ [backslash]) he
    have hcolon : isSlash colon = false := rfl
    refine ⟨t, ?_⟩
    rw [normal, cons_append, cons_append, cons_append, squeeze_char (letter_plain hc), squeeze_char hcolon, ht]
  obtain ⟨c, e, r, hc, he, rfl | rfl⟩ := h
  · obtain ⟨t, ht⟩ := hplain (r := r) hc he
    exact ⟨c, t, hc, by rw [letter_source hc, ht]⟩
  · obtain ⟨t, ht⟩ := hplain (r := r) hc he
    exact ⟨c, t, hc, by rw [prefix_source, ht]⟩

theorem source_length_le (path : List WCHAR) : (source path).length ≤ path.length := by
  rw [source]
  split_ifs
  · rw [length_drop]
    exact Nat.sub_le _ _
  · exact Nat.le_refl _

theorem content_length_le (path : List WCHAR) : (content (source path)).length ≤ (neededBufSize path.length - 16) / 2 := by
  have hsource := source_length_le path
  have hnormal := normal_length_le (source path)
  have hprinted : (printed (source path)).length ≤ (source path).length + 1 := (printed_length_le _).trans hnormal
  have hlen : (content (source path)).length = 4 + (normal (source path)).length + 1 + (printed (source path)).length + 1 := by
    simp only [content, length_append, length_singleton]
    rfl
  rw [neededBufSize]
  omega

end

theorem Names.slice_eq {names : Names} (pre mid post : List WCHAR) (h : names.pathBuffer = pre ++ mid ++ post) :
    names.slice (pre.length * 2) (mid.length * 2) = some mid := by
  have hfits : pre.length + mid.length ≤ names.pathBuffer.length := by
    rw [h, length_append, length_append]
    exact Nat.le_add_right _ _
  rw [Names.slice, Nat.mul_div_cancel _ two_pos, Nat.mul_div_cancel _ two_pos, if_pos hfits, h, append_assoc,
    drop_left, take_left]

/-- What is stored of a target that is short enough. -/
def stored (path : List WCHAR) : Names where
  substituteNameOffset := 0
  substituteNameLength := (junctionPrefix ++ normal (source path)).length * 2
  printNameOffset := ((junctionPrefix ++ normal (source path)).length + 1) * 2
  printNameLength := (printed (source path)).length * 2
  pathBuffer := content (source path)

theorem fillBuffer_stored {cap : ℕ} {b : Buffer cap} (hb : b.text = []) (hcap : (content (source path)).length ≤ cap)
    (hshort : ShortEnough path) : fillBuffer path b = some (stored path) := by
  have hfit := hshort.2
  have hlen : (content (source path)).length =
      (junctionPrefix ++ normal (source path)).length + 1 + (printed (source path)).length + 1 := by
    simp only [content, length_append, length_singleton]
  have hsize : maximumReparseDataBufferSize < ushort := by decide
  rw [fillBuffer_spec hb hcap, Nat.mod_eq_of_lt (by omega), Nat.mod_eq_of_lt (by omega), Nat.mod_eq_of_lt (by omega), stored]

theorem stored_substituteName (path : List WCHAR) :
    (stored path).substituteName = some (junctionPrefix ++ normal (source path)) :=
  Names.slice_eq [] _ ([0] ++ (printed (source path) ++ [0])) (by
    simp [stored, content])

theorem stored_printName (path : List WCHAR) : (stored path).printName = some (printed (source path)) := by
  have hlen : (junctionPrefix ++ normal (source path)).length + 1 = (junctionPrefix ++ normal (source path) ++ [0]).length := by
    rw [length_append, length_append, length_append, length_singleton]
  rw [stored, hlen]
  exact Names.slice_eq _ _ [0] rfl

/-- **The junction of a target** that is short enough: nothing is written behind the buffer, whatever the calls that follow
return; the names are where the offsets and lengths say; and what is read is the target without the prefix. -/
theorem junction_round_trip (w : Windows) (path : WString) (htarget : IsTarget path.chars) (hshort : ShortEnough path.chars) :
    ∃ names : Names, fsCreateJunction w path = some (w.create names.send) ∧
      names.substituteName = some (junctionPrefix ++ normal (source path.chars)) ∧
      names.printName = some (printed (source path.chars)) ∧
      fsReadlinkHandle (.ok (.mountPoint names)) = some (.ok (utf8 (normal (source path.chars)))) := by
  have hint : neededBufSize path.chars.length < word / 2 := hshort.1
  have hmod : neededBufSize path.chars.length % word = neededBufSize path.chars.length :=
    Nat.mod_eq_of_lt (hint.trans_le (Nat.div_le_self _ _))
  refine ⟨stored path.chars, ?_, stored_substituteName _, stored_printName _, ?_⟩
  · have hcap : (content (source path.chars)).length ≤ (neededBufSize path.chars.length % word - 16) / 2 := by
      rw [hmod]
      exact content_length_le path.chars
    rw [fsCreateJunction, htarget.absolute, if_neg Bool.noConfusion, if_neg (by rw [hmod]; omega),
      fillBuffer_stored rfl hcap hshort]
    rfl
  · obtain ⟨c, t, hc, hnormal⟩ := htarget.drive
    have hjunction : junctionTarget (junctionPrefix ++ normal (source path.chars)) = .ok (normal (source path.chars)) := by
      have hdrive : isDrive (c :: colon :: backslash :: t) = true := by
        rw [isDrive, hc]
        rfl
      rw [hnormal]
      exact if_pos hdrive
    have hutf8 : fsWideToUtf8 (normal (source path.chars)) = .ok (utf8 (normal (source path.chars))) := by
      rw [fsWideToUtf8, if_neg]
      rw [hnormal]
      exact cons_ne_nil _ _
    rw [fsReadlinkHandle, stored_substituteName]
    change some ((junctionTarget (junctionPrefix ++ normal (source path.chars))).bind fsWideToUtf8) = _
    rw [hjunction]
    exact congrArg some hutf8

/-- `C:/a//b` -/
def mixed : WString := ⟨[0x43, colon, 0x2F, 0x61, 0x2F, 0x2F, 0x62], by decide⟩

/-- `C:\a\b\` -/
theorem junction_round_trip_mixed : ∃ names, fsCreateJunction ⟨none, none, fun _ => none⟩ mixed = some (.made names) ∧
    fsReadlinkHandle (.ok (.mountPoint names)) = some (.ok [0x43, 0x3A, 0x5C, 0x61, 0x5C, 0x62, 0x5C]) := by
  obtain ⟨names, hmade, -, -, hread⟩ := junction_round_trip ⟨none, none, fun _ => none⟩ mixed
    ⟨_, _, _, rfl, rfl, .inl rfl⟩ ⟨by decide, by decide⟩
  exact ⟨names, hmade, hread⟩

end Libuv.L5.Junction
