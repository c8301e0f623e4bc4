import Mathlib.Data.List.ReduceOption
import Mathlib.Tactic

/-!
# The environment (`unix/core.c`)

`uv_os_environ` copies the strings of `environ` that have a `'='` into an array of items, which
`uv_os_free_environ` frees again. Each copy is a block of memory, called by the number of the string it is made of;
`name` and `value` point into it. Which calls of `uv__calloc` and `uv__strdup` succeed is a parameter, and `freed`
lists the arguments `uv__free` has been given, `NULL` being `none`. A read or a write outside of
the array is `none`.

* `frees_iff`: the function does what its callers need if and only if the string whose copy fails, if any, has no
  string with a `'='` before it. The loop behind `fail` frees the item with the number `cnt` again and again, which is still
  empty, and not the ones below.
* `free_environ`: `uv_os_free_environ`, which counts with `i`, frees all there is.
-/
namespace Libuv.L1.OsEnviron

open List

abbrev equals : UInt8 := 0x3D

/-- The characters in front of the terminating zero. -/
structure CString where
  chars : List UInt8
  noNul : 0 ∉ chars

structure Ptr where
  block : ℕ
  offset : ℕ
  deriving DecidableEq

structure EnvItem where
  name : Option Ptr
  value : Option Ptr
  deriving DecidableEq

/-- What `uv__calloc` leaves in an item. -/
def EnvItem.zero : EnvItem := ⟨none, none⟩

@[simp] theorem EnvItem.zero_name : EnvItem.zero.name = none := rfl

inductive Block
  | array
  | copy (j : ℕ)
  deriving DecidableEq

structure State where
  items : List EnvItem
  cnt : ℕ
  mem : ℕ → List UInt8
  freed : List (Option Block)

/-- The result; `freed` is what the function has freed, `atExit` what of it behind `fail`. -/
structure Result where
  ret : Bool
  envitems : Option (List EnvItem)
  count : ℕ
  mem : ℕ → List UInt8
  freed : List (Option Block)
  atExit : List (Option Block)

namespace State
variable (s : State)

def free (b : Option Block) : State := { s with freed := s.freed ++ [b] }

def strdup (j : ℕ) (e : CString) : State := { s with mem := Function.update s.mem j (e.chars ++ [0]) }

/-- `*ptr = '\0'` and the three stores into the item. -/
def store (j k : ℕ) : Option State :=
  if s.cnt < s.items.length then
    some { s with
      mem := Function.update s.mem j ((s.mem j).set k 0)
      items := s.items.set s.cnt ⟨some ⟨j, 0⟩, some ⟨j, k + 1⟩⟩
      cnt := s.cnt + 1 }
  else none

end State

/-- `strchr` -/
def strchr (s : List UInt8) (c : UInt8) : Option ℕ := (s.takeWhile (· ≠ 0)).findIdx? (· = c)

/-- What the copying loop does with one string once it is copied. -/
def body (e : CString) (j : ℕ) (s : State) : Option State :=
  let s := s.strdup j e
  match strchr (s.mem j) equals with
  | none => some (s.free (some (.copy j)))
  | some k => s.store j k

/-- The copying loop, with the strings from number `j` on before it; `false` is `goto fail`.
mirrors unix/core.c:1291-1315 -/
def copy (ok : ℕ → Bool) : List CString → ℕ → State → Option (Bool × State)
  | [], _, s => some (true, s)
  | e :: es, j, s =>
    if ok j = false then some (false, s)
    else do
      let s ← body e j s
      copy ok es (j + 1) s

/-- The loop behind `fail`.
mirrors unix/core.c:1321-1324 -/
def freeItems (s : State) : Option State :=
  (List.range s.cnt).foldlM (fun s _ => do
    let envitem ← s.items[s.cnt]?
    return s.free (envitem.name.map fun p => .copy p.block)) s

/-- mirrors unix/core.c:1277-1330 -/
def uvOsEnviron (env : List CString) (callocOk : Bool) (ok : ℕ → Bool) (mem : ℕ → List UInt8) : Option Result := do
  if callocOk = false then
    return ⟨false, none, 0, mem, [], []⟩
  let (done, s) ← copy ok env 0 ⟨List.replicate env.length .zero, 0, mem, []⟩
  if done then
    return ⟨true, some s.items, s.cnt, s.mem, s.freed, []⟩
  let t ← freeItems s
  let t := t.free (some .array)
  return ⟨false, none, 0, t.mem, t.freed, t.freed.drop s.freed.length⟩

/-- mirrors uv-common.c:876-884 -/
def uvOsFreeEnviron (items : List EnvItem) (count : ℕ) : Option (List (Option Block)) := do
  let names ← (List.range count).mapM fun i => do
    let envitem ← items[i]?
    return envitem.name.map fun p => Block.copy p.block
  return names ++ [some .array]

/-! ## What is to happen -/

def read (mem : ℕ → List UInt8) (p : Option Ptr) : List UInt8 :=
  match p with
  | none => []
  | some p => ((mem p.block).drop p.offset).takeWhile (· ≠ 0)

def EnvItem.strings (mem : ℕ → List UInt8) (item : EnvItem) : List UInt8 × List UInt8 := (read mem item.name, read mem item.value)

/-- A string split at its first `'='`. -/
def splitEq (e : CString) : Option (List UInt8 × List UInt8) :=
  if equals ∈ e.chars then some (e.chars.takeWhile (· ≠ equals), (e.chars.dropWhile (· ≠ equals)).tail) else none

/-- The numbers below `j` of strings with a `'='`. -/
def named (env : List CString) (j : ℕ) : List ℕ :=
  (List.range j).filter fun k => (env[k]?).any fun e => decide (equals ∈ e.chars)

def failing (env : List CString) (ok : ℕ → Bool) : Option ℕ := (List.range env.length).find? fun j => !ok j

/-- Without a failure the items are the split strings in order; with one the names copied until then are freed on the
way out, and the array, each once and nothing else. -/
def Meets (env : List CString) (callocOk : Bool) (ok : ℕ → Bool) (r : Result) : Prop :=
  if callocOk = false then r.ret = false ∧ r.envitems = none ∧ r.count = 0 ∧ r.freed = []
  else if h : (failing env ok).isSome then
    r.ret = false ∧ r.envitems = none ∧ r.count = 0 ∧
      r.atExit.reduceOption.Perm (.array :: (named env ((failing env ok).get h)).map .copy)
  else
    r.ret = true ∧ ∃ items, r.envitems = some items ∧ (items.take r.count).map (EnvItem.strings r.mem) = env.filterMap splitEq

/-! ## The copying loop -/

variable {env : List CString} {callocOk : Bool} {ok : ℕ → Bool} {mem : ℕ → List UInt8} {s : State} {j : ℕ} {e : CString}
  {filled : List EnvItem}

/-- The array after the strings below `j`: the items in front, blank ones behind them. -/
structure Books (env : List CString) (j : ℕ) (s : State) (filled : List EnvItem) : Prop where
  items : s.items = filled ++ List.replicate (env.length - filled.length) .zero
  cnt : s.cnt = filled.length
  names : filled.map EnvItem.name = (named env j).map fun k => some ⟨k, 0⟩
  below : ∀ item ∈ filled, ∃ k < j, ∃ o, item = ⟨some ⟨k, 0⟩, some ⟨k, o⟩⟩
  strings : filled.map (EnvItem.strings s.mem) = (env.take j).filterMap splitEq

theorem takeWhile_text {a b : List UInt8} (ha : 0 ∉ a) : (a ++ 0 :: b).takeWhile (· ≠ 0) = a := by
  rw [takeWhile_append_of_pos fun x hx => by simpa using fun e : x = 0 => ha (e ▸ hx)]
  simp

theorem CString.split (e : CString) (h : equals ∈ e.chars) :
    ∃ a b, e.chars = a ++ equals :: b ∧ 0 ∉ a ∧ 0 ∉ b ∧ equals ∉ a ∧ splitEq e = some (a, b) := by
  obtain ⟨a, b, he, ha⟩ := eq_append_cons_of_mem h
  have h0 := e.noNul
  rw [he] at h0
  simp only [mem_append, mem_cons, not_or] at h0
  refine ⟨a, b, he, h0.1, h0.2.2, ha, ?_⟩
  have hall : ∀ x ∈ a, decide (x ≠ equals) = true := fun x hx => by simpa using fun e : x = equals => ha (e ▸ hx)
  unfold splitEq
  rw [he, takeWhile_append_of_pos hall, dropWhile_append_of_pos hall]
  simp

theorem strchr_copy : strchr (e.chars ++ [0]) equals = e.chars.findIdx? (· = equals) := by
  unfold strchr
  rw [takeWhile_text e.noNul]

theorem named_succ : named env (j + 1) = named env j ++
    if (env[j]?).any fun e => decide (equals ∈ e.chars) then [j] else [] := by
  unfold named
  rw [range_succ, filter_append, filter_singleton, Bool.cond_eq_ite]

theorem named_length_le : (named env j).length ≤ j := by
  simpa [named] using length_filter_le _ (List.range j)

theorem strings_update {item : EnvItem} {x : List UInt8} (h : ∃ k < j, ∃ o, item = ⟨some ⟨k, 0⟩, some ⟨k, o⟩⟩) :
    item.strings (Function.update mem j x) = item.strings mem := by
  obtain ⟨k, hk, o, rfl⟩ := h
  simp [EnvItem.strings, read, hk.ne]

theorem Books.length_le (hb : Books env j s filled) : filled.length ≤ j := by
  have := congrArg List.length hb.names
  rw [length_map, length_map] at this
  exact this ▸ named_length_le

theorem Books.blank (hb : Books env j s filled) (hj : j < env.length) : s.items[s.cnt]? = some .zero := by
  have hlt : filled.length < env.length := hb.length_le.trans_lt hj
  rw [hb.items, hb.cnt, getElem?_append_right le_rfl, getElem?_replicate_of_lt (by omega)]

theorem Books.body (hb : Books env j s filled) (he : env[j]? = some e) :
    ∃ t filled', body e j s = some t ∧ Books env (j + 1) t filled' := by
  have hj : j < env.length := (List.getElem?_eq_some_iff.1 he).1
  have hlen := hb.length_le
  have htake : env.take (j + 1) = env.take j ++ [e] := by simp [take_add_one, he]
  have hbelow : ∀ item ∈ filled, ∃ k < j + 1, ∃ o, item = ⟨some ⟨k, 0⟩, some ⟨k, o⟩⟩ := by
    intro item hi
    obtain ⟨k, hk, o, ho⟩ := hb.below item hi
    exact ⟨k, by omega, o, ho⟩
  have hold : ∀ x, filled.map (EnvItem.strings (Function.update s.mem j x)) = (env.take j).filterMap splitEq := by
    intro x
    rw [← hb.strings]
    exact map_congr_left fun item hi => strings_update (hb.below item hi)
  unfold OsEnviron.body
  simp only [State.strdup, Function.update_self, strchr_copy]
  by_cases hm : equals ∈ e.chars
  · obtain ⟨a, b, hchars, ha, hb0, hea, hsplit⟩ := e.split hm
    have hidx : e.chars.findIdx? (· = equals) = some a.length := by
      rw [hchars, findIdx?_append, findIdx?_eq_none_iff.2]
      · simp [findIdx?_cons]
      · exact fun x hx => by simpa using fun e : x = equals => hea (e ▸ hx)
    have hmore : s.items = filled ++ .zero :: List.replicate (env.length - (filled.length + 1)) .zero := by
      rw [hb.items, ← replicate_succ]
      congr 2
      omega
    have hset : (e.chars ++ [0]).set a.length 0 = a ++ 0 :: (b ++ [0]) := by simp [hchars]
    have hcnt : s.cnt < s.items.length := by
      rw [hb.cnt, hmore]
      simp
    simp only [hidx, State.store, hcnt, if_true, Function.update_self, Function.update_idem, hset]
    refine ⟨_, filled ++ [⟨some ⟨j, 0⟩, some ⟨j, a.length + 1⟩⟩], rfl, ?_, ?_, ?_, ?_, ?_⟩
    · simp [hb.cnt, hmore]
    · simp [hb.cnt]
    · rw [named_succ, he]
      simp [hb.names, hm]
    · intro item hi
      rcases mem_append.1 hi with hi | hi
      · exact hbelow item hi
      · exact ⟨j, by omega, _, mem_singleton.1 hi⟩
    · rw [map_append, hold, htake, filterMap_append]
      have hdrop : (a ++ 0 :: (b ++ [0])).drop (a.length + 1) = b ++ [0] := by
        simp
      simp only [map_cons, map_nil, EnvItem.strings, read, Function.update_self, drop_zero, hdrop,
        takeWhile_text ha, takeWhile_text hb0, filterMap_cons, hsplit, filterMap_nil]
  · have hidx : e.chars.findIdx? (· = equals) = none :=
      findIdx?_eq_none_iff.2 fun x hx => by simpa using fun e : x = equals => hm (e ▸ hx)
    simp only [hidx, State.free]
    refine ⟨_, filled, rfl, hb.items, hb.cnt, ?_, hbelow, ?_⟩
    · rw [named_succ, he]
      simp [hb.names, hm]
    · simp [hold, htake, splitEq, hm]

theorem failing_eq_some : failing env ok = some j ↔ j < env.length ∧ ok j = false ∧ ∀ k < j, ok k = true := by
  simp [failing, find?_range_eq_some]
  tauto

theorem failing_eq_none : failing env ok = none ↔ ∀ k < env.length, ok k = true := by
  simp [failing]

theorem copy_spec (env : List CString) (ok : ℕ → Bool) {es : List CString} (hes : env.drop j = es) (hj : j ≤ env.length)
    (hok : ∀ k < j, ok k = true) (hb : Books env j s filled) :
    ∃ t filled', (copy ok es j s = some (true, t) ∧ failing env ok = none ∧ Books env env.length t filled') ∨
      ∃ i, copy ok es j s = some (false, t) ∧ failing env ok = some i ∧ i < env.length ∧ Books env i t filled' := by
  induction es generalizing j s filled with
  | nil =>
    obtain rfl : j = env.length := le_antisymm hj (drop_eq_nil_iff.1 hes)
    exact ⟨s, filled, .inl ⟨rfl, failing_eq_none.2 hok, hb⟩⟩
  | cons e es ih =>
    have he : env[j]? = some e := by
      rw [← head?_drop, hes]
      rfl
    have hlt : j < env.length := (List.getElem?_eq_some_iff.1 he).1
    unfold copy
    cases hj' : ok j with
    | false =>
      exact ⟨s, filled, .inr ⟨j, rfl, failing_eq_some.2 ⟨hlt, hj', hok⟩, hlt, hb⟩⟩
    | true =>
      obtain ⟨t, filled', ht, hb'⟩ := hb.body he
      simp only [ht, Option.bind_eq_bind, Option.bind_some]
      refine ih ?_ hlt (fun k hk => ?_) hb'
      · rw [← drop_drop, hes]
        rfl
      · rcases Nat.lt_succ_iff_lt_or_eq.1 hk with hk | rfl
        · exact hok k hk
        · exact hj'

/-! ## Cleaning up -/

theorem freeItems_eq {item : EnvItem} (h : s.items[s.cnt]? = some item) :
    freeItems s = some { s with
      freed := s.freed ++ List.replicate s.cnt (item.name.map fun p => .copy p.block) } := by
  have key : ∀ n (t : State), t.items = s.items → t.cnt = s.cnt → (List.range' n (s.cnt - n)).foldlM (fun s _ => do
        let envitem ← s.items[s.cnt]?
        return s.free (envitem.name.map fun p => .copy p.block)) t =
      some { t with freed := t.freed ++ List.replicate (s.cnt - n) (item.name.map fun p => .copy p.block) } := by
    intro n
    induction hn : s.cnt - n generalizing n with
    | zero => simp
    | succ k ih =>
      intro t hi hc
      have hs := ih (n + 1) (by omega) (t.free (item.name.map fun p => .copy p.block)) hi hc
      simp only [range'_succ, foldlM_cons, hi, hc, h]
      simpa [State.free, replicate_succ, hi, hc] using hs
  have := key 0 s rfl rfl
  rwa [← range_eq_range'] at this

theorem books_zero (mem : ℕ → List UInt8) : Books env 0 ⟨List.replicate env.length .zero, 0, mem, []⟩ [] :=
  ⟨by simp, rfl, rfl, by simp, rfl⟩

theorem uvOsEnviron_copied {t : State}
    (h : copy ok env 0 ⟨List.replicate env.length .zero, 0, mem, []⟩ = some (true, t)) :
    uvOsEnviron env true ok mem = some ⟨true, some t.items, t.cnt, t.mem, t.freed, []⟩ := by
  simp [uvOsEnviron, h]

theorem uvOsEnviron_failed {t : State}
    (h : copy ok env 0 ⟨List.replicate env.length .zero, 0, mem, []⟩ = some (false, t))
    (hitem : t.items[t.cnt]? = some .zero) :
    ∃ r, uvOsEnviron env true ok mem = some r ∧ r.ret = false ∧ r.envitems = none ∧ r.count = 0 ∧
      r.atExit.reduceOption = [.array] := by
  refine ⟨⟨false, none, 0, t.mem, t.freed ++ List.replicate t.cnt none ++ [some .array],
    List.replicate t.cnt none ++ [some .array]⟩, ?_, rfl, rfl, rfl, ?_⟩
  · have hf := freeItems_eq hitem
    simp [uvOsEnviron, h, hf, State.free]
  · rw [reduceOption_append, reduceOption_replicate_none]
    rfl

/-- **The environment is copied, or all is freed,** if and only if there is no `'='` in front of the failure. -/
theorem frees_iff (env : List CString) (callocOk : Bool) (ok : ℕ → Bool) (mem : ℕ → List UInt8) :
    (∃ r, uvOsEnviron env callocOk ok mem = some r ∧ Meets env callocOk ok r) ↔
      (callocOk = true → ∀ j, failing env ok = some j → ∀ k < j, ∀ e, env[k]? = some e → equals ∉ e.chars) := by
  have hnone : ∀ j, named env j = [] ↔ ∀ k < j, ∀ e, env[k]? = some e → equals ∉ e.chars := by
    intro j
    simp [named, filter_eq_nil_iff, Option.any_eq_true]
  cases callocOk with
  | false => simp [uvOsEnviron, Meets]
  | true =>
    obtain ⟨t, filled, ⟨hc, hf, hb⟩ | ⟨i, hc, hf, hi, hb⟩⟩ := copy_spec env ok rfl (Nat.zero_le _)
      (by simp) (books_zero mem)
    · rw [drop_zero] at hc
      have hs : (t.items.take t.cnt).map (EnvItem.strings t.mem) = env.filterMap splitEq := by
        rw [hb.items, hb.cnt, take_left, hb.strings, take_length]
      simp only [uvOsEnviron_copied hc, Option.some.injEq, exists_eq_left', Meets, hf]
      simpa using hs
    · rw [drop_zero] at hc
      obtain ⟨r, hr, h1, h2, h3, h4⟩ := uvOsEnviron_failed hc (hb.blank hi)
      simp only [hr, Option.some.injEq, exists_eq_left', Meets, hf, h1, h2, h3, h4, ← hnone]
      simp

/-- A string with a `'='`, and the copy of the second one fails: the first copy is not freed. -/
theorem environ_leaks : ¬ ∃ r,
    uvOsEnviron [⟨[0x41, 0x3D], by decide⟩, ⟨[0x42, 0x3D], by decide⟩] true (· == 0) (fun _ => []) = some r ∧
    Meets [⟨[0x41, 0x3D], by decide⟩, ⟨[0x42, 0x3D], by decide⟩] true (· == 0) r := by
  rintro ⟨r, hr, hm⟩
  have hr' : r.atExit = [none, some .array] := by
    cases hr
    rfl
  obtain ⟨-, -, -, hp⟩ : r.ret = false ∧ r.envitems = none ∧ r.count = 0 ∧
    r.atExit.reduceOption.Perm [.array, .copy 0] := hm
  rw [hr'] at hp
  exact absurd hp.length_eq (by decide)

theorem uvOsFreeEnviron_eq {items : List EnvItem} {count : ℕ} (h : count ≤ items.length) :
    uvOsFreeEnviron items count =
      some (((items.take count).map fun item => item.name.map fun p => .copy p.block) ++ [some .array]) := by
  have key : ((List.range count).mapM fun i => do
      let envitem ← items[i]?
      return envitem.name.map fun p => Block.copy p.block) =
      some ((items.take count).map fun item => item.name.map fun p => .copy p.block) := by
    induction count with
    | zero => rfl
    | succ n ih =>
      obtain ⟨item, hitem⟩ : ∃ item, items[n]? = some item := ⟨_, getElem?_eq_getElem (by omega)⟩
      rw [range_succ, mapM_append, ih (by omega)]
      simp [hitem, take_add_one]
  unfold uvOsFreeEnviron
  rw [key]
  rfl

/-- `uv_os_free_environ` frees the name of each item once, and the array. -/
theorem free_environ {r : Result} (h : uvOsEnviron env true ok mem = some r) (hr : r.ret = true) :
    ∃ items, r.envitems = some items ∧
      uvOsFreeEnviron items r.count = some (((named env env.length).map fun k => some (.copy k)) ++ [some .array]) := by
  obtain ⟨t, filled, ⟨hc, -, hb⟩ | ⟨i, hc, -, hi, hb⟩⟩ := copy_spec env ok rfl (Nat.zero_le _)
    (by simp) (books_zero mem)
  · rw [drop_zero] at hc
    rw [uvOsEnviron_copied hc] at h
    cases h
    refine ⟨_, rfl, ?_⟩
    have hnames := congrArg (List.map (Option.map fun p : Ptr => Block.copy p.block)) hb.names
    rw [map_map, map_map] at hnames
    rw [uvOsFreeEnviron_eq (by simp [hb.items, hb.cnt]), hb.cnt, hb.items, take_left]
    exact congrArg (fun l => some (l ++ [some Block.array])) hnames
  · rw [drop_zero] at hc
    obtain ⟨r', hr', h1, -⟩ := uvOsEnviron_failed hc (hb.blank hi)
    rw [hr'] at h
    cases h
    rw [h1] at hr
    cases hr

/-- `A=`, `B` and `C=`; `B` is no item, and its copy is freed at once. -/
def threeStrings : List CString := [⟨[0x41, 0x3D], by decide⟩, ⟨[0x42], by decide⟩, ⟨[0x43, 0x3D], by decide⟩]

theorem free_environ_three : ∃ r items, uvOsEnviron threeStrings true (fun _ => true) (fun _ => []) = some r ∧
    r.freed = [some (.copy 1)] ∧ r.envitems = some items ∧
    uvOsFreeEnviron items r.count = some [some (.copy 0), some (.copy 2), some .array] := by
  obtain ⟨r, h⟩ : ∃ r, uvOsEnviron threeStrings true (fun _ => true) (fun _ => []) = some r := ⟨_, rfl⟩
  obtain ⟨items, hitems, hfree⟩ := free_environ h (by cases h; rfl)
  exact ⟨r, items, h, by cases h; rfl, hitems, hfree⟩

end Libuv.L1.OsEnviron
