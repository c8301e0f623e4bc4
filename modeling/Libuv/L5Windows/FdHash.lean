import Libuv.Core.LTS
import Libuv.Core.Unrolled

/-!
# The table of file descriptors (`win/fs-fd-hash-inl.h`)

`libuv/src/win/fs-fd-hash-inl.h` keeps an `info` for each file opened with `UV_FS_O_FILEMAP`:
256 buckets, each a list of groups of 16 entries of which only the one in front may be partly
filled. The group farthest away is static, the others come from the heap. Every function holds
`uv__fd_hash_mutex` from its first access to its last, so calls follow each other.

A heap block that was freed is not in `mem`; reading or storing into it, and a list that does not
end, make an operation `none`. The address that `uv__malloc` returns is not in use and
what the new block contains is arbitrary; that it returns `NULL` is a fatal error and not a
step.

* `refines_map`: the table is a finite map from descriptors to infos, whatever was called.
-/
namespace Libuv.L5.FdHash

open List Option Function

/-! ## State -/

/-- `struct uv__fd_info_s`; a mapping `none` is `INVALID_HANDLE_VALUE` -/
structure FdInfo where
  flags : ℕ
  isDirectory : Bool
  mapping : Option ℕ
  size : ℤ
  currentPos : ℤ
deriving DecidableEq

/-- `struct uv__fd_hash_entry_s` -/
structure Entry where
  fd : ℕ
  info : FdInfo
deriving DecidableEq

/-- Where a group is: in `uv__fd_hash_entry_initial`, or from `uv__malloc`. -/
inductive GroupPtr
  | initial (i : ℕ)
  | malloc (a : ℕ)
deriving DecidableEq

/-- `struct uv__fd_hash_entry_group_s` -/
abbrev Group := Block GroupPtr Entry 16

/-- `struct uv__fd_hash_bucket_s` -/
structure Bucket where
  size : ℕ
  data : GroupPtr
deriving DecidableEq

structure State where
  mem : GroupPtr → Option Group
  /-- `uv__fd_hash` -/
  hash : Fin 256 → Bucket

/-- `fd % ARRAY_SIZE(uv__fd_hash)` -/
def bucket (fd : ℕ) : Fin 256 := ⟨fd % 256, Nat.mod_lt _ (by decide)⟩

/-- What static memory holds before it is written. -/
def zeroGroup : Group := ⟨fun _ => ⟨0, 0, false, some 0, 0, 0⟩, none⟩

/-- mirrors win/fs-fd-hash-inl.h:71-90 -/
def init : State where
  mem
    | .initial i => if i < 256 * 16 then some zeroGroup else none
    | .malloc _ => none
  hash b := ⟨0, .initial (b.val * 16)⟩

/-! ## Operations -/

/-- `first_group_size` -/
def firstGroupSize (size : ℕ) : ℕ := if size ≠ 0 ∧ size % 16 = 0 then 16 else size % 16

/-- The index `size % UV__FD_HASH_GROUP_SIZE` into a group. -/
def slot (size : ℕ) : Fin 16 := ⟨size % 16, Nat.mod_lt _ (by decide)⟩

namespace State
variable (s : State)

/-- `FIND_IN_BUCKET_PTR`: the entry of `fd`, as a group and an index.
mirrors win/fs-fd-hash-inl.h:99-120 -/
def find (fd : ℕ) : Option (Option (GroupPtr × Fin 16)) :=
  let b := s.hash (bucket fd)
  match s.mem b.data with
  | none => none
  | some g =>
    match g.find (fun e => e.fd == fd) (firstGroupSize b.size) with
    | some i => some (some (b.data, i))
    | none => searchBlocks s.mem (fun e => e.fd == fd) b.size g.next

/-- `*entry_ptr`, read -/
def load (p : GroupPtr × Fin 16) : Option Entry := (s.mem p.1).map fun g => g.entries p.2

/-- `*entry_ptr = e` -/
def store (p : GroupPtr × Fin 16) (e : Entry) : Option State :=
  (s.mem p.1).map fun g => { s with mem := Function.update s.mem p.1 (some (g.set p.2 e)) }

def setBucket (b : Fin 256) (v : Bucket) : State := { s with hash := Function.update s.hash b v }

/-- mirrors win/fs-fd-hash-inl.h:122-135 -/
def get (fd : ℕ) : Option (Option FdInfo) :=
  match s.find fd with
  | none => none
  | some none => some none
  | some (some p) => (s.load p).map fun e => some e.info

/-- A new group in front of a bucket, at `a` and with these contents.
mirrors win/fs-fd-hash-inl.h:148-154 -/
def newGroup (b : Fin 256) (a : ℕ) (garbage : Fin 16 → Entry) : State :=
  { s with mem := Function.update s.mem (.malloc a) (some ⟨garbage, some (s.hash b).data⟩) }.setBucket b
    { s.hash b with data := .malloc a }

/-- mirrors win/fs-fd-hash-inl.h:137-165 -/
def add (fd : ℕ) (info : FdInfo) (a : ℕ) (garbage : Fin 16 → Entry) : Option State :=
  match s.find fd with
  | none => none
  | some (some p) => (s.load p).bind fun e => s.store p { e with info := info }
  | some none =>
    let b := bucket fd
    let size := (s.hash b).size
    let t := if size ≠ 0 ∧ size % 16 = 0 then s.newGroup b a garbage else s
    (t.setBucket b { t.hash b with size := size + 1 }).store ((t.hash b).data, slot size) ⟨fd, info⟩

/-- `bucket_ptr->data = old_group_ptr->next; uv__free(old_group_ptr);`
A list of one group has no `next` to go on with.
mirrors win/fs-fd-hash-inl.h:186-188 -/
def freeGroup (b : Fin 256) : Option State :=
  let old := (s.hash b).data
  match s.mem old with
  | some ⟨_, some next⟩ =>
    some ({ s with mem := Function.update s.mem old none }.setBucket b { s.hash b with data := next })
  | _ => none

/-- mirrors win/fs-fd-hash-inl.h:167-194 -/
def remove (fd : ℕ) : Option (Option FdInfo × State) :=
  match s.find fd with
  | none => none
  | some none => some (none, s)
  | some (some p) =>
    (s.load p).bind fun e =>
      let b := bucket fd
      let size := (s.hash b).size - 1
      let last := ((s.hash b).data, slot size)
      let s := s.setBucket b { s.hash b with size := size }
      (if p = last then some s else (s.load last).bind fun l => s.store p l).bind fun t =>
        (if size ≠ 0 ∧ size % 16 = 0 then t.freeGroup b else some t).map fun t => (some e.info, t)

end State

/-! ## The system -/

inductive Label
  | add (fd : ℕ) (info : FdInfo) (a : ℕ) (garbage : Fin 16 → Entry)
  | get (fd : ℕ)
  | remove (fd : ℕ)

def enabled (s : State) : Label → Prop
  | .add _ _ a _ => s.mem (.malloc a) = none
  | _ => True

def step (s : State) : Label → Option State
  | .add fd info a garbage => s.add fd info a garbage
  | .get fd => (s.get fd).map fun _ => s
  | .remove fd => (s.remove fd).map Prod.snd

def system : LTS State Label where
  init s := s = init
  step s l t := enabled s l ∧ step s l = some t

/-! ## The map -/

/-- What a call does to a map from descriptors to infos. -/
def apply (m : ℕ → Option FdInfo) : Label → ℕ → Option FdInfo
  | .add fd info _ _ => Function.update m fd (some info)
  | .get _ => m
  | .remove fd => Function.update m fd none

/-- The info last added for each descriptor, if it was not removed since. -/
def lastAdded (ls : List Label) : ℕ → Option FdInfo := ls.foldl apply fun _ => none


@[simp] theorem lastAdded_snoc (ls : List Label) (l : Label) : lastAdded (ls ++ [l]) = apply (lastAdded ls) l := by
  simp [lastAdded]

/-- The groups of a bucket, from the one in front on. -/
def State.groups (s : State) (b : Fin 256) : List GroupPtr :=
  blocksFrom s.mem ((s.hash b).size + 1) (some (s.hash b).data)

def Group.fds (g : Group) (n : ℕ) : List ℕ :=
  ((List.finRange 16).filter fun i => i.val < n).map fun i => (g.entries i).fd

/-- The descriptors in the slots of a bucket that are in use. -/
def State.fds (s : State) (b : Fin 256) : List ℕ :=
  (s.groups b).flatMap fun p =>
    match s.mem p with
    | none => []
    | some g => Group.fds g (if p = (s.hash b).data then firstGroupSize (s.hash b).size else 16)

/-! ## Positions -/

/-- How many groups stand behind the one in front. -/
def top (size : ℕ) : ℕ := (size - 1) / 16

theorem live_iff {size j i : ℕ} (hi : i < 16) : Live (top size) (firstGroupSize size) j i ↔ 16 * j + i < size := by
  unfold Live top firstGroupSize
  split <;> omega

theorem firstGroupSize_le (size : ℕ) : firstGroupSize size ≤ 16 := by
  unfold firstGroupSize
  split <;> omega

theorem size_eq (size : ℕ) : size = 16 * top size + firstGroupSize size := by
  unfold top firstGroupSize
  split <;> omega

def grouped (e : ℕ → Entry) (j : ℕ) (i : Fin 16) : Entry := e (16 * j + i)

theorem grouped_update (e : ℕ → Entry) (j : ℕ) (i : Fin 16) (x : Entry) :
    stored (grouped e) j i x = grouped (update e (16 * j + i) x) := by
  funext k l
  by_cases h : k = j ∧ l = i
  · obtain ⟨rfl, rfl⟩ := h
    simp [grouped]
  · have hne : 16 * k + l.val ≠ 16 * j + i.val := fun e => h ⟨by omega, Fin.ext (by omega)⟩
    rw [stored_of_ne _ _ h, grouped, grouped, update_of_ne hne]

/-! ## One bucket -/

/-- The first `size` entries of `e`, the content of bucket `b`, are what `m` says of its descriptors. -/
structure Content (size : ℕ) (b : Fin 256) (m : ℕ → Option FdInfo) (e : ℕ → Entry) : Prop where
  home : ∀ k < size, bucket (e k).fd = b
  distinct : ∀ k < size, ∀ l < size, (e k).fd = (e l).fd → k = l
  maps : ∀ fd info, bucket fd = b → (m fd = some info ↔ ∃ k < size, e k = ⟨fd, info⟩)

namespace Content
variable {size : ℕ} {b : Fin 256} {m : ℕ → Option FdInfo} {e : ℕ → Entry}

theorem congr {m' : ℕ → Option FdInfo} (h : Content size b m e) (hm : ∀ fd, bucket fd = b → m' fd = m fd) :
    Content size b m' e := by
  refine ⟨h.home, h.distinct, fun fd info hb => ?_⟩
  rw [hm fd hb]
  exact h.maps fd info hb

theorem maps_self (h : Content size b m e) {k : ℕ} (hk : k < size) : m (e k).fd = some (e k).info :=
  (h.maps _ _ (h.home k hk)).2 ⟨k, hk, rfl⟩

theorem none_of (h : Content size b m e) {fd : ℕ} (hb : bucket fd = b) (hno : ∀ k < size, (e k).fd ≠ fd) : m fd = none := by
  rw [eq_none_iff_forall_ne_some]
  intro info hi
  obtain ⟨k, hk, he⟩ := (h.maps fd info hb).1 hi
  exact hno k hk (by rw [he])

theorem ne_of_none (h : Content size b m e) {fd : ℕ} (hn : m fd = none) {k : ℕ} (hk : k < size) : (e k).fd ≠ fd := by
  intro hf
  have := h.maps_self hk
  rw [hf, hn] at this
  cases this

theorem put (h : Content size b m e) {k : ℕ} (hk : k < size) (info : FdInfo) :
    Content size b (update m (e k).fd (some info)) (update e k ⟨(e k).fd, info⟩) := by
  have hfd : ∀ l, (update e k ⟨(e k).fd, info⟩ l).fd = (e l).fd := by
    intro l
    by_cases hl : l = k
    · subst hl
      simp
    · rw [update_of_ne hl]
  refine ⟨fun l hl => ?_, fun l hl n hn he => ?_, fun fd i hb => ?_⟩
  · rw [hfd]
    exact h.home l hl
  · rw [hfd, hfd] at he
    exact h.distinct l hl n hn he
  · by_cases hf : fd = (e k).fd
    · subst hf
      rw [update_self, some_inj]
      constructor
      · rintro rfl
        exact ⟨k, hk, update_self ..⟩
      · rintro ⟨l, hl, he⟩
        have : l = k := h.distinct l hl k hk (by rw [← hfd l, he])
        subst this
        rw [update_self] at he
        exact (Entry.mk.inj he).2
    · rw [update_of_ne hf, h.maps fd i hb]
      refine exists_congr fun l => and_congr_right fun _ => ?_
      by_cases hl : l = k
      · subst hl
        rw [update_self]
        exact ⟨fun he => absurd (by rw [he]) hf, fun he => absurd (Entry.mk.inj he).1.symm hf⟩
      · rw [update_of_ne hl]

theorem push (h : Content size b m e) {fd : ℕ} (hb : bucket fd = b) (hn : m fd = none) (info : FdInfo) :
    Content (size + 1) b (update m fd (some info)) (update e size ⟨fd, info⟩) := by
  have hold : ∀ k < size, update e size ⟨fd, info⟩ k = e k := fun k hk => update_of_ne hk.ne ..
  have hnew : update e size ⟨fd, info⟩ size = ⟨fd, info⟩ := update_self ..
  refine ⟨fun k hk => ?_, fun k hk l hl he => ?_, fun f i hf => ?_⟩
  · rcases Nat.lt_succ_iff_lt_or_eq.1 hk with hk | rfl
    · rw [hold k hk]
      exact h.home k hk
    · rw [hnew, hb]
  · rcases Nat.lt_succ_iff_lt_or_eq.1 hk with hk | rfl <;> rcases Nat.lt_succ_iff_lt_or_eq.1 hl with hl | rfl
    · rw [hold k hk, hold l hl] at he
      exact h.distinct k hk l hl he
    · rw [hold k hk, hnew] at he
      exact absurd he (h.ne_of_none hn hk)
    · rw [hold l hl, hnew] at he
      exact absurd he.symm (h.ne_of_none hn hl)
    · rfl
  · by_cases hff : f = fd
    · subst hff
      rw [update_self, some_inj]
      constructor
      · rintro rfl
        exact ⟨size, Nat.lt_succ_self size, hnew⟩
      · rintro ⟨k, hk, he⟩
        rcases Nat.lt_succ_iff_lt_or_eq.1 hk with hk | rfl
        · rw [hold k hk] at he
          exact absurd (by rw [he]) (h.ne_of_none hn hk)
        · rw [hnew] at he
          exact (Entry.mk.inj he).2
    · rw [update_of_ne hff, h.maps f i hf]
      constructor
      · rintro ⟨k, hk, he⟩
        exact ⟨k, by omega, by rw [hold k hk, he]⟩
      · rintro ⟨k, hk, he⟩
        rcases Nat.lt_succ_iff_lt_or_eq.1 hk with hk | rfl
        · exact ⟨k, hk, by rw [← hold k hk, he]⟩
        · rw [hnew] at he
          exact absurd (Entry.mk.inj he).1.symm hff

theorem swapRemove (h : Content (size + 1) b m e) {k : ℕ} (hk : k < size + 1) :
    Content size b (update m (e k).fd none) (update e k (e size)) := by
  -- the entry at `l` is the one that was at `src l`, which is not `k`
  obtain ⟨src, hsrc⟩ : ∃ src : ℕ → ℕ, ∀ l, src l = if l = k then size else l := ⟨_, fun _ => rfl⟩
  have hlt : ∀ l < size, src l < size + 1 ∧ src l ≠ k := by
    intro l hl
    rw [hsrc]
    split <;> omega
  have he : ∀ l, update e k (e size) l = e (src l) := by
    intro l
    rw [hsrc, update_apply]
    split <;> rfl
  refine ⟨fun l hl => ?_, fun l hl n hn hf => ?_, fun fd info hb => ?_⟩
  · rw [he]
    exact h.home _ (hlt l hl).1
  · rw [he, he] at hf
    have := h.distinct _ (hlt l hl).1 _ (hlt n hn).1 hf
    rw [hsrc, hsrc] at this
    split_ifs at this <;> omega
  · by_cases hff : fd = (e k).fd
    · subst hff
      rw [update_self]
      constructor
      · intro hi
        cases hi
      rintro ⟨l, hl, hel⟩
      rw [he] at hel
      exact absurd (h.distinct _ (hlt l hl).1 k hk (by rw [hel])) (hlt l hl).2
    · rw [update_of_ne hff, h.maps fd info hb]
      constructor
      · rintro ⟨l, hl, hel⟩
        have hlk : l ≠ k := by
          rintro rfl
          exact hff (by rw [hel])
        rcases Nat.lt_succ_iff_lt_or_eq.1 hl with hl | rfl
        · refine ⟨l, hl, ?_⟩
          rw [update_of_ne hlk, hel]
        · refine ⟨k, by omega, ?_⟩
          rw [update_self, hel]
      · rintro ⟨l, hl, hel⟩
        rw [he] at hel
        exact ⟨src l, (hlt l hl).1, hel⟩

end Content

/-- The bucket `b` is stored in groups at `addr`, counted from the static one. -/
structure Holds (mem : GroupPtr → Option Group) (b : Fin 256) (v : Bucket) (m : ℕ → Option FdInfo) (addr : ℕ → GroupPtr)
    (e : ℕ → Entry) : Prop where
  unrolled : Unrolled mem v.data (top v.size) (firstGroupSize v.size) addr (grouped e)
  static : addr 0 = .initial (b.val * 16)
  heap : ∀ j ≤ top v.size, 0 < j → ∃ a, addr j = .malloc a
  content : Content v.size b m e

/-- The blocks and contents of all buckets; no block belongs to two, and none is lost. -/
structure Inv (s : State) (m : ℕ → Option FdInfo) (addr : Fin 256 → ℕ → GroupPtr) (e : Fin 256 → ℕ → Entry) : Prop where
  holds : ∀ b, Holds s.mem b (s.hash b) m (addr b) (e b)
  apart : ∀ b c j k, j ≤ top (s.hash b).size → k ≤ top (s.hash c).size → addr b j = addr c k → b = c
  owned : ∀ a, s.mem (.malloc a) ≠ none → ∃ b, ∃ j ≤ top (s.hash b).size, addr b j = .malloc a
  initial : ∀ i, s.mem (.initial i) ≠ none ↔ i < 256 * 16

section Bucket
variable {s : State} {fd : ℕ} {m : ℕ → Option FdInfo} {addr : ℕ → GroupPtr} {e : ℕ → Entry}

theorem find_spec (h : Holds s.mem (bucket fd) (s.hash (bucket fd)) m addr e) :
    s.find fd = some none ∧ m fd = none ∨
      ∃ j, ∃ i : Fin 16, 16 * j + i < (s.hash (bucket fd)).size ∧ (e (16 * j + i)).fd = fd ∧
        s.find fd = some (some (addr j, i)) := by
  obtain ⟨size, hn⟩ : ∃ size, (s.hash (bucket fd)).size = size := ⟨_, rfl⟩
  have hu := h.unrolled
  have hc := h.content
  rw [hn] at hu hc ⊢
  obtain ⟨g, hg, hnext, he⟩ := hu.data_block
  have hsize := size_eq size
  have hfill := firstGroupSize_le size
  unfold State.find
  simp only [hg, hn]
  cases hf : g.find (fun e => e.fd == fd) (firstGroupSize size) with
  | some i =>
    obtain ⟨hi, hp⟩ := Block.find_some hf
    rw [he i hi] at hp
    refine .inr ⟨top size, i, by omega, by simpa [grouped] using hp, ?_⟩
    rw [hu.front]
  | none =>
    have hle : top size ≤ size := by omega
    simp only [hnext]
    rcases hu.search (fun e => e.fd == fd) le_rfl hle with ⟨hs, hno⟩ | ⟨j, hj, i, hp, hs⟩
    · refine .inl ⟨hs, hc.none_of rfl fun k hk hfd => ?_⟩
      obtain ⟨i, hi⟩ : ∃ i : Fin 16, i.val = k % 16 := ⟨slot k, rfl⟩
      by_cases hj : k / 16 < top size
      · have := hno (k / 16) hj i
        have hk' : grouped e (k / 16) i = e k := congrArg e (by omega)
        simp [hk', hfd] at this
      · have := Block.find_none hf i (by omega)
        have hk' : grouped e (top size) i = e k := congrArg e (by omega)
        rw [he i (by omega), hk'] at this
        simp [hfd] at this
    · refine .inr ⟨j, i, by omega, by simpa [grouped] using hp, hs⟩

theorem get_spec (h : Holds s.mem (bucket fd) (s.hash (bucket fd)) m addr e) : s.get fd = some (m fd) := by
  unfold State.get
  rcases find_spec h with ⟨hf, hm⟩ | ⟨j, i, hl, rfl, hf⟩
  · rw [hf, hm]
  · obtain ⟨g, hg, -, he⟩ := h.unrolled.block j (by unfold top; omega)
    have hi := he i ((live_iff i.isLt).2 hl)
    rw [hf, h.content.maps_self hl]
    simp [State.load, hg, hi, grouped]

end Bucket

section Table
variable {s : State} {m : ℕ → Option FdInfo} {addr : Fin 256 → ℕ → GroupPtr} {e : Fin 256 → ℕ → Entry}

variable {b : Fin 256} {mem : GroupPtr → Option Group} {v : Bucket} {m' : ℕ → Option FdInfo} {e' : ℕ → Entry}

theorem Inv.allocated (h : Inv s m addr e) {j : ℕ} (hj : j ≤ top (s.hash b).size) : s.mem (addr b j) ≠ none := by
  obtain ⟨g, hg, -⟩ := (h.holds b).unrolled.block j hj
  simp [hg]

theorem Inv.replace (h : Inv s m addr e)
    {addr' : ℕ → GroupPtr} (hb : Holds mem b v m' addr' e')
    (hmem : ∀ c ≠ b, ∀ j ≤ top (s.hash c).size, mem (addr c j) = s.mem (addr c j))
    (hm : ∀ fd, bucket fd ≠ b → m' fd = m fd)
    (hnew : ∀ j ≤ top v.size, (∃ k ≤ top (s.hash b).size, addr b k = addr' j) ∨ s.mem (addr' j) = none)
    (hown : ∀ a, mem (.malloc a) ≠ none → (∃ j ≤ top v.size, addr' j = .malloc a) ∨
      s.mem (.malloc a) ≠ none ∧ ∀ j ≤ top (s.hash b).size, addr b j ≠ .malloc a)
    (hini : ∀ i, mem (.initial i) ≠ none ↔ s.mem (.initial i) ≠ none) :
    Inv ⟨mem, update s.hash b v⟩ m' (update addr b addr') (update e b e') := by
  have hapart : ∀ c ≠ b, ∀ j ≤ top v.size, ∀ k ≤ top (s.hash c).size, addr' j ≠ addr c k := by
    intro c hc j hj k hk he
    rcases hnew j hj with ⟨l, hl, hlj⟩ | hn
    · exact hc (h.apart c b k l hk hl (by rw [hlj, he]))
    · rw [he] at hn
      exact h.allocated hk hn
  refine ⟨fun c => ?_, fun c d j k hj hk he => ?_, fun a ha => ?_, fun i => (hini i).trans (h.initial i)⟩
  · by_cases hc : c = b
    · subst hc
      simpa using hb
    · have hc' := h.holds c
      simp only [update_of_ne hc]
      refine ⟨hc'.unrolled.congr (hmem c hc), hc'.static, hc'.heap, hc'.content.congr fun fd hfd => hm fd ?_⟩
      rwa [hfd]
  · by_cases hc : c = b <;> by_cases hd : d = b
    · rw [hc, hd]
    · subst hc
      simp only [update_self, update_of_ne hd] at hj hk he
      exact absurd he (hapart d hd j hj k hk)
    · subst hd
      simp only [update_self, update_of_ne hc] at hj hk he
      exact absurd he.symm (hapart c hc k hk j hj)
    · simp only [update_of_ne hc, update_of_ne hd] at hj hk he
      exact h.apart c d j k hj hk he
  · rcases hown a ha with ⟨j, hj, haj⟩ | ⟨hs, hno⟩
    · refine ⟨b, j, ?_, ?_⟩
      · simpa using hj
      · simpa using haj
    · obtain ⟨c, j, hj, hcj⟩ := h.owned a hs
      have hc : c ≠ b := by
        rintro rfl
        exact hno j hj hcj
      refine ⟨c, j, ?_, ?_⟩
      · simpa [hc] using hj
      · simpa [hc] using hcj

/-! ## Adding -/

theorem holds_push {data : GroupPtr} {size : ℕ} {addr : ℕ → GroupPtr}
    {e : ℕ → Entry} {g : Group} {fd : ℕ} (info : FdInfo)
    (hu : Unrolled mem data (top (size + 1)) (size % 16) addr (grouped e)) (hstatic : addr 0 = .initial (b.val * 16))
    (hheap : ∀ j ≤ top (size + 1), 0 < j → ∃ a, addr j = .malloc a) (hc : Content size b m e) (hb : bucket fd = b)
    (hn : m fd = none) (hg : mem data = some g) :
    Holds (update mem data (some (g.set (slot size) ⟨fd, info⟩))) b ⟨size + 1, data⟩
      (update m fd (some info)) addr (update e size ⟨fd, info⟩) := by
  have hk : 16 * top (size + 1) + (slot size).val = size := by
    simp only [top, slot]
    omega
  refine ⟨?_, hstatic, hheap, hc.push hb hn info⟩
  have hgrow : ∀ k l, Live (top (size + 1)) (firstGroupSize (size + 1)) k l →
      Live (top (size + 1)) (size % 16) k l ∨ k = top (size + 1) ∧ l = (slot size).val := by
    intro k l hkl
    simp only [Live, firstGroupSize, slot] at hkl ⊢
    split at hkl <;> omega
  have hw := hu.write (i := slot size) (b := g) le_rfl (by rw [hu.front, hg]) ⟨fd, info⟩ hgrow
  rwa [grouped_update, hk, hu.front] at hw

theorem Inv.within (h : Inv s m addr e)
    (hb : Holds mem b v m' (addr b) e') (hv : top v.size = top (s.hash b).size)
    (haway : ∀ p, (∀ j ≤ top (s.hash b).size, addr b j ≠ p) → mem p = s.mem p) (hsame : ∀ p, mem p ≠ none ↔ s.mem p ≠ none)
    (hm : ∀ fd, bucket fd ≠ b → m' fd = m fd) :
    Inv ⟨mem, update s.hash b v⟩ m' (update addr b (addr b)) (update e b e') := by
  refine h.replace hb (fun c hc k hk => haway _ fun j hj he => hc (h.apart c b k j hk hj he.symm)) hm
    (fun k hk => .inl ⟨k, hv ▸ hk, rfl⟩) (fun a ha => ?_) fun i => hsame _
  by_cases hown : ∃ k ≤ top v.size, addr b k = .malloc a
  · exact .inl hown
  · exact .inr ⟨(hsame _).1 ha, fun k hk hka => hown ⟨k, hv ▸ hk, hka⟩⟩

theorem Inv.store (h : Inv s m addr e) {j : ℕ} (hj : j ≤ top (s.hash b).size) {g : Group}
    (hv : top v.size = top (s.hash b).size)
    (hb : Holds (update s.mem (addr b j) (some g)) b v m' (addr b) e') (hm : ∀ fd, bucket fd ≠ b → m' fd = m fd) :
    Inv ⟨update s.mem (addr b j) (some g), update s.hash b v⟩ m' (update addr b (addr b))
      (update e b e') := by
  refine h.within hb hv (fun p hp => update_of_ne (hp j hj).symm ..) (fun p => ?_) hm
  by_cases hp : p = addr b j
  · subst hp
    simpa using h.allocated hj
  · rw [update_of_ne hp]

section Add
variable {fd a : ℕ} {info : FdInfo} {garbage : Fin 16 → Entry}

theorem update_away (v : Option FdInfo) {f : ℕ} (hf : bucket f ≠ bucket fd) : update m fd v f = m f :=
  update_of_ne (fun e => hf (by rw [e])) ..

theorem add_found (h : Inv s m addr e) {j : ℕ} {i : Fin 16} (hl : 16 * j + i < (s.hash (bucket fd)).size)
    (hfd : (e (bucket fd) (16 * j + i)).fd = fd) (hf : s.find fd = some (some (addr (bucket fd) j, i))) :
    ∃ t addr' e', s.add fd info a garbage = some t ∧ Inv t (update m fd (some info)) addr' e' := by
  have hb := h.holds (bucket fd)
  have hj : j ≤ top (s.hash (bucket fd)).size := by
    unfold top
    omega
  obtain ⟨g, hg, -, he⟩ := hb.unrolled.block j hj
  have hi := he i ((live_iff i.isLt).2 hl)
  have hw := hb.unrolled.write (i := i) hj hg ⟨fd, info⟩ fun k l hk => .inl hk
  rw [grouped_update] at hw
  have hc := hb.content.put hl info
  rw [hfd] at hc
  refine ⟨_, _, _, ?_, h.store hj rfl ⟨hw, hb.static, hb.heap, hc⟩ fun f => update_away _⟩
  unfold State.add
  rw [hf]
  simp [State.load, State.store, hg, hi, grouped, hfd]

theorem add_room (h : Inv s m addr e) (hf : s.find fd = some none) (hnone : m fd = none)
    (hroom : ¬ ((s.hash (bucket fd)).size ≠ 0 ∧ (s.hash (bucket fd)).size % 16 = 0)) :
    ∃ t addr' e', s.add fd info a garbage = some t ∧ Inv t (update m fd (some info)) addr' e' := by
  have hb := h.holds (bucket fd)
  have htop : top ((s.hash (bucket fd)).size + 1) = top (s.hash (bucket fd)).size := by
    unfold top
    omega
  have hfill : firstGroupSize (s.hash (bucket fd)).size = (s.hash (bucket fd)).size % 16 := if_neg hroom
  have hu := hb.unrolled
  obtain ⟨g, hg, -⟩ := hu.data_block
  rw [hfill, ← htop] at hu
  have hH := holds_push info hu hb.static (fun j hj => hb.heap j (htop ▸ hj)) hb.content rfl hnone hg
  rw [← hb.unrolled.front] at hH hg
  refine ⟨_, _, _, ?_, h.store le_rfl htop hH fun f => update_away _⟩
  unfold State.add
  rw [hf]
  simp [hroom, State.setBucket, State.store, hg, ← hb.unrolled.front]

theorem add_group (h : Inv s m addr e) (ha : s.mem (.malloc a) = none) (hf : s.find fd = some none) (hnone : m fd = none)
    (hfull : (s.hash (bucket fd)).size ≠ 0 ∧ (s.hash (bucket fd)).size % 16 = 0) :
    ∃ t addr' e', s.add fd info a garbage = some t ∧ Inv t (update m fd (some info)) addr' e' := by
  have hb := h.holds (bucket fd)
  have hfree : ∀ c, ∀ j ≤ top (s.hash c).size, addr c j ≠ .malloc a := fun c j hj e => h.allocated hj (by rw [e, ha])
  have htop : top ((s.hash (bucket fd)).size + 1) = top (s.hash (bucket fd)).size + 1 := by
    unfold top
    omega
  have hu := hb.unrolled
  rw [show firstGroupSize (s.hash (bucket fd)).size = 16 from if_pos hfull] at hu
  have hg := hu.grow (hfree _) garbage
  rw [← htop, ← hfull.2] at hg
  have hheap : ∀ j ≤ top ((s.hash (bucket fd)).size + 1), 0 < j → ∃ a', update (addr (bucket fd))
      (top ((s.hash (bucket fd)).size + 1)) (.malloc a) j = .malloc a' := by
    intro j hj h0
    rcases hj.lt_or_eq with hj | rfl
    · rw [update_of_ne hj.ne]
      exact hb.heap j (by omega) h0
    · exact ⟨a, update_self ..⟩
  have hH := holds_push info hg (by rw [htop, update_of_ne (by omega), hb.static]) hheap hb.content rfl
    hnone (update_self ..)
  refine ⟨_, _, _, ?_, h.replace hH (fun c _ j hj => ?_) (fun f => update_away _) (fun j hj => ?_) (fun x hx => ?_) fun i => ?_⟩
  · unfold State.add
    rw [hf]
    simp [hfull, State.newGroup, State.setBucket, State.store]
  · rw [update_of_ne (hfree c j hj), update_of_ne (hfree c j hj)]
  · rcases hj.lt_or_eq with hj | rfl
    · refine .inl ⟨j, ?_, (update_of_ne hj.ne ..).symm⟩
      exact Nat.lt_succ_iff.1 (hj.trans_eq htop)
    · exact .inr (by rw [update_self, ha])
  · by_cases hxa : x = a
    · subst hxa
      exact .inl ⟨_, le_rfl, update_self ..⟩
    · rw [update_of_ne (by simpa using hxa), update_of_ne (by simpa using hxa)] at hx
      by_cases hown : ∃ j ≤ top (s.hash (bucket fd)).size, addr (bucket fd) j = .malloc x
      · obtain ⟨j, hj, hjx⟩ := hown
        refine .inl ⟨j, ?_, ?_⟩
        · exact hj.trans (by rw [htop]; omega)
        · rw [update_of_ne (by omega), hjx]
      · exact .inr ⟨hx, fun j hj hjx => hown ⟨j, hj, hjx⟩⟩
  · simp

theorem add_spec (info : FdInfo) (garbage : Fin 16 → Entry) (h : Inv s m addr e) (ha : s.mem (.malloc a) = none) :
    ∃ t addr' e', s.add fd info a garbage = some t ∧ Inv t (update m fd (some info)) addr' e' := by
  rcases find_spec (h.holds (bucket fd)) with ⟨hf, hnone⟩ | ⟨j, i, hl, hfd, hf⟩
  · by_cases hfull : (s.hash (bucket fd)).size ≠ 0 ∧ (s.hash (bucket fd)).size % 16 = 0
    · exact add_group h ha hf hnone hfull
    · exact add_room h hf hnone hfull
  · exact add_found h hl hfd hf

end Add

/-! ## Removing -/

section Remove
variable {fd : ℕ}

variable {n j : ℕ} {i : Fin 16}

theorem move_spec {b : Fin 256} {v : Bucket} {addr : ℕ → GroupPtr} {e : ℕ → Entry}
    (hu : Unrolled s.mem v.data (top (n + 1)) (firstGroupSize (n + 1)) addr (grouped e)) (hl : 16 * j + i < n + 1) :
    ∃ mem, (if (addr j, i) = (v.data, slot n) then some (s.setBucket b v)
        else ((s.setBucket b v).load (v.data, slot n)).bind fun l => (s.setBucket b v).store (addr j, i) l) =
          some ⟨mem, update s.hash b v⟩ ∧
      Unrolled mem v.data (top (n + 1)) (firstGroupSize (n + 1)) addr (grouped (update e (16 * j + i) (e n))) ∧
      (∀ p, p ≠ addr j → mem p = s.mem p) ∧ ∀ p, mem p ≠ none ↔ s.mem p ≠ none := by
  have hj : j ≤ top (n + 1) := by
    unfold top
    omega
  have hn : 16 * top (n + 1) + (slot n).val = n := by
    simp only [top, slot]
    omega
  by_cases hlast : (addr j, i) = (v.data, slot n)
  · obtain ⟨hd, rfl⟩ := Prod.mk.inj hlast
    rw [← hu.front] at hd
    have hjt := hu.inj j hj _ le_rfl hd
    have hk : 16 * j + (slot n).val = n := by rw [hjt, hn]
    refine ⟨s.mem, if_pos hlast, ?_, fun _ _ => rfl, fun _ => Iff.rfl⟩
    rwa [hk, update_eq_self]
  · obtain ⟨g, hg, -, -⟩ := hu.block j hj
    obtain ⟨t, ht, -, he⟩ := hu.data_block
    have hslot : t.entries (slot n) = e n := by
      have hs := size_eq (n + 1)
      rw [he _ (by omega), grouped, hn]
    have hw := hu.write (i := i) hj hg (e n) fun k l hk => .inl hk
    rw [grouped_update] at hw
    refine ⟨_, ?_, hw, fun p hp => update_of_ne hp .., fun p => ?_⟩
    · rw [if_neg hlast]
      simp [State.load, State.store, State.setBucket, ht, hg, hslot]
    · by_cases hp : p = addr j
      · subst hp
        simp [hg]
      · rw [update_of_ne hp]

theorem remove_moved (h : Inv s m addr e) (hn : (s.hash (bucket fd)).size = n + 1)
    (hl : 16 * j + i < n + 1) (hfd : (e (bucket fd) (16 * j + i)).fd = fd)
    (hf : s.find fd = some (some (addr (bucket fd) j, i))) :
    ∃ mem e', s.remove fd = (if n ≠ 0 ∧ n % 16 = 0
        then State.freeGroup ⟨mem, update s.hash (bucket fd) ⟨n, (s.hash (bucket fd)).data⟩⟩ (bucket fd)
        else some ⟨mem, update s.hash (bucket fd) ⟨n, (s.hash (bucket fd)).data⟩⟩).map (fun t => (m fd, t)) ∧
      Unrolled mem (s.hash (bucket fd)).data (top (n + 1)) (firstGroupSize (n + 1)) (addr (bucket fd)) (grouped e') ∧
      Content n (bucket fd) (update m fd none) e' ∧
      (∀ p, p ≠ addr (bucket fd) j → mem p = s.mem p) ∧ ∀ p, mem p ≠ none ↔ s.mem p ≠ none := by
  have hu := (h.holds (bucket fd)).unrolled
  have hc := (h.holds (bucket fd)).content
  rw [hn] at hu hc
  have hj : j ≤ top (n + 1) := by
    unfold top
    omega
  obtain ⟨g, hg, -, he⟩ := hu.block j hj
  have hi : g.entries i = e (bucket fd) (16 * j + i) := he i ((live_iff i.isLt).2 hl)
  have hload : s.load (addr (bucket fd) j, i) = some (e (bucket fd) (16 * j + i)) := by
    simp [State.load, hg, hi]
  obtain ⟨mem, hmove, hu', haway, hsame⟩ := move_spec (b := bucket fd) (v := ⟨n, (s.hash (bucket fd)).data⟩) hu hl
  have hC := hc.swapRemove hl
  have hm := hc.maps_self hl
  rw [hfd] at hC hm
  refine ⟨mem, _, ?_, hu', hC, haway, hsame⟩
  unfold State.remove
  rw [hf]
  simp only [hload, bind_some, hn, Nat.add_sub_cancel, hmove, hm]

theorem remove_keep (h : Inv s m addr e) (hn : (s.hash (bucket fd)).size = n + 1)
    (hl : 16 * j + i < n + 1) (hfd : (e (bucket fd) (16 * j + i)).fd = fd)
    (hf : s.find fd = some (some (addr (bucket fd) j, i))) (hkeep : ¬ (n ≠ 0 ∧ n % 16 = 0)) :
    ∃ t addr' e', s.remove fd = some (m fd, t) ∧ Inv t (update m fd none) addr' e' := by
  obtain ⟨mem, e', hrem, hu, hC, haway, hsame⟩ := remove_moved h hn hl hfd hf
  have hb := h.holds (bucket fd)
  have htop : top n = top (n + 1) := by
    unfold top
    omega
  have hfill : firstGroupSize n ≤ firstGroupSize (n + 1) := by
    unfold firstGroupSize
    split_ifs <;> omega
  have hH : Holds mem (bucket fd) ⟨n, (s.hash (bucket fd)).data⟩ (update m fd none) (addr (bucket fd)) e' := by
    refine ⟨?_, hb.static, fun k hk => hb.heap k (by rwa [hn, ← htop]), hC⟩
    rw [htop]
    exact hu.shrink hfill
  refine ⟨_, _, _, ?_, h.within hH (by rw [hn]; exact htop) (fun p hp => ?_) hsame fun f => update_away _⟩
  · rw [hrem, if_neg hkeep]
    rfl
  · refine haway p fun e => hp j ?_ e.symm
    unfold top
    omega

theorem remove_free (h : Inv s m addr e) (hn : (s.hash (bucket fd)).size = n + 1)
    (hl : 16 * j + i < n + 1) (hfd : (e (bucket fd) (16 * j + i)).fd = fd)
    (hf : s.find fd = some (some (addr (bucket fd) j, i))) (hfree : n ≠ 0 ∧ n % 16 = 0) :
    ∃ t addr' e', s.remove fd = some (m fd, t) ∧ Inv t (update m fd none) addr' e' := by
  obtain ⟨mem, e', hrem, hu, hC, haway, hsame⟩ := remove_moved h hn hl hfd hf
  have hb := h.holds (bucket fd)
  have hfront := hb.unrolled.front
  have htop : top (n + 1) = top n + 1 := by
    unfold top
    omega
  have hj : j ≤ top (s.hash (bucket fd)).size := by
    unfold top
    omega
  obtain ⟨⟨ents, nxt⟩, ht, hnext, -⟩ := hu.data_block
  rw [hn, htop] at hfront
  rw [htop] at hu hnext
  cases hnext
  obtain ⟨a, ha⟩ := hb.heap (top n + 1) (by rw [hn, htop]) (Nat.succ_pos _)
  have hH : Holds (update mem (s.hash (bucket fd)).data none) (bucket fd) ⟨n, addr (bucket fd) (top n)⟩
      (update m fd none) (addr (bucket fd)) e' := by
    refine ⟨?_, hb.static, fun k hk => hb.heap k ?_, hC⟩
    · rw [show firstGroupSize n = 16 from if_pos hfree]
      exact hu.drop
    · rw [hn, htop]
      exact Nat.le_succ_of_le hk
  refine ⟨_, _, _, ?_, h.replace hH (fun c hc k hk => ?_) (fun f => update_away _) (fun k hk => .inl ⟨k, ?_, rfl⟩)
    (fun x hx => ?_) fun x => ?_⟩
  · rw [hrem, if_pos hfree]
    simp [State.freeGroup, State.setBucket, ht]
  · have hne : addr c k ≠ (s.hash (bucket fd)).data := by
      intro he
      rw [← hfront] at he
      exact hc (h.apart c _ k _ hk (by rw [hn, htop]) he)
    rw [update_of_ne hne]
    exact haway _ fun he => hc (h.apart c _ k j hk hj he)
  · rw [hn, htop]
    exact Nat.le_succ_of_le hk
  · by_cases hxd : .malloc x = (s.hash (bucket fd)).data
    · rw [hxd, update_self] at hx
      exact absurd rfl hx
    · rw [update_of_ne hxd] at hx
      by_cases hown : ∃ k ≤ top (s.hash (bucket fd)).size, addr (bucket fd) k = .malloc x
      · obtain ⟨k, hk, hkx⟩ := hown
        rw [hn, htop] at hk
        rcases hk.lt_or_eq with hk | rfl
        · exact .inl ⟨k, Nat.lt_succ_iff.1 hk, hkx⟩
        · exact absurd (hkx.symm.trans hfront) hxd
      · exact .inr ⟨(hsame _).1 hx, fun k hk hkx => hown ⟨k, hk, hkx⟩⟩
  · have hne : GroupPtr.initial x ≠ (s.hash (bucket fd)).data := by
      rw [← hfront, ha]
      simp
    rw [update_of_ne hne]
    exact hsame _

theorem remove_spec (h : Inv s m addr e) (fd : ℕ) :
    ∃ t addr' e', s.remove fd = some (m fd, t) ∧ Inv t (update m fd none) addr' e' := by
  rcases find_spec (h.holds (bucket fd)) with ⟨hf, hnone⟩ | ⟨j, i, hl, hfd, hf⟩
  · refine ⟨s, addr, e, ?_, ?_⟩
    · unfold State.remove
      rw [hf, hnone]
    · rwa [← hnone, update_eq_self]
  · obtain ⟨n, hn⟩ : ∃ n, (s.hash (bucket fd)).size = n + 1 := Nat.exists_eq_add_one_of_ne_zero (by omega)
    rw [hn] at hl
    by_cases hfree : n ≠ 0 ∧ n % 16 = 0
    · exact remove_free h hn hl hfd hf hfree
    · exact remove_keep h hn hl hfd hf hfree

end Remove

/-! ## Runs -/

theorem groups_eq (h : Inv s m addr e) (b : Fin 256) :
    s.groups b = ((List.range (top (s.hash b).size + 1)).map (addr b)).reverse := by
  have hu := (h.holds b).unrolled
  have hb := hu.blocks (j := top (s.hash b).size + 1) (n := (s.hash b).size + 1) le_rfl (by unfold top; omega)
  rwa [below, hu.front] at hb

theorem mem_groups (h : Inv s m addr e) {b : Fin 256} {p : GroupPtr} :
    p ∈ s.groups b ↔ ∃ j ≤ top (s.hash b).size, addr b j = p := by
  simp [groups_eq h]

theorem groups_nodup (h : Inv s m addr e) (b : Fin 256) : (s.groups b).Nodup := by
  rw [groups_eq h, nodup_reverse]
  refine List.Nodup.map_on (fun j hj k hk he => ?_) nodup_range
  rw [mem_range, Nat.lt_succ_iff] at hj hk
  exact (h.holds b).unrolled.inj j hj k hk he

theorem fds_eq (h : Inv s m addr e) (b : Fin 256) :
    s.fds b = (List.range (top (s.hash b).size + 1)).reverse.flatMap fun j =>
      ((List.finRange 16).filter fun i => 16 * j + i.val < (s.hash b).size).map fun i : Fin 16 => (e b (16 * j + i)).fd := by
  have hu := (h.holds b).unrolled
  unfold State.fds
  rw [groups_eq h, ← map_reverse, flatMap_map]
  refine flatMap_congr fun j hj => ?_
  rw [mem_reverse, mem_range, Nat.lt_succ_iff] at hj
  obtain ⟨g, hg, -, he⟩ := hu.block j hj
  have hfill : ∀ i : Fin 16, i.val < (if addr b j = (s.hash b).data then firstGroupSize (s.hash b).size else 16) ↔
      16 * j + i.val < (s.hash b).size := by
    intro i
    rw [← live_iff i.isLt, Live]
    by_cases hjt : j = top (s.hash b).size
    · rw [if_pos (by rw [hjt, hu.front])]
      omega
    · rw [if_neg fun e => hjt (hu.inj j hj _ le_rfl (e.trans hu.front.symm))]
      omega
  simp only [hg, Group.fds, hfill]
  refine map_congr_left fun i hi => ?_
  rw [mem_filter, decide_eq_true_iff, ← live_iff i.isLt] at hi
  rw [he i hi.2, grouped]

theorem fds_nodup (h : Inv s m addr e) (b : Fin 256) : (s.fds b).Nodup := by
  have hc := (h.holds b).content
  rw [fds_eq h, nodup_flatMap]
  refine ⟨fun j _ => ?_, ?_⟩
  · refine List.Nodup.map_on (fun i hi k hk he => ?_) ((nodup_finRange 16).filter _)
    rw [mem_filter, decide_eq_true_iff] at hi hk
    have := hc.distinct _ hi.2 _ hk.2 he
    exact Fin.ext (by omega)
  · refine (nodup_reverse.2 nodup_range).imp fun {j k} hjk f hf hf' => hjk ?_
    simp only [List.mem_map, mem_filter, decide_eq_true_iff] at hf hf'
    obtain ⟨i, ⟨-, hi⟩, rfl⟩ := hf
    obtain ⟨l, ⟨-, hl⟩, he⟩ := hf'
    have := hc.distinct _ hl _ hi he
    omega

theorem mem_fds (h : Inv s m addr e) {b : Fin 256} {fd : ℕ} : fd ∈ s.fds b ↔ bucket fd = b ∧ m fd ≠ none := by
  have hc := (h.holds b).content
  have hmem : fd ∈ s.fds b ↔ ∃ k < (s.hash b).size, (e b k).fd = fd := by
    rw [fds_eq h]
    simp only [mem_flatMap, mem_reverse, mem_range, List.mem_map, mem_filter, mem_finRange,
      true_and, decide_eq_true_iff]
    constructor
    · rintro ⟨j, -, i, hi, hf⟩
      exact ⟨_, hi, hf⟩
    · rintro ⟨k, hk, hf⟩
      have hk' : 16 * (k / 16) + (slot k).val = k := Nat.div_add_mod k 16
      refine ⟨k / 16, ?_, slot k, by rwa [hk'], by rwa [hk']⟩
      unfold top
      omega
  rw [hmem]
  constructor
  · rintro ⟨k, hk, rfl⟩
    refine ⟨hc.home k hk, ?_⟩
    rw [hc.maps_self hk]
    exact some_ne_none _
  · rintro ⟨hb, hm⟩
    by_contra hno
    exact hm (hc.none_of hb fun k hk hf => hno ⟨k, hk, hf⟩)

theorem sum_filled (size n : ℕ) (hn : n ≤ top size) :
    ((List.range n).map fun j => ((List.finRange 16).filter fun i => 16 * j + i.val < size).length).sum = 16 * n := by
  induction n with
  | zero => rfl
  | succ n ih =>
    have hall : ∀ i : Fin 16, 16 * n + i.val < size := fun i => (live_iff i.isLt).1 (.inl hn)
    rw [range_succ]
    simp [hall]
    omega

theorem fds_length (h : Inv s m addr e) (b : Fin 256) : (s.fds b).length = (s.hash b).size := by
  obtain ⟨size, hn⟩ : ∃ size, (s.hash b).size = size := ⟨_, rfl⟩
  have hfront : ((List.finRange 16).filter fun i => 16 * top size + i.val < size).length = firstGroupSize size := by
    have hlive : ∀ i : Fin 16, 16 * top size + i.val < size ↔ i.val < firstGroupSize size := by
      intro i
      rw [← live_iff i.isLt, Live]
      omega
    have hle := firstGroupSize_le size
    simp only [hlive]
    generalize firstGroupSize size = n at hle
    interval_cases n <;> rfl
  rw [fds_eq h, length_flatMap, hn, map_reverse, sum_reverse, range_succ, map_append, sum_append]
  simp only [length_map, map_cons, map_nil, sum_singleton]
  rw [sum_filled size _ le_rfl, hfront]
  exact (size_eq size).symm

theorem initial_inv : Inv init (fun _ => none) (fun b _ => .initial (b.val * 16)) fun _ _ => ⟨0, ⟨0, false, none, 0, 0⟩⟩ := by
  have htop : ∀ b, top (init.hash b).size = 0 := fun b => by simp [init, top]
  refine ⟨fun b => ⟨⟨rfl, fun j hj => ?_, fun j hj k hk _ => ?_⟩, rfl, fun j hj h0 => ?_, ?_⟩, fun b c _ _ _ _ he => ?_,
    fun a ha => absurd rfl ha, fun i => ?_⟩
  · obtain rfl : j = 0 := by rwa [htop, Nat.le_zero] at hj
    refine ⟨zeroGroup, ?_, rfl, fun i hi => ?_⟩
    · simp only [init]
      rw [if_pos (by omega)]
    · exact absurd ((live_iff i.isLt).1 hi) (Nat.not_lt_zero _)
  · rw [htop, Nat.le_zero] at hj hk
    rw [hj, hk]
  · rw [htop] at hj
    exact absurd h0 (Nat.not_lt.2 hj)
  · refine ⟨fun k hk => absurd hk (Nat.not_lt_zero k), fun k hk => absurd hk (Nat.not_lt_zero k), fun fd info _ => ?_⟩
    simp [init]
  · have := GroupPtr.initial.inj he
    exact Fin.ext (by omega)
  · simp [init]

/-- **The table** keeps its shape, and its content follows the calls. -/
theorem inv_inductive : system.TraceInductive fun ls s => ∃ addr e, Inv s (lastAdded ls) addr e := by
  refine ⟨fun s hs => ?_, fun ls s l t ⟨addr, e, h⟩ ⟨he, hst⟩ => ?_⟩
  · subst hs
    exact ⟨_, _, initial_inv⟩
  · rw [lastAdded_snoc]
    cases l with
    | add fd info a garbage =>
      obtain ⟨u, addr', e', hu, hi⟩ := add_spec info garbage h he
      cases hu.symm.trans hst
      exact ⟨addr', e', hi⟩
    | get fd =>
      simp only [step, get_spec (h.holds (bucket fd)), map_some, some_inj] at hst
      subst hst
      exact ⟨addr, e, h⟩
    | remove fd =>
      obtain ⟨u, addr', e', hu, hi⟩ := remove_spec h fd
      simp only [step, hu, map_some, some_inj] at hst
      subst hst
      exact ⟨addr', e', hi⟩

end Table

/-- **The table is a finite map**: after any calls, with any descriptors and whatever the heap gives,
`uv__fd_hash_get` and `uv__fd_hash_remove` return what was last added for the descriptor and not
removed since, and no operation fails. A bucket lists its descriptors once each, in
`max 1 ⌈size / 16⌉` groups of which the last is the static one; the static groups and the groups of the
buckets are the blocks in use. -/
theorem refines_map {ls : List Label} {s : State} (h : system.History ls s) :
    (∀ fd, s.get fd = some (lastAdded ls fd)) ∧ (∀ fd, ∃ t, s.remove fd = some (lastAdded ls fd, t)) ∧
    (∀ fd info a garbage, s.mem (.malloc a) = none → ∃ t, s.add fd info a garbage = some t) ∧
    (∀ b, (s.fds b).Nodup ∧ (∀ fd, fd ∈ s.fds b ↔ bucket fd = b ∧ lastAdded ls fd ≠ none) ∧
      (s.fds b).length = (s.hash b).size ∧ (s.groups b).Nodup ∧
      (s.groups b).length = max 1 (((s.hash b).size + 15) / 16) ∧ (s.groups b).getLast? = some (.initial (b.val * 16))) ∧
    (∀ i, s.mem (.initial i) ≠ none ↔ i < 256 * 16) ∧
    ∀ a, s.mem (.malloc a) ≠ none ↔ ∃ b, .malloc a ∈ s.groups b := by
  obtain ⟨addr, e, hi⟩ := inv_inductive.run h
  refine ⟨fun fd => get_spec (hi.holds _), fun fd => ?_, fun fd info a garbage ha => ?_, fun b => ?_, hi.initial, fun a => ?_⟩
  · obtain ⟨t, -, -, ht, -⟩ := remove_spec hi fd
    exact ⟨t, ht⟩
  · obtain ⟨t, -, -, ht, -⟩ := add_spec info garbage hi ha
    exact ⟨t, ht⟩
  · have hlen : (s.groups b).length = top (s.hash b).size + 1 := by simp [groups_eq hi]
    refine ⟨fds_nodup hi b, fun fd => mem_fds hi, fds_length hi b, groups_nodup hi b, ?_, ?_⟩
    · rw [hlen, top]
      omega
    · simp [groups_eq hi, range_succ_eq_map, (hi.holds b).static]
  · refine ⟨fun ha => ?_, fun ⟨b, hb⟩ => ?_⟩
    · obtain ⟨b, j, hj, hja⟩ := hi.owned a ha
      exact ⟨b, (mem_groups hi).2 ⟨j, hj, hja⟩⟩
    · obtain ⟨j, hj, hja⟩ := (mem_groups hi).1 hb
      rw [← hja]
      exact hi.allocated hj

/-- Two descriptors of one bucket, of which the first is removed again. -/
theorem refines_map_two : ∃ s, system.History [.add 1 ⟨2, false, some 7, 10, 0⟩ 0 zeroGroup.entries,
    .add 257 ⟨3, false, none, 0, 0⟩ 0 zeroGroup.entries, .remove 1] s ∧
    s.get 257 = some (some ⟨3, false, none, 0, 0⟩) ∧ s.get 1 = some none ∧ 257 ∈ s.fds 1 ∧ 1 ∉ s.fds 1 := by
  have h1 : system.History [.add 1 ⟨2, false, some 7, 10, 0⟩ 0 zeroGroup.entries] _ :=
    LTS.History.snoc (.nil rfl) ⟨by rfl, rfl⟩
  have h2 := h1.snoc (l := .add 257 ⟨3, false, none, 0, 0⟩ 0 zeroGroup.entries) ⟨by rfl, rfl⟩
  have h3 := h2.snoc (l := .remove 1) ⟨by trivial, rfl⟩
  obtain ⟨hget, -, -, hfds, -⟩ := refines_map h3
  refine ⟨_, h3, hget 257, hget 1, ((hfds 1).2.1 257).2 ⟨rfl, ?_⟩, fun h => (((hfds 1).2.1 1).1 h).2 rfl⟩
  exact some_ne_none _

end Libuv.L5.FdHash
