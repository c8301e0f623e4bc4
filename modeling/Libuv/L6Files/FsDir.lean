import Libuv.Core.LTS
import Libuv.L6Files.FsReq

/-!
# The requests on a directory (`unix/fs.c`)

`uv_fs_readdir` and `uv_fs_closedir` leave the `uv_dir_t` in `req->ptr`. A closedir that runs closes the stream, releases the
`uv_dir_t` and sets `req->ptr` to `NULL`. One that is cancelled before it runs leaves all of them, and `uv_fs_req_cleanup`
releases what `req->ptr` refers to unless the request is an opendir; a readdir has the pointer taken out first.

The caller sends no closedir while another request waits to run, and nothing after a closedir until that has been cancelled.
Requests are numbered, and run, are cancelled, finish and are cleaned up in any order; a readdir may be interrupted and begin
again, find any number of entries, and fail. A released block is not used for another one.

* `Inv`, `Count`: the stream is closed by the closedir that ran, and the `uv_dir_t` is released by that one and by each cleanup
  of a cancelled one.
* `intact_iff`: so the directory is intact in exactly the runs without such a cleanup.
-/
namespace Libuv.L6.FsDir

open FsReq Option Function

def UV_ECANCELED : ℤ := -125
def EINTR : ℤ := 4

/-- `isOpen` is whether `dir->dir` is set, `names` how many names have been copied. -/
structure Dir where
  mem : Mem
  isOpen : Bool
  names : ℕ

/-- One reading: `found` names are copied before the end of the directory, or before an error.
mirrors unix/fs.c:594-636 -/
def fsReaddir (d : Dir) (found : ℕ) (fails : Bool) : Dir :=
  let m := (d.mem.read .dir).read .stream
  { d with
    mem :=
      { (if fails then (List.range found).foldl (fun m i => m.free (.name (d.names + i))) m else m) with
        dirents := m.dirents.map fun old i => if i < found then (if fails then none else some (.name (d.names + i))) else old i }
    names := d.names + found }

/-- mirrors unix/fs.c:638-651 -/
def fsClosedir (x : Req × Dir) : Req × Dir :=
  let m := x.2.mem.read .dir
  ({ x.1 with ptr := none },
    { x.2 with mem := (if x.2.isOpen then m.free .stream else m).freePtr x.1.ptr, isOpen := false })

/-- `interrupted` are the readings that ended with `EINTR`.
mirrors unix/fs.c:1695-1765 -/
def fsWork (x : Req × Dir) (interrupted : List ℕ) (found : ℕ) (err : Option ℤ) : Req × Dir :=
  if x.1.fsType = .closedir then ({ (fsClosedir x).1 with result := 0 }, (fsClosedir x).2)
  else
    ({ x.1 with result := err.elim (found : ℤ) fun e => -e },
      fsReaddir (interrupted.foldl (fun d k => fsReaddir d k true) x.2) found err.isSome)

/-- None is the assertion.
mirrors unix/fs.c:1768-1780 -/
def fsDone (cancelled : Bool) (req : Req) : Option Req :=
  if cancelled then (if req.result = 0 then some { req with result := UV_ECANCELED } else none) else some req

inductive Phase
  | queued
  | worked
  | called
  | clean
deriving DecidableEq

structure Job where
  req : Req
  phase : Phase
  cancelled : Bool

/-- `closed` are the closedirs that have run. -/
structure State where
  dir : Dir
  jobs : ℕ → Option Job
  closed : List ℕ

def State.set (s : State) (r : ℕ) (j : Job) : State := { s with jobs := Function.update s.jobs r (some j) }

def State.Queued (s : State) (t : FsType) : Prop := ∃ r j, s.jobs r = some j ∧ j.phase = .queued ∧ j.req.fsType = t

/-- mirrors unix/fs.c:2044-2068 -/
def submit (t : FsType) : Job := ⟨⟨t, true, none, 0, some .dir, none, 0⟩, .queued, false⟩

inductive Label
  | readdir (r : ℕ)
  | closedir (r : ℕ)
  | work (r : ℕ) (interrupted : List ℕ) (found : ℕ) (err : Option ℤ)
  | cancel (r : ℕ)
  | done (r : ℕ)
  | cleanup (r : ℕ)

inductive Step : State → Label → State → Prop
  | readdir {s : State} {r : ℕ} (hr : s.jobs r = none) (hclosed : s.closed = []) (hqueued : ¬s.Queued .closedir)
      (hdir : s.dir.isOpen = true) (hdirents : s.dir.mem.dirents ≠ none) : Step s (.readdir r) (s.set r (submit .readdir))
  | closedir {s : State} {r : ℕ} (hr : s.jobs r = none) (hclosed : s.closed = []) (hqueued : ∀ t, ¬s.Queued t) :
      Step s (.closedir r) (s.set r (submit .closedir))
  | work {s : State} {r : ℕ} {j : Job} {interrupted : List ℕ} {found : ℕ} {err : Option ℤ} (hj : s.jobs r = some j)
      (hphase : j.phase = .queued) (herr : err ≠ some EINTR) :
      Step s (.work r interrupted found err)
        { s.set r { j with req := (fsWork (j.req, s.dir) interrupted found err).1, phase := .worked } with
          dir := (fsWork (j.req, s.dir) interrupted found err).2
          closed := if j.req.fsType = .closedir then r :: s.closed else s.closed }
  | cancel {s : State} {r : ℕ} {j : Job} (hj : s.jobs r = some j) (hphase : j.phase = .queued) :
      Step s (.cancel r) (s.set r { j with phase := .worked, cancelled := true })
  | done {s : State} {r : ℕ} {j : Job} {req : Req} (hj : s.jobs r = some j) (hphase : j.phase = .worked)
      (hdone : fsDone j.cancelled j.req = some req) : Step s (.done r) (s.set r { j with req := req, phase := .called })
  | cleanup {s : State} {r : ℕ} {j : Job} (hj : s.jobs r = some j) (hphase : j.phase = .called) :
      Step s (.cleanup r)
        { s.set r { j with req := (reqCleanup (j.req, s.dir.mem)).1, phase := .clean } with
          dir := { s.dir with mem := (reqCleanup (j.req, s.dir.mem)).2 } }

def opened (dirents : Bool) : State :=
  ⟨⟨⟨fun _ => 0, false, if dirents then some fun _ => none else none⟩, true, 0⟩, fun _ => none, []⟩

def dirReqs : LTS State Label where
  init s := ∃ dirents, s = opened dirents
  step := Step

/-- What is released was released once, by a closedir that ran; while none has run, the next one finds both. -/
structure Intact (s : State) : Prop where
  dir : s.dir.mem.frees .dir = s.closed.length
  stream : s.dir.mem.frees .stream = s.closed.length
  once : s.closed.length ≤ 1

/-! ## The functions -/

variable {b : FsReq.Block} {x : Req × Mem} {s : State} {r : ℕ} {j : Job} {dir : Dir} {closed : List ℕ}
  {P : Job → Prop} {ls : List Label}

theorem fsReaddir_frees (d : Dir) (found : ℕ) (fails : Bool) (hb : ∀ i, b ≠ .name i) :
    (fsReaddir d found fails).mem.frees b = d.mem.frees b := by
  have hfold (l : List ℕ) (m : Mem) : (l.foldl (fun m i => m.free (.name (d.names + i))) m).frees b = m.frees b := by
    induction l generalizing m with
    | nil => rfl
    | cons i l ih => exact (ih _).trans (free_of_ne m (hb _))
  cases fails
  · rfl
  · exact hfold _ _

def Names (m : Mem) : Prop := ∀ names, m.dirents = some names → ∀ i b, names i = some b → ∃ k, b = .name k

theorem fsReaddir_names {d : Dir} (h : Names d.mem) (found : ℕ) (fails : Bool) : Names (fsReaddir d found fails).mem := by
  intro names hnames i b hb
  obtain ⟨old, hold, rfl⟩ := map_eq_some_iff.1 hnames
  dsimp only at hb
  by_cases hi : i < found
  · rw [if_pos hi] at hb
    cases fails
    · exact ⟨_, (some.inj hb).symm⟩
    · cases hb
  · rw [if_neg hi] at hb
    exact h old hold i b hb

theorem fsWork_readdir {x : Req × Dir} (htype : x.1.fsType ≠ .closedir) (hnames : Names x.2.mem) (interrupted : List ℕ)
    (found : ℕ) (err : Option ℤ) :
    (fsWork x interrupted found err).1.ptr = x.1.ptr ∧ Names (fsWork x interrupted found err).2.mem ∧
      (fsWork x interrupted found err).2.isOpen = x.2.isOpen ∧
      ∀ b, (∀ i, b ≠ .name i) → (fsWork x interrupted found err).2.mem.frees b = x.2.mem.frees b := by
  have hfold (l : List ℕ) (d : Dir) (hd : Names d.mem) :
      Names (l.foldl (fun d k => fsReaddir d k true) d).mem ∧ (l.foldl (fun d k => fsReaddir d k true) d).isOpen = d.isOpen ∧
        ∀ b, (∀ i, b ≠ .name i) → (l.foldl (fun d k => fsReaddir d k true) d).mem.frees b = d.mem.frees b := by
    induction l generalizing d with
    | nil => exact ⟨hd, rfl, fun _ _ => rfl⟩
    | cons k l ih =>
      obtain ⟨h1, h2, h3⟩ := ih _ (fsReaddir_names hd k true)
      exact ⟨h1, h2, fun b hb => (h3 b hb).trans (fsReaddir_frees d k true hb)⟩
  obtain ⟨h1, h2, h3⟩ := hfold interrupted x.2 hnames
  unfold fsWork
  rw [if_neg htype]
  exact ⟨rfl, fsReaddir_names h1 _ _, h2, fun b hb => (fsReaddir_frees _ _ _ hb).trans (h3 b hb)⟩

theorem fsWork_closedir {x : Req × Dir} (htype : x.1.fsType = .closedir) (hptr : x.1.ptr = some .dir) (hopen : x.2.isOpen = true)
    (interrupted : List ℕ) (found : ℕ) (err : Option ℤ) :
    (fsWork x interrupted found err).1.ptr = none ∧ (fsWork x interrupted found err).2.mem.dirents = x.2.mem.dirents ∧
      (fsWork x interrupted found err).2.mem.frees .dir = x.2.mem.frees .dir + 1 ∧
      (fsWork x interrupted found err).2.mem.frees .stream = x.2.mem.frees .stream + 1 := by
  unfold fsWork fsClosedir
  rw [if_pos htype, hptr, hopen]
  refine ⟨rfl, rfl, ?_, ?_⟩
  · refine (free_self _ _).trans ?_
    rw [if_pos rfl, free_of_ne _ FsReq.Block.noConfusion, read_frees]
  · refine (free_of_ne _ FsReq.Block.noConfusion).trans ?_
    rw [if_pos rfl, free_self, read_frees]

theorem fsWork_req (x : Req × Dir) (interrupted : List ℕ) (found : ℕ) (err : Option ℤ) :
    (fsWork x interrupted found err).1.fsType = x.1.fsType ∧ (fsWork x interrupted found err).1.path = x.1.path ∧
      (fsWork x interrupted found err).1.bufs = x.1.bufs := by
  unfold fsWork
  split
  · exact ⟨rfl, rfl, rfl⟩
  · exact ⟨rfl, rfl, rfl⟩

theorem fsDone_req {cancelled : Bool} {req req' : Req} (h : fsDone cancelled req = some req') :
    req'.fsType = req.fsType ∧ req'.path = req.path ∧ req'.bufs = req.bufs ∧ req'.ptr = req.ptr := by
  unfold fsDone at h
  split at h
  · split at h
    · cases h
      exact ⟨rfl, rfl, rfl, rfl⟩
    · cases h
  · cases h
    exact ⟨rfl, rfl, rfl, rfl⟩

theorem readdirCleanup_frees (h : Names x.2) (hb : ∀ i, b ≠ .name i) :
    (readdirCleanup x).2.frees b = x.2.frees b ∧ Names (readdirCleanup x).2 := by
  have hfold (l : List ℕ) (m : Mem) (hm : Names m) :
      (l.foldl (fun m i =>
        { m.freePtr ((m.dirents.getD fun _ => none) i) with
          dirents := m.dirents.map fun names => update names i none }) m).frees b = m.frees b ∧
      Names (l.foldl (fun m i =>
        { m.freePtr ((m.dirents.getD fun _ => none) i) with
          dirents := m.dirents.map fun names => update names i none }) m) := by
    induction l generalizing m with
    | nil => exact ⟨rfl, hm⟩
    | cons a l ih =>
      rw [List.foldl_cons]
      refine (ih _ ?_).imp_left fun h => h.trans ?_
      · intro names hnames i c hc
        obtain ⟨old, hold, rfl⟩ := map_eq_some_iff.1 hnames
        by_cases hi : i = a
        · rw [hi, update_self] at hc
          cases hc
        · rw [update_of_ne hi] at hc
          exact hm old hold i c hc
      · cases hd : m.dirents with
        | none => rfl
        | some names =>
          rw [getD_some]
          cases hc : names a with
          | none => rfl
          | some c =>
            obtain ⟨k, rfl⟩ := hm names hd a c hc
            exact free_of_ne m (hb k)
  unfold readdirCleanup
  split
  · exact ⟨rfl, h⟩
  · dsimp only
    split
    · exact ⟨rfl, h⟩
    · exact hfold _ _ h

theorem releasePath_none (hpath : x.1.path = none) : (releasePath x).2 = x.2 := by
  unfold releasePath
  rw [hpath]
  split <;> rfl

theorem reqCleanup_readdir (htype : x.1.fsType = .readdir) (hpath : x.1.path = none) (hbufs : x.1.bufs = none)
    (h : Names x.2) (hb : ∀ i, b ≠ .name i) :
    (reqCleanup x).2.frees b = x.2.frees b ∧ Names (reqCleanup x).2 := by
  have hscandir : ¬(x.1.fsType = .scandir ∧ x.1.ptr ≠ none) := by
    rw [htype]
    exact fun h => by cases h.1
  have hlast (y : Req × Mem) (hbufs : y.1.bufs = none) (hptr : y.1.ptr = none) : (releasePtr y).2 = y.2 := by
    unfold releasePtr
    rw [hbufs, hptr]
    split <;> rfl
  have hmem := releasePath_none hpath
  have hptr' : (releasePath x).1.ptr = x.1.ptr := rfl
  have hbufs' : (releasePath x).1.bufs = none := hbufs
  unfold reqCleanup
  dsimp only
  rw [if_neg hscandir]
  generalize releasePath x = y at hmem hptr' hbufs'
  by_cases hptr : x.1.ptr = none
  · rw [if_neg (fun h => h.2 hptr), hlast _ hbufs' (hptr'.trans hptr), hmem]
    exact ⟨rfl, h⟩
  · obtain ⟨d, hd⟩ := ne_none_iff_exists'.1 hptr
    have hout : (readdirCleanup y).1.bufs = none ∧ (readdirCleanup y).1.ptr = none := by
      unfold readdirCleanup
      rw [hptr', hd]
      exact ⟨hbufs', rfl⟩
    rw [if_pos ⟨htype, hptr⟩, hlast _ hout.1 hout.2, ← hmem]
    rw [← hmem] at h
    exact readdirCleanup_frees h hb

theorem reqCleanup_closedir (htype : x.1.fsType = .closedir) (hpath : x.1.path = none) (hbufs : x.1.bufs = none)
    (hptr : x.1.ptr ≠ some .statbuf) : (reqCleanup x).2 = x.2.freePtr x.1.ptr := by
  have hreaddir : ¬(x.1.fsType = .readdir ∧ x.1.ptr ≠ none) := by
    rw [htype]
    exact fun h => by cases h.1
  have hscandir : ¬(x.1.fsType = .scandir ∧ x.1.ptr ≠ none) := by
    rw [htype]
    exact fun h => by cases h.1
  have hmem := releasePath_none hpath
  have hptr' : (releasePath x).1.ptr = x.1.ptr := rfl
  have hbufs' : (releasePath x).1.bufs = none := hbufs
  have hother : (releasePath x).1.fsType ≠ .opendir ∧ x.1.ptr ≠ some .statbuf := by
    have htype' : (releasePath x).1.fsType = .closedir := htype
    rw [htype']
    exact ⟨by decide, hptr⟩
  unfold reqCleanup
  dsimp only
  rw [if_neg hscandir, if_neg hreaddir, releasePtr]
  rw [hbufs', hptr', if_pos hother, hmem]
  rfl

theorem reqCleanup_fsType (x : Req × Mem) : (reqCleanup x).1.fsType = x.1.fsType := by
  have hreaddir (y : Req × Mem) : (readdirCleanup y).1.fsType = y.1.fsType := by
    unfold readdirCleanup
    split <;> rfl
  unfold reqCleanup
  dsimp only
  split
  · split
    · exact hreaddir _
    · rfl
  · split
    · exact hreaddir _
    · rfl

/-! ## What every run keeps -/

structure JobOk (j : Job) : Prop where
  type : j.req.fsType = .readdir ∨ j.req.fsType = .closedir
  path : j.req.path = none
  bufs : j.req.bufs = none
  queued : j.phase = .queued → j.cancelled = false
  ptr : j.req.fsType = .closedir → j.req.ptr = if j.phase = .queued ∨ j.cancelled = true then some .dir else none
  result : j.phase = .queued ∨ j.phase = .worked ∧ j.cancelled = true → j.req.result = 0

/-- A closedir waits alone, and while requests wait the directory is open. -/
structure Inv (s : State) : Prop where
  names : Names s.dir.mem
  job : ∀ r j, s.jobs r = some j → j.phase ≠ .clean → JobOk j
  waits : ∀ r j, s.jobs r = some j → j.phase = .queued → s.closed = []
  alone : ∀ r j r' j', s.jobs r = some j → j.phase = .queued → j.req.fsType = .closedir → s.jobs r' = some j' →
    j'.phase = .queued → r' = r
  isOpen : s.closed = [] → s.dir.isOpen = true
  stream : s.dir.mem.frees .stream = s.closed.length
  once : s.closed.length ≤ 1

theorem set_jobs {r' : ℕ} {j' : Job} (h : (s.set r j).jobs r' = some j') :
    r' = r ∧ j' = j ∨ r' ≠ r ∧ s.jobs r' = some j' := by
  by_cases hr : r' = r
  · subst hr
    have hself : (s.set r' j).jobs r' = some j := update_self _ _ _
    exact .inl ⟨rfl, (some.inj (hself.symm.trans h)).symm⟩
  · have hother : (s.set r j).jobs r' = s.jobs r' := update_of_ne hr _ _
    exact .inr ⟨hr, hother.symm.trans h⟩

theorem inv_opened (dirents : Bool) : Inv (opened dirents) := by
  have hnone {r : ℕ} {j : Job} (hj : (opened dirents).jobs r = some j) : False := some_ne_none j hj.symm
  refine ⟨fun names hnames i b hb => ?_, fun _ _ hj => (hnone hj).elim, fun _ _ hj => (hnone hj).elim,
    fun _ _ _ _ hj => (hnone hj).elim, fun _ => rfl, rfl, Nat.zero_le 1⟩
  cases dirents
  · cases hnames
  · cases hnames
    cases hb

theorem Inv.submit (h : Inv s) {t : FsType} (ht : t = .readdir ∨ t = .closedir) (hclosed : s.closed = [])
    (hclosedir : ¬s.Queued .closedir) (halone : t = .closedir → ∀ t', ¬s.Queued t') : Inv (s.set r (submit t)) where
  names := h.names
  job r' j' hj' hphase := by
    rcases set_jobs hj' with ⟨-, rfl⟩ | ⟨-, hj⟩
    · exact ⟨ht, rfl, rfl, fun _ => rfl, fun _ => rfl, fun _ => rfl⟩
    · exact h.job r' j' hj hphase
  waits _ _ _ _ := hclosed
  alone r₁ j₁ r₂ j₂ h₁ hphase₁ htype₁ h₂ hphase₂ := by
    rcases set_jobs h₁ with ⟨rfl, rfl⟩ | ⟨-, hj₁⟩
    · rcases set_jobs h₂ with ⟨rfl, -⟩ | ⟨-, hj₂⟩
      · rfl
      · exact absurd ⟨r₂, j₂, hj₂, hphase₂, rfl⟩ (halone htype₁ _)
    · exact absurd ⟨r₁, j₁, hj₁, hphase₁, htype₁⟩ hclosedir
  isOpen := h.isOpen
  stream := h.stream
  once := h.once

theorem Inv.change (h : Inv s) (hphase : j.phase ≠ .queued)
    (hjob : j.phase ≠ .clean → JobOk j) (hnames : Names dir.mem)
    (hwaits : closed = s.closed ∨ ∀ r' j', s.jobs r' = some j' → j'.phase = .queued → r' = r)
    (hopen : closed = [] → dir.isOpen = true) (hstream : dir.mem.frees .stream = closed.length) (honce : closed.length ≤ 1) :
    Inv { s.set r j with dir := dir, closed := closed } where
  names := hnames
  job r' j' hj' hclean := by
    rcases set_jobs hj' with ⟨-, rfl⟩ | ⟨-, hj⟩
    · exact hjob hclean
    · exact h.job r' j' hj hclean
  waits r' j' hj' hq := by
    rcases set_jobs hj' with ⟨-, rfl⟩ | ⟨hne, hj⟩
    · exact absurd hq hphase
    · rcases hwaits with rfl | hwaits
      · exact h.waits r' j' hj hq
      · exact absurd (hwaits r' j' hj hq) hne
  alone r₁ j₁ r₂ j₂ h₁ hphase₁ htype₁ h₂ hphase₂ := by
    rcases set_jobs h₁ with ⟨-, rfl⟩ | ⟨-, hj₁⟩
    · exact absurd hphase₁ hphase
    rcases set_jobs h₂ with ⟨-, rfl⟩ | ⟨-, hj₂⟩
    · exact absurd hphase₂ hphase
    · exact h.alone r₁ j₁ r₂ j₂ hj₁ hphase₁ htype₁ hj₂ hphase₂
  isOpen := hopen
  stream := hstream
  once := honce

theorem Inv.work (h : Inv s) (hj : s.jobs r = some j) (hphase : j.phase = .queued)
    (interrupted : List ℕ) (found : ℕ) (err : Option ℤ) :
    Inv { s.set r { j with req := (fsWork (j.req, s.dir) interrupted found err).1, phase := .worked } with
      dir := (fsWork (j.req, s.dir) interrupted found err).2
      closed := if j.req.fsType = .closedir then r :: s.closed else s.closed } ∧
    (fsWork (j.req, s.dir) interrupted found err).2.mem.frees .dir =
      s.dir.mem.frees .dir + if j.req.fsType = .closedir then 1 else 0 := by
  have hok := h.job r j hj (by rw [hphase]; decide)
  have hclosed := h.waits r j hj hphase
  have hworked : (Phase.worked : Phase) ≠ .queued := by decide
  obtain ⟨htype', hpath', hbufs'⟩ := fsWork_req (j.req, s.dir) interrupted found err
  have huncancelled : ¬j.cancelled = true := by
    rw [hok.queued hphase]
    decide
  by_cases htype : j.req.fsType = .closedir
  · have hptr : j.req.ptr = some .dir := by rw [hok.ptr htype, if_pos (.inl hphase)]
    obtain ⟨hptr', hdirents, hdir, hstream⟩ :=
      fsWork_closedir (x := (j.req, s.dir)) htype hptr (h.isOpen hclosed) interrupted found err
    rw [if_pos htype, if_pos htype]
    refine ⟨h.change hworked (fun _ => ?_) ?_ (.inr fun r' j' hj' hq => ?_) ?_ ?_ ?_, hdir⟩
    · refine ⟨.inr (htype'.trans htype), hpath'.trans hok.path, hbufs'.trans hok.bufs, fun h => absurd h hworked, fun _ => ?_,
        fun h => absurd (h.resolve_left hworked).2 huncancelled⟩
      exact hptr'.trans (if_neg fun h => huncancelled (h.resolve_left hworked)).symm
    · intro names hnames
      exact h.names names (hdirents ▸ hnames)
    · exact h.alone r j r' j' hj hphase htype hj' hq
    · intro hnil
      cases hnil
    · rw [hstream, h.stream, List.length_cons]
    · rw [hclosed]
      exact le_refl 1
  · obtain ⟨hptr', hnames, hopen, hframe⟩ := fsWork_readdir (x := (j.req, s.dir)) htype h.names interrupted found err
    rw [if_neg htype, if_neg htype]
    refine ⟨h.change hworked (fun _ => ?_) hnames (.inl rfl) ?_ ?_ h.once, hframe .dir fun _ => FsReq.Block.noConfusion⟩
    · exact ⟨.inl (htype'.trans (hok.type.resolve_right htype)), hpath'.trans hok.path, hbufs'.trans hok.bufs,
        fun h => absurd h hworked, fun h => absurd (htype'.symm.trans h) htype,
        fun h => absurd (h.resolve_left hworked).2 huncancelled⟩
    · intro hnil
      exact hopen.trans (h.isOpen hnil)
    · rw [hframe .stream fun _ => FsReq.Block.noConfusion, h.stream]

theorem Inv.cleanup (h : Inv s) (hj : s.jobs r = some j) (hphase : j.phase = .called) :
    Inv { s.set r { j with req := (reqCleanup (j.req, s.dir.mem)).1, phase := .clean } with
      dir := { s.dir with mem := (reqCleanup (j.req, s.dir.mem)).2 } } ∧
    (reqCleanup (j.req, s.dir.mem)).2.frees .dir =
      s.dir.mem.frees .dir + if j.req.fsType = .closedir ∧ j.cancelled = true then 1 else 0 := by
  have hok := h.job r j hj (by rw [hphase]; decide)
  have hclean : (Phase.clean : Phase) ≠ .queued := by decide
  have hqueued : ¬j.phase = .queued := by
    rw [hphase]
    decide
  rcases hok.type with htype | htype
  · obtain ⟨hdir, hnames⟩ := reqCleanup_readdir (x := (j.req, s.dir.mem)) htype hok.path hok.bufs h.names
      (b := .dir) fun _ => FsReq.Block.noConfusion
    obtain ⟨hstream, -⟩ := reqCleanup_readdir (x := (j.req, s.dir.mem)) htype hok.path hok.bufs h.names
      (b := .stream) fun _ => FsReq.Block.noConfusion
    refine ⟨h.change hclean (fun h => absurd rfl h) hnames (.inl rfl) h.isOpen (hstream.trans h.stream) h.once, ?_⟩
    have hno : ¬(j.req.fsType = .closedir ∧ j.cancelled = true) := by
      rw [htype]
      exact fun h => by cases h.1
    rw [hdir, if_neg hno, Nat.add_zero]
  · have hptr := hok.ptr htype
    have hstat : j.req.ptr ≠ some .statbuf := by
      rw [hptr]
      split
      · decide
      · decide
    have hmem : (reqCleanup (j.req, s.dir.mem)).2 = s.dir.mem.freePtr j.req.ptr :=
      reqCleanup_closedir (x := (j.req, s.dir.mem)) htype hok.path hok.bufs hstat
    rw [hmem]
    by_cases hcancelled : j.cancelled = true
    · rw [hptr, if_pos (.inr hcancelled), if_pos ⟨htype, hcancelled⟩]
      refine ⟨h.change hclean (fun h => absurd rfl h) h.names (.inl rfl) h.isOpen ?_ h.once, free_self _ _⟩
      exact (free_of_ne _ FsReq.Block.noConfusion).trans h.stream
    · have hno : ¬(j.phase = .queued ∨ j.cancelled = true) := fun h => h.elim hqueued hcancelled
      rw [hptr, if_neg hno, if_neg (fun h => hcancelled h.2)]
      exact ⟨h.change hclean (fun h => absurd rfl h) h.names (.inl rfl) h.isOpen h.stream h.once, rfl⟩

theorem inv_step {s' : State} {l : Label} (h : Inv s) (hstep : Step s l s') : Inv s' := by
  cases hstep with
  | readdir hr hclosed hqueued hdir hdirents =>
    exact h.submit (.inl rfl) hclosed hqueued fun h => by cases h
  | closedir hr hclosed hqueued => exact h.submit (.inr rfl) hclosed (hqueued _) fun _ => hqueued
  | work hj hphase herr => exact (h.work hj hphase _ _ _).1
  | @cancel r j hj hphase =>
    have hok := h.job r j hj (by rw [hphase]; decide)
    have hworked : (Phase.worked : Phase) ≠ .queued := by decide
    refine h.change hworked (fun _ => ?_) h.names (.inl rfl) h.isOpen h.stream h.once
    refine ⟨hok.type, hok.path, hok.bufs, fun h => absurd h hworked, fun htype => ?_, fun _ => hok.result (.inl hphase)⟩
    exact (hok.ptr htype).trans ((if_pos (.inl hphase)).trans (if_pos (.inr rfl)).symm)
  | @done r j req hj hphase hdone =>
    have hok := h.job r j hj (by rw [hphase]; decide)
    have hcalled : (Phase.called : Phase) ≠ .queued := by decide
    have hqueued : ¬j.phase = .queued := by
      rw [hphase]
      decide
    obtain ⟨htype', hpath', hbufs', hptr'⟩ := fsDone_req hdone
    refine h.change hcalled (fun _ => ?_) h.names (.inl rfl) h.isOpen h.stream h.once
    refine ⟨?_, hpath'.trans hok.path, hbufs'.trans hok.bufs, fun h => absurd h hcalled, fun htype => ?_,
      fun h => by rcases h with h | ⟨h, -⟩ <;> cases h⟩
    · rw [htype']
      exact hok.type
    · refine hptr'.trans ((hok.ptr (htype'.symm.trans htype)).trans ?_)
      simp [hqueued]
  | cleanup hj hphase => exact (h.cleanup hj hphase).1

theorem inv_inductive : dirReqs.Inductive Inv where
  init s := by
    intro h
    obtain ⟨dirents, rfl⟩ := h
    exact inv_opened dirents
  step s l s' := inv_step

/-! ## The cancelled closedirs -/

def State.Lost (s : State) : Prop :=
  ∃ r j, s.jobs r = some j ∧ j.req.fsType = .closedir ∧ j.cancelled = true ∧ j.phase = .clean

theorem lost_set (hold : ∀ j, s.jobs r = some j → j.phase ≠ .clean) :
    State.Lost { s.set r j with dir := dir, closed := closed } ↔
      (j.req.fsType = .closedir ∧ j.cancelled = true ∧ j.phase = .clean) ∨ s.Lost := by
  constructor
  · intro h
    obtain ⟨r', j', hj', hlost⟩ := h
    rcases set_jobs hj' with ⟨-, rfl⟩ | ⟨-, hj⟩
    · exact .inl hlost
    · exact .inr ⟨r', j', hj, hlost⟩
  · intro h
    rcases h with hlost | ⟨r', j', hj', hlost⟩
    · exact ⟨r, j, update_self _ _ _, hlost⟩
    · have hne : r' ≠ r := by
        intro h
        subst h
        exact hold j' hj' hlost.2.2
      exact ⟨r', j', (update_of_ne hne _ _).trans hj', hlost⟩

/-- The releases of the `uv_dir_t`. -/
def Count (s : State) : Prop := ∃ lost, s.dir.mem.frees .dir = s.closed.length + lost ∧ (lost = 0 ↔ ¬s.Lost)

theorem Count.same {s' : State} (h : Count s)
    (hfrees : s'.dir.mem.frees .dir + s.closed.length = s.dir.mem.frees .dir + s'.closed.length)
    (hlost : s'.Lost ↔ s.Lost) : Count s' := by
  obtain ⟨lost, h1, h2⟩ := h
  refine ⟨lost, by omega, ?_⟩
  rw [hlost]
  exact h2

theorem count_inductive : dirReqs.Inductive fun s => Inv s ∧ Count s := by
  refine inv_inductive.with_ ?_ ?_
  · rintro s ⟨dirents, rfl⟩
    refine ⟨0, rfl, fun _ => ?_, fun _ => rfl⟩
    intro h
    obtain ⟨r, j, hj, -⟩ := h
    cases hj
  intro s l s' hinv hcount hstep
  cases hstep with
  | readdir hr hclosed hqueued hdir hdirents =>
    refine hcount.same rfl ((lost_set fun j hj => ?_).trans ?_)
    · rw [hr] at hj
      cases hj
    · exact or_iff_right fun h => by cases h.1
  | closedir hr hclosed hqueued =>
    refine hcount.same rfl ((lost_set fun j hj => ?_).trans ?_)
    · rw [hr] at hj
      cases hj
    · exact or_iff_right fun h => by cases h.2.1
  | @work r j interrupted found err hj hphase herr =>
    refine hcount.same ?_ ((lost_set fun j' hj' => ?_).trans (or_iff_right fun h => ?_))
    · dsimp only
      rw [(hinv.work hj hphase interrupted found err).2]
      split
      · rw [List.length_cons]
        omega
      · omega
    · cases hj.symm.trans hj'
      rw [hphase]
      decide
    · cases h.2.2
  | cancel hj hphase | done hj hphase hdone =>
    refine hcount.same rfl ((lost_set fun j' hj' => ?_).trans (or_iff_right fun h => ?_))
    · cases hj.symm.trans hj'
      rw [hphase]
      decide
    · cases h.2.2
  | @cleanup r j hj hphase =>
    have hold : ∀ j', s.jobs r = some j' → j'.phase ≠ .clean := by
      intro j' hj'
      cases hj.symm.trans hj'
      rw [hphase]
      decide
    have htype : (reqCleanup (j.req, s.dir.mem)).1.fsType = j.req.fsType := reqCleanup_fsType _
    have hdir := (hinv.cleanup hj hphase).2
    obtain ⟨lost, h1, h2⟩ := hcount
    by_cases hcancelled : j.req.fsType = .closedir ∧ j.cancelled = true
    · refine ⟨lost + 1, ?_, fun h => absurd h (Nat.succ_ne_zero lost), fun h => absurd ?_ h⟩
      · rw [if_pos hcancelled] at hdir
        exact hdir.trans (by rw [h1, Nat.add_assoc]; rfl)
      · exact (lost_set hold).2 (.inl ⟨htype.trans hcancelled.1, hcancelled.2, rfl⟩)
    · rw [if_neg hcancelled] at hdir
      refine Count.same ⟨lost, h1, h2⟩ (congrArg (· + s.closed.length) hdir) ((lost_set hold).trans (or_iff_right fun h => ?_))
      exact hcancelled ⟨htype.symm.trans h.1, h.2.1⟩

/-! ## The labels of a run -/

def Has (P : Job → Prop) (s : State) (r : ℕ) : Prop := ∃ j, s.jobs r = some j ∧ P j

theorem has_some (hj : s.jobs r = some j) : Has P s r ↔ P j := by
  constructor
  · intro h
    obtain ⟨j', hj', hP⟩ := h
    cases hj.symm.trans hj'
    exact hP
  · intro hP
    exact ⟨j, hj, hP⟩

theorem has_none (hr : s.jobs r = none) : ¬Has P s r := by
  intro h
  obtain ⟨j, hj, -⟩ := h
  cases hr.symm.trans hj

theorem has_set {f : ℕ → Label} {l : Label}
    (hself : P j ↔ Has P s r ∨ l = f r) (hother : ∀ r', l = f r' → r' = r) (r' : ℕ) :
    Has P { s.set r j with dir := dir, closed := closed } r' ↔ Has P s r' ∨ l = f r' := by
  by_cases hr : r' = r
  · subst hr
    refine Iff.trans ?_ hself
    have hj : (State.jobs { s.set r' j with dir := dir, closed := closed }) r' = some j := update_self _ _ _
    exact has_some hj
  · have hj : (State.jobs { s.set r j with dir := dir, closed := closed }) r' = s.jobs r' := update_of_ne hr _ _
    unfold Has
    rw [hj]
    exact (or_iff_left fun h => hr (hother r' h)).symm

theorem told {f : ℕ → Label} (hstep : ∀ s l s', Step s l s' → ∀ r, Has P s' r ↔ Has P s r ∨ l = f r)
    (h : dirReqs.History ls s) (r : ℕ) : f r ∈ ls ↔ Has P s r := by
  have htrace : dirReqs.TraceInductive fun ls s => ∀ r, f r ∈ ls ↔ Has P s r := by
    refine ⟨?_, fun ls s l s' ih hs r => ?_⟩
    · rintro s ⟨dirents, rfl⟩ r
      exact iff_of_false List.not_mem_nil (has_none rfl)
    · rw [List.mem_append, ih r, hstep s l s' hs r, List.mem_singleton, @eq_comm _ l]
  exact htrace.run h r

theorem told_closedir (h : dirReqs.History ls s) (r : ℕ) :
    Label.closedir r ∈ ls ↔ Has (fun j => j.req.fsType = .closedir) s r := by
  refine told (f := Label.closedir) (fun s l s' hstep => ?_) h r
  cases hstep with
  | readdir hr hclosed hqueued hdir hdirents =>
    refine has_set (iff_of_false (by decide) fun h => ?_) fun r' h => by cases h
    exact h.elim (has_none hr) fun h => by cases h
  | closedir hr hclosed hqueued => exact has_set (iff_of_true rfl (.inr rfl)) fun r' h => by cases h; rfl
  | work hj hphase herr =>
    refine has_set ?_ fun r' h => by cases h
    rw [has_some hj, or_iff_left (fun h => by cases h), (fsWork_req _ _ _ _).1]
  | cancel hj hphase =>
    refine has_set ?_ fun r' h => by cases h
    rw [has_some hj, or_iff_left (fun h => by cases h)]
  | done hj hphase hdone =>
    refine has_set ?_ fun r' h => by cases h
    rw [has_some hj, or_iff_left (fun h => by cases h), (fsDone_req hdone).1]
  | cleanup hj hphase =>
    refine has_set ?_ fun r' h => by cases h
    rw [has_some hj, or_iff_left (fun h => by cases h), reqCleanup_fsType]

theorem told_cancel (h : dirReqs.History ls s) (r : ℕ) :
    Label.cancel r ∈ ls ↔ Has (fun j => j.cancelled = true) s r := by
  refine told (f := Label.cancel) (fun s l s' hstep => ?_) h r
  cases hstep with
  | readdir hr hclosed hqueued hdir hdirents | closedir hr hclosed hqueued =>
    refine has_set (iff_of_false (fun h => by cases h) fun h => ?_) fun r' h => by cases h
    exact h.elim (has_none hr) fun h => by cases h
  | cancel hj hphase => exact has_set (iff_of_true rfl (.inr rfl)) fun r' h => by cases h; rfl
  | work hj | done hj | cleanup hj =>
    refine has_set ?_ fun r' h => by cases h
    rw [has_some hj, or_iff_left (fun h => by cases h)]

theorem told_cleanup (h : dirReqs.History ls s) (r : ℕ) :
    Label.cleanup r ∈ ls ↔ Has (fun j => j.phase = .clean) s r := by
  refine told (f := Label.cleanup) (fun s l s' hstep => ?_) h r
  cases hstep with
  | readdir hr hclosed hqueued hdir hdirents | closedir hr hclosed hqueued =>
    refine has_set (iff_of_false (fun h => by cases h) fun h => ?_) fun r' h => by cases h
    exact h.elim (has_none hr) fun h => by cases h
  | cleanup hj hphase => exact has_set (iff_of_true rfl (.inr rfl)) fun r' h => by cases h; rfl
  | work hj hphase | cancel hj hphase | done hj hphase =>
    refine has_set ?_ fun r' h => by cases h
    rw [has_some hj, or_iff_left (fun h => by cases h), hphase]
    exact iff_of_false (fun h => by cases h) fun h => by cases h

theorem lost_iff (h : dirReqs.History ls s) :
    s.Lost ↔ ∃ r, Label.closedir r ∈ ls ∧ Label.cancel r ∈ ls ∧ Label.cleanup r ∈ ls := by
  simp only [told_closedir h, told_cancel h, told_cleanup h]
  constructor
  · intro h
    obtain ⟨r, j, hj, h1, h2, h3⟩ := h
    exact ⟨r, ⟨j, hj, h1⟩, ⟨j, hj, h2⟩, ⟨j, hj, h3⟩⟩
  · intro h
    obtain ⟨r, ⟨j, hj, h1⟩, h2, h3⟩ := h
    exact ⟨r, j, hj, h1, (has_some hj).1 h2, (has_some hj).1 h3⟩

/-- **The directory is released once** by the closedir that ran, in exactly the runs in which no cancelled closedir is cleaned
up. -/
theorem intact_iff {ls : List Label} {s : State} (h : dirReqs.History ls s) :
    Intact s ↔ ∀ r, Label.closedir r ∈ ls → Label.cancel r ∈ ls → Label.cleanup r ∉ ls := by
  obtain ⟨hinv, lost, hdir, hlost⟩ := count_inductive.reachable ⟨ls, h⟩
  have hrun : ¬s.Lost ↔ ∀ r, Label.closedir r ∈ ls → Label.cancel r ∈ ls → Label.cleanup r ∉ ls := by
    rw [lost_iff h]
    simp
  rw [← hrun, ← hlost]
  constructor
  · intro h
    obtain ⟨hdir', -, -⟩ := h
    omega
  · intro h0
    exact ⟨by rw [hdir, h0, Nat.add_zero], hinv.stream, hinv.once⟩

theorem history_closedir : dirReqs.History [.closedir 0] ((opened true).set 0 (submit .closedir)) := by
  have hinit : dirReqs.History [] (opened true) := .nil ⟨true, rfl⟩
  refine hinit.snoc (.closedir rfl rfl fun t => ?_)
  intro h
  obtain ⟨r, j, hj, -⟩ := h
  cases hj

/-- A readdir is cancelled and cleaned up, and then the directory is closed. -/
theorem intact_closed : ∃ s, dirReqs.History [.readdir 0, .cancel 0, .done 0, .cleanup 0, .closedir 1, .work 1 [] 0 none, .done 1,
    .cleanup 1] s ∧ s.closed = [1] ∧ Intact s := by
  have h0 : dirReqs.History [] (opened true) := .nil ⟨true, rfl⟩
  have h1 := h0.snoc (l := Label.readdir 0) (.readdir rfl rfl (fun ⟨_, _, hj, _⟩ => nomatch hj) rfl nofun)
  have h2 := h1.snoc (l := Label.cancel 0) (.cancel rfl rfl)
  have h3 := h2.snoc (l := Label.done 0) (.done rfl rfl rfl)
  have h4 := h3.snoc (l := Label.cleanup 0) (.cleanup rfl rfl)
  have h5 := h4.snoc (l := Label.closedir 1) (.closedir rfl rfl fun t ⟨r, j, hj, hq, _⟩ => by
    by_cases hr : r = 0
    · subst hr
      cases hj
      cases hq
    · simp [State.set, opened, hr] at hj)
  have h6 := h5.snoc (l := Label.work 1 [] 0 none) (.work rfl rfl nofun)
  have h7 := h6.snoc (l := Label.done 1) (.done rfl rfl rfl)
  have h8 := h7.snoc (l := Label.cleanup 1) (.cleanup rfl rfl)
  refine ⟨_, h8, rfl, (intact_iff h8).2 fun r hclosedir hcancel => ?_⟩
  simp at hclosedir hcancel
  omega

theorem cancelled_history :
    ∃ s, dirReqs.History [.closedir 0, .cancel 0, .done 0, .cleanup 0] s ∧ s.closed = [] ∧ s.dir.mem.frees .dir = 1 := by
  have h1 := history_closedir
  have h2 := h1.snoc (.cancel (r := 0) (j := submit .closedir) rfl rfl)
  have h3 := h2.snoc (.done (r := 0) rfl rfl rfl)
  have h4 := h3.snoc (.cleanup (r := 0) rfl rfl)
  exact ⟨_, h4, rfl, rfl⟩

/-- The `uv_dir_t` is gone although no closedir has run. -/
theorem closedir_cancelled : ¬∀ ls s, dirReqs.History ls s → Intact s := by
  intro hall
  obtain ⟨s, hs, hclosed, hdir⟩ := cancelled_history
  have hone := (hall _ s hs).dir
  rw [hclosed, hdir] at hone
  cases hone

end Libuv.L6.FsDir
