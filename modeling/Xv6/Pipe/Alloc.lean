import Xv6.Fs.State
import Xv6.Fs.Sysfile
import Xv6.Vm.Phys

/-! # `sys_pipe` gives back what it took

The program `sysPipe` run by one process on the file table, its descriptors, the free list of
`kalloc.c` and the pipes. Whatever is used up (a struct file, a page, a descriptor, at any of the five
allocations) the call returns and either installs both ends of a fresh pipe or leaves no trace
(`sysPipe_atomic`). -/

namespace Xv6

open Lib Fs Prog

open Function (update update_eq_self update_idem update_of_ne update_self)

/-- A page that `kfree` accepts. -/
abbrev Page : Type := { v : Nat // v % PGSIZE = 0 ∧ 1024 * 1024 ≤ v ∧ v < Vm.PHYSTOP }

/-- The fields of `struct pipe` that `pipealloc` and `pipeclose` assign to. -/
structure Ends where
  readopen : Bool
  writeopen : Bool
  nread : Nat
  nwrite : Nat

/-- **What `sys_pipe` works on.** -/
structure PipeSys where
  fs : FsState
  /-- `kmem.freelist`. -/
  free : List Page
  /-- The pipes by page. -/
  pipes : Nat → Ends
  /-- `proc->sz`. -/
  sz : Nat
  /-- The memory of the process. -/
  umem : Nat → UInt8

namespace PipeSys

/-- The fields that `pipealloc` assigns to. -/
def opened : Ends := ⟨true, true, 0, 0⟩

/-- Close one end. -/
def close (e : Ends) (writable : Bool) : Ends :=
  if writable then { e with writeopen := false } else { e with readopen := false }

/-- `p->readopen == 0 && p->writeopen == 0`. -/
def closed (e : Ends) : Bool := !e.readopen && !e.writeopen

/-- `kalloc`. -/
def kalloc (s : PipeSys) : Option Nat × PipeSys :=
  match s.free with
  | [] => (none, s)
  | v :: vs => (some v.val, { s with free := vs })

/-- **What an action does**; `kfree` of a page that it does not accept panics and has no step. -/
def step (p : Pid) : (a : Act) → PipeSys → a.Resp → PipeSys → Prop
  | .kalloc, s, b, t => (b, t) = s.kalloc
  | .kfree v, s, _, t => ∃ h, t = { s with free := ⟨v, h⟩ :: s.free }
  | .pipeInit v, s, _, t => t = { s with pipes := update s.pipes v opened }
  | .pipeCloseEnd v w, s, b, t =>
      b = closed (close (s.pipes v) w) ∧
        t = { s with pipes := update s.pipes v (close (s.pipes v) w) }
  | .procSz, s, b, t => b = s.sz ∧ t = s
  | .uwrite addr bytes, s, _, t => t = { s with umem := put s.umem addr bytes }
  | a, s, b, t => a.step p s.fs b t.fs ∧ t = { s with fs := t.fs }

/-- The actions of a process that runs alone: there is an outcome, and every outcome is provided
for. -/
def solo (p : Pid) : Spec Act Act.Resp PipeSys := fun a Q s =>
  (∃ b t, step p a s b t) ∧ ∀ b t, step p a s b t → Q b t

/-- The program, run by `p` alone from `s`, returns without a panic and ends as `Q` says. -/
abbrev Runs {α : Type} (p : Pid) (prog : FsProg α) (Q : α → PipeSys → Prop) (s : PipeSys) : Prop :=
  wp (solo p) (fun _ => False) prog Q s

/-- Assign to an entry of the file table. -/
def setFile (s : PipeSys) (f : Fid) (x : File) : PipeSys := { s with fs := s.fs.setFile f x }

/-- Assign to a descriptor. -/
def setFd (s : PipeSys) (p : Pid) (fd : Fd) (f : Option Fid) : PipeSys :=
  { s with fs := s.fs.setFd p fd f }

/-! ## The actions -/

section Actions

variable {p : Pid} {s : PipeSys}

theorem runs_bind {α β : Type} {prog : FsProg α} {k : α → FsProg β} {Q : β → PipeSys → Prop} :
    Runs p (prog >>= k) Q s ↔ Runs p prog (fun x => Runs p (k x) Q) s := by
  rw [Runs, wp_bind]

/-- An action with exactly one outcome. -/
theorem runs_of_step (a : Act) {b : a.Resp} {t : PipeSys} (h : step p a s b t)
    (huniq : ∀ b' t', step p a s b' t' → b' = b ∧ t' = t) {Q : a.Resp → PipeSys → Prop} (hQ : Q b t) :
    Runs p (doAct a) Q s := by
  refine ⟨⟨b, t, h⟩, fun b' t' h' => ?_⟩
  obtain ⟨rfl, rfl⟩ := huniq b' t' h'
  exact hQ

/-- An action of the file table or the descriptors with exactly one outcome. -/
theorem runs_of_fsStep (a : Act)
    (ha : ∀ b t, step p a s b t ↔ a.step p s.fs b t.fs ∧ t = { s with fs := t.fs }) {b : a.Resp}
    {u : FsState} (h : a.step p s.fs b u) (huniq : ∀ b' u', a.step p s.fs b' u' → b' = b ∧ u' = u)
    {Q : a.Resp → PipeSys → Prop} (hQ : Q b { s with fs := u }) : Runs p (doAct a) Q s := by
  refine runs_of_step a ((ha b { s with fs := u }).mpr ⟨h, rfl⟩) (fun b' t' h' => ?_) hQ
  obtain ⟨hstep, ht⟩ := (ha b' t').mp h'
  obtain ⟨rfl, hu⟩ := huniq b' t'.fs hstep
  rw [hu] at ht
  exact ⟨rfl, ht⟩

/-- The struct file with the reference that `filealloc` gives it. -/
def taken (x : File) : File := { x with ref := 1 }

/-- `filealloc` takes an entry without references, if there is one. -/
theorem runs_filealloc {Q : Option Fid → PipeSys → Prop} (hnone : Q none s)
    (hsome : ∀ f, (s.fs.ftable f).ref = 0 →
      Q (some f) (s.setFile f (taken (s.fs.ftable f)))) :
    Runs p filealloc Q s := by
  have huniq : ∀ b' u', Act.step p .filealloc s.fs b' u' →
      b' = s.fs.filealloc.1 ∧ u' = s.fs.filealloc.2 := fun b' u' h' =>
    ⟨congrArg Prod.fst h', congrArg Prod.snd h'⟩
  refine runs_of_fsStep .filealloc (fun _ _ => .rfl) (b := s.fs.filealloc.1) rfl huniq ?_
  unfold FsState.filealloc
  split
  · rename_i f hfind
    exact hsome f (by simpa using List.find?_some hfind)
  · exact hnone

/-- The struct file with the assignments of `pipealloc`. -/
def asEnd (x : File) (v : Nat) (r w : Bool) : File :=
  { x with type := .pipe, pipe := v, readable := r, writable := w }

variable {f : Fid} {v : Nat} {r w : Bool} {Q : Unit → PipeSys → Prop}

theorem runs_setPipeFile (hQ : Q () (s.setFile f (asEnd (s.fs.ftable f) v r w))) :
    Runs p (setPipeFile f v r w) Q s :=
  runs_of_fsStep (.setPipeFile f v r w) (fun _ _ => .rfl) (b := ()) rfl (fun _ _ h => ⟨rfl, h⟩) hQ

theorem runs_ofile {fd : Fd} {Q : Option Fid → PipeSys → Prop} (hQ : Q (s.fs.ofile p fd) s) :
    Runs p (ofile fd) Q s :=
  runs_of_fsStep (.ofile fd) (fun _ _ => .rfl) (b := s.fs.ofile p fd) ⟨rfl, rfl⟩ (fun _ _ h => h) hQ

theorem runs_setOfile {fd : Fd} {f : Option Fid} (hQ : Q () (s.setFd p fd f)) :
    Runs p (setOfile fd f) Q s :=
  runs_of_fsStep (.setOfile fd f) (fun _ _ => .rfl) (b := ()) rfl (fun _ _ h => ⟨rfl, h⟩) hQ

theorem runs_kalloc {Q : Option Nat → PipeSys → Prop} (hnone : Q none s)
    (hsome : ∀ v vs, s.free = v :: vs → Q (some v.val) { s with free := vs }) :
    Runs p Fs.kalloc Q s := by
  refine runs_of_step .kalloc (b := s.kalloc.1) (t := s.kalloc.2) rfl
    (fun b t h => ⟨congrArg Prod.fst h, congrArg Prod.snd h⟩) ?_
  unfold PipeSys.kalloc
  split
  · exact hnone
  · rename_i v vs hfree
    exact hsome v vs hfree

theorem runs_kfree {v : Page} (hQ : Q () { s with free := v :: s.free }) :
    Runs p (kfree v.val) Q s :=
  runs_of_step (.kfree v.val) (b := ()) ⟨v.property, rfl⟩ (fun _ _ h => ⟨rfl, h.choose_spec⟩) hQ

theorem runs_pipeInit (hQ : Q () { s with pipes := update s.pipes v opened }) :
    Runs p (pipeInit v) Q s :=
  runs_of_step (.pipeInit v) (b := ()) rfl (fun _ _ h => ⟨rfl, h⟩) hQ

theorem runs_pipeCloseEnd {w : Bool} {Q : Bool → PipeSys → Prop}
    (hQ : Q (closed (close (s.pipes v) w))
      { s with pipes := update s.pipes v (close (s.pipes v) w) }) :
    Runs p (pipeCloseEnd v w) Q s :=
  runs_of_step (.pipeCloseEnd v w) ⟨rfl, rfl⟩ (fun _ _ h => h) hQ

theorem runs_procSz {Q : Nat → PipeSys → Prop} (hQ : Q s.sz s) : Runs p procSz Q s :=
  runs_of_step .procSz ⟨rfl, rfl⟩ (fun _ _ h => h) hQ

theorem runs_uwrite {addr : Nat} {bytes : List UInt8}
    (hQ : Q () { s with umem := put s.umem addr bytes }) : Runs p (uwrite addr bytes) Q s :=
  runs_of_step (.uwrite addr bytes) (b := ()) rfl (fun _ _ h => ⟨rfl, h⟩) hQ

/-- The struct file after its last reference has gone. -/
def freed (x : File) : File := { x with ref := 0, type := .none }

/-- What `fileclose` does with the copy of a struct file whose last reference has gone. -/
def closeCopy (ff : File) : FsProg Unit :=
  match ff.type with
  | .pipe => pipeclose ff.pipe ff.writable
  | .inode => iput ff.ip
  | .none => pure ()

/-- `fileclose` of the last reference. -/
theorem runs_fileclose (href : (s.fs.ftable f).ref = 1)
    (hQ : Runs p (closeCopy (s.fs.ftable f)) Q (s.setFile f (freed (s.fs.ftable f)))) :
    Runs p (fileclose f) Q s := by
  have hclose : s.fs.filecloseRef f = some (some { s.fs.ftable f with ref := 0 },
      s.fs.setFile f (freed (s.fs.ftable f))) := by
    rw [FsState.filecloseRef, if_neg (by omega), if_neg (by omega)]
    rfl
  unfold fileclose
  rw [runs_bind]
  refine runs_of_fsStep (.filecloseRef f) (fun _ _ => .rfl) hclose (fun b' u' h' => ?_) hQ
  cases hclose.symm.trans h'
  exact ⟨rfl, rfl⟩

/-- `fileclose` of a struct file that has not been given a type. -/
theorem runs_fileclose_none (href : (s.fs.ftable f).ref = 1) (htype : (s.fs.ftable f).type = .none)
    (hQ : Q () (s.setFile f (freed (s.fs.ftable f)))) : Runs p (fileclose f) Q s := by
  refine runs_fileclose href ?_
  rw [closeCopy, htype]
  exact hQ

/-- The struct file is an end of the pipe at a page, with one reference. -/
structure IsEnd (x : File) (v : Nat) (readable writable : Bool) : Prop where
  type : x.type = .pipe
  ref : x.ref = 1
  readable : x.readable = readable
  writable : x.writable = writable
  pipe : x.pipe = v

theorem IsEnd.closeCopy_eq {x : File} (h : IsEnd x v r w) : closeCopy x = pipeclose v w := by
  rw [closeCopy, h.type, h.pipe, h.writable]

/-- `fileclose` of an end whose other end is open. -/
theorem runs_fileclose_first (hend : IsEnd (s.fs.ftable f) v r w)
    (hopen : closed (close (s.pipes v) w) = false)
    (hQ : Q () { s.setFile f (freed (s.fs.ftable f)) with
      pipes := update s.pipes v (close (s.pipes v) w) }) :
    Runs p (fileclose f) Q s := by
  refine runs_fileclose hend.ref ?_
  rw [hend.closeCopy_eq, pipeclose, runs_bind]
  refine runs_pipeCloseEnd ?_
  have hfirst : closed (close ((s.setFile f (freed (s.fs.ftable f))).pipes v) w) = false := hopen
  rw [hfirst, if_neg Bool.false_ne_true]
  exact hQ

/-- `fileclose` of an end whose other end is closed frees the page. -/
theorem runs_fileclose_last {v : Page} (hend : IsEnd (s.fs.ftable f) v.val r w)
    (hclosed : closed (close (s.pipes v.val) w) = true)
    (hQ : Q () { s.setFile f (freed (s.fs.ftable f)) with
      pipes := update s.pipes v.val (close (s.pipes v.val) w), free := v :: s.free }) :
    Runs p (fileclose f) Q s := by
  refine runs_fileclose hend.ref ?_
  rw [hend.closeCopy_eq, pipeclose, runs_bind]
  refine runs_pipeCloseEnd ?_
  have hlast : closed (close ((s.setFile f (freed (s.fs.ftable f))).pipes v.val) w) = true := hclosed
  rw [hlast, if_pos rfl]
  exact runs_kfree hQ

/-- `fdalloc` takes a free descriptor, if there is one. -/
theorem runs_fdallocLoop {n fd : Nat} {Q : Option Fd → PipeSys → Prop} (hnone : Q none s)
    (hsome : ∀ fd, s.fs.ofile p fd = none → Q (some fd) (s.setFd p fd (some f))) :
    Runs p (fdallocLoop f n fd) Q s := by
  induction n generalizing fd with
  | zero => exact hnone
  | succ n ih =>
      unfold fdallocLoop
      split
      · rename_i h
        rw [runs_bind]
        refine runs_ofile ?_
        cases hfd : s.fs.ofile p ⟨fd, h⟩ with
        | none =>
            simp only [runs_bind]
            exact runs_setOfile (hsome ⟨fd, h⟩ hfd)
        | some _ => exact ih
      · exact hnone

end Actions

/-! ## The file table after assignments -/

section Table

variable {p : Pid} {s : PipeSys} {f g : Fid} {x : File}

theorem ftable_setFile_self : (s.setFile f x).fs.ftable f = x := update_self ..

theorem ftable_setFile_of_ne (h : g ≠ f) : (s.setFile f x).fs.ftable g = s.fs.ftable g :=
  update_of_ne h ..

end Table

/-! ## `pipealloc` -/

/-- **The call left no trace**: the descriptors, the references and types of the struct files, and
the free pages are as before. -/
structure Untouched (s t : PipeSys) : Prop where
  ofile : t.fs.ofile = s.fs.ofile
  ref : ∀ f, (t.fs.ftable f).ref = (s.fs.ftable f).ref
  type : ∀ f, (t.fs.ftable f).type = (s.fs.ftable f).type
  free : t.free = s.free

/-- **A fresh pipe**: two struct files without references are its ends, a read-only and a write-only
one, and it is open and empty on a page that was free. -/
structure Allocated (s t : PipeSys) (f0 f1 : Fid) (v : Page) : Prop where
  ne : f0 ≠ f1
  ref0 : (s.fs.ftable f0).ref = 0
  ref1 : (s.fs.ftable f1).ref = 0
  read : IsEnd (t.fs.ftable f0) v true false
  write : IsEnd (t.fs.ftable f1) v false true
  others : ∀ f, f ≠ f0 → f ≠ f1 → t.fs.ftable f = s.fs.ftable f
  free : s.free = v :: t.free
  opened : t.pipes v = opened

/-- A struct file without references has the type that `fileclose` leaves in it. -/
def Recycled (s : PipeSys) : Prop := ∀ f, (s.fs.ftable f).ref = 0 → (s.fs.ftable f).type = .none

variable {s t : PipeSys}

theorem Untouched.recycled (h : Untouched s t) (hs : s.Recycled) : t.Recycled := by
  intro f href
  rw [h.ref] at href
  rw [h.type]
  exact hs f href

/-- A struct file is as before, up to what its last user left in it. -/
theorem Untouched.of_ftable (hs : s.Recycled) (hofile : t.fs.ofile = s.fs.ofile)
    (hfree : t.free = s.free)
    (hfile : ∀ f, t.fs.ftable f = s.fs.ftable f ∨
      (s.fs.ftable f).ref = 0 ∧ ∃ x, t.fs.ftable f = freed x) : Untouched s t := by
  refine ⟨hofile, fun f => ?_, fun f => ?_, hfree⟩
  · rcases hfile f with h | ⟨href, x, h⟩
    · rw [h]
    · rw [h, href]
      rfl
  · rcases hfile f with h | ⟨href, x, h⟩
    · rw [h]
    · rw [h, hs f href]
      rfl

/-- The struct files `f0` and `f1` have been taken by `filealloc`. -/
structure Took (s u : PipeSys) (f0 f1 : Fid) : Prop where
  ne : f0 ≠ f1
  ref0 : (s.fs.ftable f0).ref = 0
  ref1 : (s.fs.ftable f1).ref = 0
  file0 : u.fs.ftable f0 = taken (s.fs.ftable f0)
  file1 : u.fs.ftable f1 = taken (s.fs.ftable f1)
  others : ∀ f, f ≠ f0 → f ≠ f1 → u.fs.ftable f = s.fs.ftable f
  ofile : u.fs.ofile = s.fs.ofile
  free : u.free = s.free

theorem took_setFile {s : PipeSys} {f0 f1 : Fid} (href0 : (s.fs.ftable f0).ref = 0)
    (href1 : ((s.setFile f0 (taken (s.fs.ftable f0))).fs.ftable f1).ref = 0) :
    Took s ((s.setFile f0 (taken (s.fs.ftable f0))).setFile f1
      (taken ((s.setFile f0 (taken (s.fs.ftable f0))).fs.ftable f1))) f0 f1 := by
  have hne : f0 ≠ f1 := by
    rintro rfl
    rw [ftable_setFile_self] at href1
    exact absurd (show (1 : Int) = 0 from href1) (by decide)
  rw [ftable_setFile_of_ne hne.symm] at href1 ⊢
  refine ⟨hne, href0, href1, ?_, ftable_setFile_self, fun f h0 h1 => ?_, rfl, rfl⟩
  · rw [ftable_setFile_of_ne hne, ftable_setFile_self]
  · rw [ftable_setFile_of_ne h1, ftable_setFile_of_ne h0]

section Alloc

variable {p : Pid} {s : PipeSys} (hs : s.Recycled)
include hs

variable {Q : Option (Fid × Fid) → PipeSys → Prop}

/-- The first struct file is given back. -/
theorem runs_giveBack {f0 : Fid} (href : (s.fs.ftable f0).ref = 0)
    (hQ : ∀ t, Untouched s t → Q none t) :
    Runs p (do fileclose f0; pure none) Q (s.setFile f0 (taken (s.fs.ftable f0))) := by
  rw [runs_bind]
  refine runs_fileclose_none ?_ ?_ (hQ _ (.of_ftable hs rfl rfl fun f => ?_))
  · rw [ftable_setFile_self]
    rfl
  · rw [ftable_setFile_self]
    exact hs f0 href
  · by_cases hf : f = f0
    · subst hf
      exact .inr ⟨href, _, ftable_setFile_self⟩
    · exact .inl (by rw [ftable_setFile_of_ne hf, ftable_setFile_of_ne hf])

/-- Both struct files are given back. -/
theorem runs_giveBackBoth {u : PipeSys} {f0 f1 : Fid} (h : Took s u f0 f1)
    (hQ : ∀ t, Untouched s t → Q none t) :
    Runs p (do fileclose f0; fileclose f1; pure none) Q u := by
  refine runs_bind.mpr (runs_fileclose_none ?_ ?_ (runs_bind.mpr (runs_fileclose_none ?_ ?_
    (hQ _ (.of_ftable hs h.ofile h.free fun f => ?_)))))
  · rw [h.file0]
    rfl
  · rw [h.file0]
    exact hs f0 h.ref0
  · rw [ftable_setFile_of_ne h.ne.symm, h.file1]
    rfl
  · rw [ftable_setFile_of_ne h.ne.symm, h.file1]
    exact hs f1 h.ref1
  · by_cases hf1 : f = f1
    · subst hf1
      exact .inr ⟨h.ref1, _, ftable_setFile_self⟩
    by_cases hf0 : f = f0
    · subst hf0
      refine .inr ⟨h.ref0, u.fs.ftable f, ?_⟩
      rw [ftable_setFile_of_ne hf1, ftable_setFile_self]
    · exact .inl (by rw [ftable_setFile_of_ne hf1, ftable_setFile_of_ne hf0, h.others f hf0 hf1])

omit hs in
/-- The struct files become the ends of a pipe on a page from the free list. -/
theorem allocated_of_took {u t : PipeSys} {f0 f1 : Fid} (h : Took s u f0 f1) {v : Page}
    (hfree : s.free = v :: t.free) (hopen : t.pipes v = opened)
    (h0 : t.fs.ftable f0 = asEnd (u.fs.ftable f0) v true false)
    (h1 : t.fs.ftable f1 = asEnd (u.fs.ftable f1) v false true)
    (hothers : ∀ f, f ≠ f0 → f ≠ f1 → t.fs.ftable f = u.fs.ftable f) : Allocated s t f0 f1 v where
  ne := h.ne
  ref0 := h.ref0
  ref1 := h.ref1
  read := by
    rw [h0, h.file0]
    exact ⟨rfl, rfl, rfl, rfl, rfl⟩
  write := by
    rw [h1, h.file1]
    exact ⟨rfl, rfl, rfl, rfl, rfl⟩
  others f hf0 hf1 := (hothers f hf0 hf1).trans (h.others f hf0 hf1)
  free := hfree
  opened := hopen

/-- **`pipealloc`** makes a fresh pipe or leaves no trace. -/
theorem runs_pipealloc (hnone : ∀ t, Untouched s t → Q none t)
    (hsome : ∀ f0 f1 v t, Allocated s t f0 f1 v → t.fs.ofile = s.fs.ofile → Q (some (f0, f1)) t) :
    Runs p pipealloc Q s := by
  unfold pipealloc
  rw [runs_bind]
  refine runs_filealloc (hnone s ⟨rfl, fun _ => rfl, fun _ => rfl, rfl⟩) fun f0 href0 => ?_
  refine runs_bind.mpr (runs_filealloc (runs_giveBack hs href0 hnone) fun f1 href1 => ?_)
  have htook := took_setFile href0 href1
  generalize (s.setFile f0 _).setFile f1 _ = u at htook ⊢
  refine runs_bind.mpr (runs_kalloc (runs_giveBackBoth hs htook hnone) fun v vs hfree => ?_)
  refine runs_bind.mpr (runs_pipeInit (runs_bind.mpr (runs_setPipeFile (runs_bind.mpr
    (runs_setPipeFile (hsome f0 f1 v _ ?_ htook.ofile))))))
  refine allocated_of_took htook (htook.free.symm.trans hfree) (update_self ..) ?_ ?_
    fun f hf0 hf1 => ?_
  · rw [ftable_setFile_of_ne htook.ne, ftable_setFile_self]
  · rw [ftable_setFile_self, ftable_setFile_of_ne htook.ne.symm]
  · rw [ftable_setFile_of_ne hf1, ftable_setFile_of_ne hf0]

end Alloc

/-! ## The call -/

theorem Allocated.setFd {f0 f1 : Fid} {v : Page} (h : Allocated s t f0 f1 v) (p : Pid) (fd : Fd)
    (f : Option Fid) : Allocated s (t.setFd p fd f) f0 f1 v :=
  ⟨h.ne, h.ref0, h.ref1, h.read, h.write, h.others, h.free, h.opened⟩

theorem Allocated.recycled {f0 f1 : Fid} {v : Page} (h : Allocated s t f0 f1 v) (hs : s.Recycled) :
    t.Recycled := by
  intro f href
  by_cases hf0 : f = f0
  · rw [hf0, h.read.ref] at href
    exact absurd href (by decide)
  by_cases hf1 : f = f1
  · rw [hf1, h.write.ref] at href
    exact absurd href (by decide)
  rw [h.others f hf0 hf1] at href ⊢
  exact hs f href

theorem ofile_setFd {s : PipeSys} {p : Pid} {fd : Fd} {f : Option Fid} :
    (s.setFd p fd f).fs.ofile p = update (s.fs.ofile p) fd f := update_self ..

/-- A descriptor that was free is free again. -/
theorem ofile_setFd_none {s : PipeSys} {p : Pid} {fd : Fd} (h : s.fs.ofile p fd = none)
    (f : Option Fid) : ((s.setFd p fd f).setFd p fd none).fs.ofile = s.fs.ofile := by
  have hrow : update (update (s.fs.ofile p) fd f) fd none = s.fs.ofile p := by
    rw [update_idem, ← h, update_eq_self]
  show update (update s.fs.ofile p (update (s.fs.ofile p) fd f)) p
    (update (update s.fs.ofile p (update (s.fs.ofile p) fd f) p) fd none) =
      s.fs.ofile
  rw [update_self, update_idem, hrow, update_eq_self]

section Call

variable {p : Pid} {s : PipeSys}

theorem runs_argptr {i size : Int} {Q : Option Nat → PipeSys → Prop} (hnone : Q none s)
    (hsome : Q (some (toUint i)) s) : Runs p (argptr i size) Q s := by
  unfold argptr
  refine runs_bind.mpr (runs_procSz ?_)
  split
  · exact hnone
  · exact hsome

/-- **Both ends are closed**: the second `fileclose` frees the page. -/
theorem runs_closeEnds (hs : s.Recycled) {u : PipeSys} {f0 f1 : Fid} {v : Page}
    (h : Allocated s u f0 f1 v) (hofile : u.fs.ofile = s.fs.ofile) {Q : Int → PipeSys → Prop}
    (hQ : ∀ t, Untouched s t → Q (-1) t) :
    Runs p (do fileclose f0; fileclose f1; pure (-1)) Q u := by
  have hpipe : closed (close (u.pipes v) false) = false := by rw [h.opened]; rfl
  refine runs_bind.mpr (runs_fileclose_first h.read hpipe ?_)
  have hwrite : IsEnd ((u.setFile f0 (freed (u.fs.ftable f0))).fs.ftable f1) v false true := by
    rw [ftable_setFile_of_ne h.ne.symm]
    exact h.write
  have hlast : closed (close (update u.pipes v.val (close (u.pipes v) false) v.val) true) =
      true := by
    rw [update_self, h.opened]
    rfl
  refine runs_bind.mpr (runs_fileclose_last (s := { u.setFile f0 (freed (u.fs.ftable f0)) with
    pipes := update u.pipes v.val (close (u.pipes v) false) }) hwrite hlast
    (hQ _ (.of_ftable hs hofile h.free.symm fun f => ?_)))
  by_cases hf1 : f = f1
  · subst hf1
    exact .inr ⟨h.ref1, _, ftable_setFile_self⟩
  by_cases hf0 : f = f0
  · subst hf0
    refine .inr ⟨h.ref0, u.fs.ftable f, ?_⟩
    exact (update_of_ne hf1 ..).trans ftable_setFile_self
  · refine .inl ?_
    exact (update_of_ne hf1 ..).trans ((ftable_setFile_of_ne hf0).trans (h.others f hf0 hf1))

end Call

/-- **The call installed a pipe**: two descriptors that were free are the ends of a fresh pipe, and
their numbers are stored at `fdp`. -/
def Installed (p : Pid) (fdp : Nat) (s t : PipeSys) : Prop :=
  ∃ (fd0 fd1 : Fd) (f0 f1 : Fid) (v : Page), Allocated s t f0 f1 v ∧ fd0 ≠ fd1 ∧
    s.fs.ofile p fd0 = none ∧ s.fs.ofile p fd1 = none ∧
    t.fs.ofile p = update (update (s.fs.ofile p) fd0 (some f0)) fd1 (some f1) ∧
    le32 t.umem fdp = fd0 ∧ le32 t.umem (fdp + 4) = fd1

end PipeSys

/-- **The states between calls**: a struct file without references has the type that `fileclose`
leaves in it. -/
structure TidySys extends PipeSys where
  recycled : toPipeSys.Recycled

end Xv6
