import Xv6.Mem.Ownership
import Xv6.Vm.Rounds

/-! # The calls keep the invariant

Each call, run to completion from a state with the invariant, ends in one, and reaches no panic of
`kfree`; `exec` needs arguments that fit on the stack page. -/

namespace Xv6.Mem

open Lib Run Vm

open Function (update update_idem update_of_ne update_self)

/-- Any end of a run but a panic of `kfree`. -/
def NoKfree (x : Stop) : Prop := x ≠ .panic "kfree"

/-- **The invariant**, without its witnesses. -/
def Inv (e : KernelEnd) (b : Prop) (s : Sys) : Prop := ∃ own fl role, SysInv e b s own fl role

section

variable {e : KernelEnd} {b : Prop} {s t : Sys} {own own' : Nat → Owner} {fl fl' : List Nat}
  {role role' : Nat → Option Anchor} {E : Stop → Prop}

@[simp] theorem post_onPhys {α : Type} {m : VmM α} {Q : α → Sys → Prop} :
    Post (onPhys m) E Q s ↔ Post m E (fun r u => Q r (s.putPhys u)) s.phys :=
  post_zoom

variable {Q : Unit → Sys → Prop} {k : Nat} {u : Phys} {f₀ f₁ : Fid}

@[simp] theorem post_setProc {q : Pid} {f : Proc → Proc} :
    Post (setProc q f) E Q s ↔ Q () (s.putProc q (f (s.proc q))) :=
  post_modify

@[simp] theorem post_setFile {f : Fid} {g : PFile → PFile} :
    Post (setFile f g) E Q s ↔ Q () (s.putFile f (g (s.file f))) :=
  post_modify

/-! ## States -/

theorem Sys.putProc_self (s : Sys) (q : Pid) (x : Proc) : (s.putProc q x).proc q = x :=
  update_self ..

theorem Sys.putProc_of_ne (s : Sys) {q q' : Pid} (x : Proc) (h : q' ≠ q) :
    (s.putProc q x).proc q' = s.proc q' :=
  update_of_ne h ..

theorem Sys.putProc_putProc (s : Sys) (q : Pid) (x y : Proc) :
    (s.putProc q x).putProc q y = s.putProc q y := by
  unfold Sys.putProc
  rw [update_idem]

@[simp] theorem Sys.putProc_putPhys (s : Sys) (q : Pid) (x : Proc) (u : Phys) :
    (s.putProc q x).putPhys u = (s.putPhys u).putProc q x := rfl

@[simp] theorem Sys.putPhys_self (s : Sys) : s.putPhys s.phys = s := rfl

@[simp] theorem Sys.putPhys_putPhys (s : Sys) (u w : Phys) :
    (s.putPhys u).putPhys w = s.putPhys w := rfl

@[simp] theorem Sys.putPhys_proc (s : Sys) (u : Phys) : (s.putPhys u).proc = s.proc := rfl

theorem Sys.putFile_self (s : Sys) (f : Fid) (x : PFile) : (s.putFile f x).file f = x :=
  update_self ..

theorem Sys.putFile_of_ne (s : Sys) {f f' : Fid} (x : PFile) (h : f' ≠ f) :
    (s.putFile f x).file f' = s.file f' :=
  update_of_ne h ..

/-- `kfree` of an address in the kernel's data. -/
theorem post_kfreeAt {m : Phys} (h : Owned m own fl) {a : Nat} (ha : a = a / 4096 * 4096)
    (hp : own (a / 4096) = .held) {Q : Unit → Phys → Prop}
    (hQ : ∀ u, Owned u (update own (a / 4096) .free) (a / 4096 :: fl) → Q () u) :
    Post (kfree a) E Q m := by
  generalize hk : a / 4096 = k at *
  subst ha
  exact post_kfree h hp fun u _ hu => hQ u hu

/-! ## Changes that do not concern pages -/

/-- The files and pipes are the same, up to the counts of open files. -/
structure SameFiles (s t : Sys) : Prop where
  readopen : t.readopen = s.readopen
  writeopen : t.writeopen = s.writeopen
  type : ∀ f, (t.file f).type = (s.file f).type
  ref : ∀ f, (t.file f).ref = 0 → (s.file f).ref = 0
  writable : ∀ f, (t.file f).writable = (s.file f).writable
  pipe : ∀ f, (t.file f).pipe = (s.file f).pipe

/-- The invariant reads the same in both states. -/
structure SameUse (s t : Sys) : Prop where
  phys : t.phys = s.phys
  bootStack : t.bootStack = s.bootStack
  kpgdir : t.kpgdir = s.kpgdir
  proc : ∀ q, t.Used q → s.Used q ∧ (t.proc q).kstack = (s.proc q).kstack ∧
    (t.proc q).pgdir = (s.proc q).pgdir ∧ (t.proc q).sz = (s.proc q).sz
  files : SameFiles s t

theorem FileInv.congr (h : FileInv s) (hs : SameFiles s t) : FileInv t where
  closed f h0 := by
    rw [hs.type]
    exact h.closed f (hs.ref f h0)
  flag f hp := by
    rw [hs.type] at hp
    rw [hs.readopen, hs.writeopen, hs.writable, hs.pipe]
    exact h.flag f hp
  ends f f' := by
    rw [hs.type, hs.type, hs.writable, hs.writable, hs.pipe, hs.pipe]
    exact h.ends f f'

/-- The pipes that are open. -/
theorem FileInv.holds_pipe (h : FileInv s) {a : Nat} :
    s.Holds .pipe a ↔ ∃ f, (s.file f).type = .pipe ∧ (s.file f).pipe = a := by
  constructor
  · rintro ⟨f, hf, ha⟩
    exact ⟨f, hf.2, ha⟩
  · rintro ⟨f, hf, ha⟩
    refine ⟨f, ⟨fun h0 => ?_, hf⟩, ha⟩
    cases hf.symm.trans (h.closed f h0)

theorem SysInv.congr (h : SysInv e b s own fl role) (hs : SameUse s t) : SysInv e b t own fl role where
  owned := by
    rw [hs.phys]
    exact h.owned
  range := h.range
  holds x a ha := by
    refine h.holds x a ?_
    cases x with
    | bootStack => exact hs.bootStack.symm.trans ha
    | kstack q => exact ⟨(hs.proc q ha.1).1, (hs.proc q ha.1).2.1.symm.trans ha.2⟩
    | pgdir q =>
        cases q with
        | none => exact hs.kpgdir.symm.trans ha
        | some q => exact ⟨(hs.proc q ha.1).1, (hs.proc q ha.1).2.2.1.symm.trans ha.2⟩
    | pipe =>
        obtain ⟨f, ⟨-, htype⟩, hpipe⟩ := ha
        rw [hs.files.type] at htype
        rw [hs.files.pipe] at hpipe
        exact h.files.holds_pipe.mpr ⟨f, htype, hpipe⟩
  kind := h.kind
  space q hq := by
    obtain ⟨hused, -, hpgdir, hsz⟩ := hs.proc q hq
    exact (h.space q hused).congr hpgdir hsz
  files := h.files.congr hs.files

theorem Inv.congr (h : Inv e b s) (hs : SameUse s t) : Inv e b t := by
  obtain ⟨own, fl, role, h⟩ := h
  exact ⟨own, fl, role, h.congr hs⟩

/-- A process changes in what the invariant does not read. -/
theorem SameUse.putProc {q : Pid} {x : Proc} (hx : x.state ≠ .UNUSED → s.Used q ∧
    x.kstack = (s.proc q).kstack ∧ x.pgdir = (s.proc q).pgdir ∧ x.sz = (s.proc q).sz) :
    SameUse s (s.putProc q x) := by
  refine ⟨rfl, rfl, rfl, fun q' hq' => ?_, rfl, rfl, fun _ => rfl, fun _ h => h, fun _ => rfl,
    fun _ => rfl⟩
  by_cases he : q' = q
  · subst he
    unfold Sys.Used at hq'
    rw [Sys.putProc_self] at hq' ⊢
    exact hx hq'
  · unfold Sys.Used at hq'
    rw [Sys.putProc_of_ne _ _ he] at hq' ⊢
    exact ⟨hq', rfl, rfl, rfl⟩

/-- The count of an open file changes. -/
theorem SameUse.putRef {f : Fid} {n : Nat} (hn : n = 0 → (s.file f).ref = 0) :
    SameUse s (s.putFile f { s.file f with ref := n }) := by
  refine ⟨rfl, rfl, rfl, fun q hq => ⟨hq, rfl, rfl, rfl⟩, rfl, rfl, fun f' => ?_, fun f' h0 => ?_,
    fun f' => ?_, fun f' => ?_⟩ <;> by_cases he : f' = f
  · rw [he, Sys.putFile_self]
  · rw [Sys.putFile_of_ne _ _ he]
  · rw [he, Sys.putFile_self] at h0
    rw [he]
    exact hn h0
  · rwa [Sys.putFile_of_ne _ _ he] at h0
  · rw [he, Sys.putFile_self]
  · rw [Sys.putFile_of_ne _ _ he]
  · rw [he, Sys.putFile_self]
  · rw [Sys.putFile_of_ne _ _ he]

/-! ## `file.c` -/

/-- The state after the last reference to a file has been dropped. -/
def Sys.shut (s : Sys) (f : Fid) : Sys := s.putFile f { s.file f with ref := 0, type := .none }

theorem Sys.shut_type {f f' : Fid} (h : ((s.shut f).file f').type = .pipe) :
    f' ≠ f ∧ (s.shut f).file f' = s.file f' := by
  by_cases he : f' = f
  · rw [he, Sys.shut, Sys.putFile_self] at h
    cases h
  · exact ⟨he, Sys.putFile_of_ne _ _ he⟩

theorem FileInv.shut (h : FileInv s) (f : Fid) : FileInv (s.shut f) where
  closed f' h0 := by
    by_cases he : f' = f
    · rw [he, Sys.shut, Sys.putFile_self]
    · rw [Sys.shut, Sys.putFile_of_ne _ _ he] at h0 ⊢
      exact h.closed f' h0
  flag f' hp := by
    obtain ⟨-, he⟩ := Sys.shut_type hp
    rw [he] at hp ⊢
    exact h.flag f' hp
  ends f' f'' hp hp' := by
    obtain ⟨-, he⟩ := Sys.shut_type hp
    obtain ⟨-, he'⟩ := Sys.shut_type hp'
    rw [he] at hp ⊢
    rw [he'] at hp' ⊢
    exact h.ends f' f'' hp hp'

theorem SysInv.shut (h : SysInv e b s own fl role) (f : Fid) : SysInv e b (s.shut f) own fl role where
  owned := h.owned
  range := h.range
  holds x a ha := by
    refine h.holds x a ?_
    cases x with
    | pipe =>
        obtain ⟨f', ⟨hopen, htype⟩, hpipe⟩ := ha
        obtain ⟨-, he⟩ := Sys.shut_type htype
        rw [he] at hopen htype hpipe
        exact ⟨f', ⟨hopen, htype⟩, hpipe⟩
    | pgdir q =>
        cases q with
        | none => exact ha
        | some q => exact ha
    | _ => exact ha
  kind := h.kind
  space := h.space
  files := h.files.shut f

/-- A page that nothing points to is freed. -/
theorem SysInv.giveBack (h : SysInv e b s own fl role) (hk : own k = .held)
    (hno : ∀ x, ¬ s.Holds x (k * 4096)) (hu : Owned u (update own k .free) fl') :
    SysInv e b (s.putPhys u) (update own k .free) fl'
      (update role k none) where
  owned := hu
  range p hp := by
    by_cases he : p = k
    · rw [he]
      exact h.range k (by rw [hk]; exact nofun)
    · rw [update_of_ne he] at hp
      exact h.range p hp
  holds x a ha := by
    have ha' : s.Holds x a := by
      cases x with
      | pgdir q => cases q <;> exact ha
      | _ => exact ha
    obtain ⟨halign, hrole⟩ := h.holds x a ha'
    refine ⟨halign, ?_⟩
    rw [update_of_ne, hrole]
    rintro rfl
    rw [halign] at ha'
    exact hno x ha'
  kind p x hp := by
    by_cases he : p = k
    · rw [he, update_self] at hp
      cases hp
    · rw [update_of_ne he] at hp ⊢
      exact h.kind p x hp
  space q hq := (h.space q hq).same (.update (.inr hk) (.inl rfl))
  files := ⟨h.files.closed, h.files.flag, h.files.ends⟩

/-- The state after an end of a pipe has been closed. -/
def Sys.clear (s : Sys) (a : Nat) (w : Bool) : Sys :=
  { s with
    writeopen := if w then update s.writeopen a false else s.writeopen
    readopen := if w then s.readopen else update s.readopen a false }

theorem post_pipeclose {a : Nat} {w : Bool} :
    Post (pipeclose a w) E Q s ↔
      Post (if (s.clear a w).readopen a = false ∧ (s.clear a w).writeopen a = false then
        onPhys (kfree a) else pure ()) E Q (s.clear a w) := by
  cases w with
  | false =>
      rw [pipeclose, post_bind, if_neg (by decide), post_modify, post_bind, post_get]
      rfl
  | true =>
      rw [pipeclose, post_bind, if_pos rfl, post_modify, post_bind, post_get]
      rfl

/-- The invariant does not read the flags of a pipe without files. -/
theorem SysInv.clear (h : SysInv e b s own fl role) {a : Nat} {w : Bool}
    (hno : ∀ f, (s.file f).type = .pipe → (s.file f).pipe = a → (s.file f).writable ≠ w) :
    SysInv e b (s.clear a w) own fl role where
  owned := h.owned
  range := h.range
  holds x b hb := by
    refine h.holds x b ?_
    cases x with
    | pgdir q => cases q <;> exact hb
    | _ => exact hb
  kind := h.kind
  space := h.space
  files := by
    refine ⟨h.files.closed, fun f hp => ?_, h.files.ends⟩
    have hflag := h.files.flag f hp
    have hne := hno f hp
    show (if (s.file f).writable then (s.clear a w).writeopen else (s.clear a w).readopen)
      (s.file f).pipe = true
    cases hw : (s.file f).writable <;> cases w <;> rw [hw] at hflag hne
    · refine (update_of_ne ?_ _ _).trans hflag
      exact fun he => hne he rfl
    · exact hflag
    · exact hflag
    · refine (update_of_ne ?_ _ _).trans hflag
      exact fun he => hne he rfl

/-- The last file of an end of a pipe is closed. -/
theorem SysInv.pipeclose (h : SysInv e b s own fl role) {f : Fid} (htype : (s.file f).type = .pipe) :
    Post (pipeclose (s.file f).pipe (s.file f).writable) NoKfree
      (fun _ t => Inv e b t ∧ t.proc = s.proc) (s.shut f) := by
  have hhold : s.Holds .pipe (s.file f).pipe := h.files.holds_pipe.mpr ⟨f, htype, rfl⟩
  obtain ⟨halign, -⟩ := h.holds _ _ hhold
  have hown := h.own_eq hhold
  have hclear : SysInv e b ((s.shut f).clear (s.file f).pipe (s.file f).writable) own fl role := by
    refine (h.shut f).clear fun f' hp hpipe hw => ?_
    obtain ⟨hne, he⟩ := Sys.shut_type hp
    rw [he] at hp hpipe hw
    exact hne (h.files.ends f' f hp htype hpipe hw)
  rw [post_pipeclose]
  split
  · rename_i hflags
    have hno : ∀ x, ¬ ((s.shut f).clear (s.file f).pipe (s.file f).writable).Holds x
        ((s.file f).pipe / 4096 * 4096) := by
      intro x hx
      -- only files of the pipe could point to its page, and both ends are closed
      obtain rfl : x = .pipe := by
        have hrole := (h.holds _ _ hhold).2
        have hrole' := (hclear.holds x _ hx).2
        rw [Nat.mul_div_cancel _ (by decide)] at hrole'
        exact Option.some.inj (hrole'.symm.trans hrole)
      obtain ⟨f', hp, hpipe⟩ := hclear.files.holds_pipe.mp hx
      have hflag := hclear.files.flag f' hp
      rw [hpipe, ← halign] at hflag
      split at hflag
      · exact absurd (hflags.2.symm.trans hflag) (by decide)
      · exact absurd (hflags.1.symm.trans hflag) (by decide)
    rw [post_onPhys]
    exact post_kfreeAt hclear.owned halign hown fun u hu =>
      ⟨⟨_, _, _, hclear.giveBack hown hno hu⟩, rfl⟩
  · exact post_pure.mpr ⟨⟨own, fl, role, hclear⟩, rfl⟩

/-- **`fileclose`** keeps the invariant. -/
theorem Inv.fileclose (h : Inv e b s) (f : Fid) :
    Post (fileclose f) NoKfree (fun _ t => Inv e b t ∧ t.proc = s.proc) s := by
  obtain ⟨own, fl, role, hinv⟩ := h
  rw [Mem.fileclose, post_bind, post_get]
  dsimp only
  split
  · exact post_stop.mpr (by simp [NoKfree])
  · split
    · rw [post_setFile]
      exact ⟨⟨own, fl, role, hinv.congr (.putRef fun h0 => by omega)⟩, rfl⟩
    · rw [post_bind, post_setFile]
      split
      · rename_i htype
        exact hinv.pipeclose htype
      · exact post_pure.mpr ⟨⟨own, fl, role, hinv.shut f⟩, rfl⟩

theorem post_filealloc {Q : Option Fid → Sys → Prop} (hnone : Q none s)
    (hsome : ∀ f, (s.file f).ref = 0 → Q (some f) (s.putFile f { s.file f with ref := 1 })) :
    Post filealloc E Q s := by
  rw [filealloc, post_bind, post_get]
  split
  · exact post_pure.mpr hnone
  · rename_i f hf
    rw [post_bind, post_setFile, post_pure]
    have hzero := List.find?_some hf
    exact hsome f (of_decide_eq_true hzero)

/-- The state after a pipe has been made at the page `k`. -/
def Sys.newPipe (s : Sys) (u : Phys) (k : Nat) (f₀ f₁ : Fid) : Sys :=
  (({ s with
      phys := u
      readopen := update s.readopen (k * 4096) true
      writeopen := update s.writeopen (k * 4096) true }.putFile f₀
    { s.file f₀ with type := .pipe, writable := false, pipe := k * 4096 }).putFile f₁
    { s.file f₁ with type := .pipe, writable := true, pipe := k * 4096 })

theorem Sys.newPipe_file (hne : f₀ ≠ f₁) :
    (s.newPipe u k f₀ f₁).file f₀ =
        { s.file f₀ with type := .pipe, writable := false, pipe := k * 4096 } ∧
      (s.newPipe u k f₀ f₁).file f₁ =
        { s.file f₁ with type := .pipe, writable := true, pipe := k * 4096 } ∧
      ∀ f, f ≠ f₀ → f ≠ f₁ → (s.newPipe u k f₀ f₁).file f = s.file f := by
  refine ⟨?_, Sys.putFile_self .., fun f h₀ h₁ => ?_⟩
  · rw [Sys.newPipe, Sys.putFile_of_ne _ _ hne, Sys.putFile_self]
  · rw [Sys.newPipe, Sys.putFile_of_ne _ _ h₁, Sys.putFile_of_ne _ _ h₀]

/-- The files of a new pipe. -/
theorem FileInv.newPipe (h : FileInv s) (hne : f₀ ≠ f₁) (h₀ : (s.file f₀).ref ≠ 0)
    (h₁ : (s.file f₁).ref ≠ 0) (hnew : ∀ f, (s.file f).type = .pipe → (s.file f).pipe ≠ k * 4096) :
    FileInv (s.newPipe u k f₀ f₁) := by
  obtain ⟨he₀, he₁, he⟩ := s.newPipe_file (u := u) (k := k) hne
  have hcases : ∀ f, f = f₀ ∨ f = f₁ ∨ f ≠ f₀ ∧ f ≠ f₁ := fun f => by tauto
  have hpipe : ∀ f, f ≠ f₀ ∧ f ≠ f₁ → ((s.newPipe u k f₀ f₁).file f).type = .pipe →
      ((s.newPipe u k f₀ f₁).file f).pipe ≠ k * 4096 := by
    intro f hf hp
    rw [he f hf.1 hf.2] at hp ⊢
    exact hnew f hp
  refine ⟨fun f h0 => ?_, fun f hp => ?_, fun f f' hp hp' hpe hw => ?_⟩
  · rcases hcases f with rfl | rfl | hf
    · rw [he₀] at h0
      exact absurd h0 h₀
    · rw [he₁] at h0
      exact absurd h0 h₁
    · rw [he f hf.1 hf.2] at h0 ⊢
      exact h.closed f h0
  · rcases hcases f with rfl | rfl | hf
    · rw [he₀]
      exact update_self ..
    · rw [he₁]
      exact update_self ..
    · have hk := hpipe f hf hp
      rw [he f hf.1 hf.2] at hp hk ⊢
      have hflag := h.flag f hp
      have hr : (s.newPipe u k f₀ f₁).readopen (s.file f).pipe = s.readopen (s.file f).pipe :=
        update_of_ne hk ..
      have hwr : (s.newPipe u k f₀ f₁).writeopen (s.file f).pipe = s.writeopen (s.file f).pipe :=
        update_of_ne hk ..
      split
      · rename_i hw
        rw [if_pos hw] at hflag
        rw [hwr, hflag]
      · rename_i hw
        rw [if_neg hw] at hflag
        rw [hr, hflag]
  · rcases hcases f with rfl | rfl | hf <;> rcases hcases f' with rfl | rfl | hf'
    · rfl
    · rw [he₀, he₁] at hw
      cases hw
    · rw [he₀] at hpe
      exact absurd hpe.symm (hpipe f' hf' hp')
    · rw [he₀, he₁] at hw
      cases hw
    · rfl
    · rw [he₁] at hpe
      exact absurd hpe.symm (hpipe f' hf' hp')
    · rw [he₀] at hpe
      exact absurd hpe (hpipe f hf hp)
    · rw [he₁] at hpe
      exact absurd hpe (hpipe f hf hp)
    · rw [he f hf.1 hf.2] at hp hpe hw
      rw [he f' hf'.1 hf'.2] at hp' hpe hw
      exact h.ends f f' hp hp' hpe hw

/-- A free page has no role. -/
theorem SysInv.role_ne (h : SysInv e b s own fl role) (hk : own k = .free) (x : Anchor) :
    role k ≠ some x := fun hrole =>
  x.owner_ne_free ((h.kind k x hrole).symm.trans hk)

theorem SysInv.range_take (h : SysInv e b s own fl role) (hk : own k = .free) {o : Owner} {p : Nat}
    (hp : update own k o p ≠ .none) : e.page ≤ p := by
  by_cases he : p = k
  · rw [he]
    exact h.range k (by rw [hk]; exact nofun)
  · rw [update_of_ne he] at hp
    exact h.range p hp

/-- A page is taken for a new pipe. -/
theorem SysInv.newPipe (h : SysInv e b s own fl role) (hk : own k = .free)
    (hu : Owned u (update own k .held) fl') (hne : f₀ ≠ f₁) (h₀ : (s.file f₀).ref ≠ 0)
    (h₁ : (s.file f₁).ref ≠ 0) :
    SysInv e b (s.newPipe u k f₀ f₁) (update own k .held) fl'
      (update role k (some .pipe)) := by
  have hold : ∀ x a, s.Holds x a →
      a = a / 4096 * 4096 ∧ update role k (some .pipe) (a / 4096) = some x := by
    intro x a ha
    obtain ⟨halign, hrole⟩ := h.holds x a ha
    refine ⟨halign, ?_⟩
    rw [update_of_ne, hrole]
    intro he
    rw [he] at hrole
    exact h.role_ne hk x hrole
  have hnew : ∀ f, (s.file f).type = .pipe → (s.file f).pipe ≠ k * 4096 := by
    intro f hp he
    have hrole := (h.holds .pipe _ (h.files.holds_pipe.mpr ⟨f, hp, rfl⟩)).2
    rw [he, Nat.mul_div_cancel _ (by decide)] at hrole
    exact h.role_ne hk .pipe hrole
  have hfiles := h.files.newPipe (u := u) hne h₀ h₁ hnew
  refine ⟨hu, fun p hp => h.range_take hk hp, fun x a ha => ?_, fun p x hp => ?_, fun q hq => ?_,
    hfiles⟩
  · cases x with
    | pgdir q => cases q <;> exact hold _ a ha
    | pipe =>
        obtain ⟨f, hp, hpipe⟩ := hfiles.holds_pipe.mp ha
        obtain ⟨he₀, he₁, he⟩ := s.newPipe_file (u := u) (k := k) hne
        by_cases hf₀ : f = f₀
        · rw [hf₀, he₀] at hpipe
          subst hpipe
          rw [Nat.mul_div_cancel _ (by decide), update_self]
          exact ⟨rfl, rfl⟩
        · by_cases hf₁ : f = f₁
          · rw [hf₁, he₁] at hpipe
            subst hpipe
            rw [Nat.mul_div_cancel _ (by decide), update_self]
            exact ⟨rfl, rfl⟩
          · rw [he f hf₀ hf₁] at hp hpipe
            exact hold .pipe a (h.files.holds_pipe.mpr ⟨f, hp, hpipe⟩)
    | _ => exact hold _ a ha
  · by_cases he : p = k
    · rw [he, update_self] at hp ⊢
      rw [← Option.some.inj hp]
      rfl
    · rw [update_of_ne he] at hp ⊢
      exact h.kind p x hp
  · exact (h.space q hq).same (.update (.inl hk) (.inr rfl))

/-- **`pipealloc`** keeps the invariant. -/
theorem Inv.pipealloc (h : Inv e b s) :
    Post pipealloc NoKfree (fun _ t => Inv e b t ∧ t.proc = s.proc) s := by
  rw [Mem.pipealloc, post_bind]
  refine post_filealloc (post_pure.mpr ⟨h, rfl⟩) fun f₀ h₀ => ?_
  have hs₀ : Inv e b (s.putFile f₀ { s.file f₀ with ref := 1 }) := h.congr (.putRef nofun)
  have hf₀ : ((s.putFile f₀ { s.file f₀ with ref := 1 }).file f₀).ref = 1 := by
    rw [Sys.putFile_self]
  have hp₀ : (s.putFile f₀ { s.file f₀ with ref := 1 }).proc = s.proc := rfl
  generalize s.putFile f₀ { s.file f₀ with ref := 1 } = s₀ at hs₀ hf₀ hp₀
  dsimp only
  rw [post_bind]
  refine post_filealloc ?_ fun f₁ h₁ => ?_
  · rw [post_bind]
    refine (hs₀.fileclose f₀).mono (fun _ he => he) fun _ t ht => post_pure.mpr ?_
    exact ⟨ht.1, ht.2.trans hp₀⟩
  · have hne : f₀ ≠ f₁ := by
      rintro rfl
      omega
    have hs₁ : Inv e b (s₀.putFile f₁ { s₀.file f₁ with ref := 1 }) := hs₀.congr (.putRef nofun)
    have hf₁ : ((s₀.putFile f₁ { s₀.file f₁ with ref := 1 }).file f₁).ref = 1 := by
      rw [Sys.putFile_self]
    have hf₀' : ((s₀.putFile f₁ { s₀.file f₁ with ref := 1 }).file f₀).ref = 1 := by
      rw [Sys.putFile_of_ne _ _ hne, hf₀]
    have hp₁ : (s₀.putFile f₁ { s₀.file f₁ with ref := 1 }).proc = s.proc := hp₀
    generalize s₀.putFile f₁ { s₀.file f₁ with ref := 1 } = s₁ at hs₁ hf₁ hf₀' hp₁
    obtain ⟨own, fl, role, hinv⟩ := hs₁
    dsimp only
    rw [post_bind, post_onPhys]
    refine post_kalloc hinv.owned (fun _ => ?_) fun k fl' u hfl _ hu => ?_
    · dsimp only
      rw [post_bind]
      refine (Inv.fileclose ⟨own, fl, role, hinv⟩ f₀).mono (fun _ he => he) fun _ t ht => ?_
      rw [post_bind]
      refine (ht.1.fileclose f₁).mono (fun _ he => he) fun _ t' ht' => post_pure.mpr ?_
      exact ⟨ht'.1, ht'.2.trans (ht.2.trans hp₁)⟩
    · dsimp only
      have hk : own k = .free := hinv.owned.head_free hfl
      have hpipe := hinv.newPipe hk hu hne (by omega) (by omega)
      simp only [post_bind, post_modify, post_setFile, post_pure, Sys.putFile_of_ne _ _ hne.symm]
      exact ⟨⟨_, _, _, hpipe⟩, hp₁⟩

/-! ## `pipe`, `close` and `exit` -/

/-- An open descriptor changes. -/
theorem SameUse.putOfile {q : Pid} {f : Fd → Option Fid} :
    SameUse s (s.putProc q { s.proc q with ofile := f }) :=
  .putProc fun hused => ⟨hused, rfl, rfl, rfl⟩

theorem post_fdalloc {p : Pid} {f : Fid} {Q : Option Fd → Sys → Prop} (hnone : Q none s)
    (hsome : ∀ fd, Q (some fd) (s.putProc p
      { s.proc p with ofile := update (s.proc p).ofile fd (some f) })) :
    Post (fdalloc p f) E Q s := by
  rw [fdalloc, post_bind, post_get]
  split
  · exact post_pure.mpr hnone
  · rename_i fd _
    rw [post_bind, post_setProc, post_pure]
    exact hsome fd

/-- Both files of a pipe are closed. -/
theorem Inv.closeBoth (h : Inv e b s) (f f' : Fid) :
    Post (do
      Mem.fileclose f
      Mem.fileclose f'
      pure false) NoKfree (fun _ t => Inv e b t) s := by
  rw [post_bind]
  refine (h.fileclose f).mono (fun _ he => he) fun _ t ht => ?_
  rw [post_bind]
  exact (ht.1.fileclose f').mono (fun _ he => he) fun _ t' ht' => post_pure.mpr ht'.1

/-- **`pipe`** keeps the invariant. -/
theorem Inv.sysPipe (h : Inv e b s) (p : Pid) : Post (sysPipe p) NoKfree (fun _ t => Inv e b t) s := by
  rw [Mem.sysPipe, post_bind]
  refine h.pipealloc.mono (fun _ he => he) fun r t ht => ?_
  cases r with
  | none => exact post_pure.mpr ht.1
  | some r =>
      obtain ⟨rf, wf⟩ := r
      dsimp only
      rw [post_bind]
      refine post_fdalloc (ht.1.closeBoth rf wf) fun fd₀ => ?_
      have h₀ := ht.1.congr (.putOfile (q := p) (f := update (t.proc p).ofile fd₀ (some rf)))
      dsimp only
      rw [post_bind]
      refine post_fdalloc ?_ fun fd₁ => post_pure.mpr (h₀.congr .putOfile)
      dsimp only
      rw [post_bind, post_setProc]
      exact (h₀.congr .putOfile).closeBoth rf wf

/-- **`close`** keeps the invariant. -/
theorem Inv.sysClose (h : Inv e b s) (p : Pid) (fd : Fd) :
    Post (sysClose p fd) NoKfree (fun _ t => Inv e b t) s := by
  rw [Mem.sysClose, post_bind, post_get]
  split
  · exact post_pure.mpr h
  · rename_i f _
    rw [post_bind, post_setProc, post_bind]
    exact ((h.congr .putOfile).fileclose f).mono (fun _ he => he) fun _ t ht => post_pure.mpr ht.1

theorem Inv.closeFiles (h : Inv e b s) (p : Pid) (fds : List Fd) :
    Post (closeFiles p fds) NoKfree
      (fun _ t => Inv e b t ∧ ∀ q, (t.proc q).state = (s.proc q).state) s := by
  induction fds generalizing s with
  | nil => exact post_pure.mpr ⟨h, fun _ => rfl⟩
  | cons fd fds ih =>
      rw [Mem.closeFiles, post_bind, post_get, post_bind]
      split
      · exact post_pure.mpr (ih h)
      · rename_i f _
        rw [post_bind]
        refine (h.fileclose f).mono (fun _ he => he) fun _ t ht => ?_
        rw [post_setProc]
        refine (ih (ht.1.congr .putOfile)).mono (fun _ he => he) fun _ u hu => ⟨hu.1, fun q => ?_⟩
        rw [hu.2 q, ← ht.2]
        by_cases hq : q = p
        · rw [hq, Sys.putProc_self]
        · rw [Sys.putProc_of_ne _ _ hq]

/-- **`exit`** keeps the invariant. -/
theorem Inv.exit (h : Inv e b s) {p : Pid} (hp : s.Used p) :
    Post (exit p) NoKfree (fun _ t => Inv e b t) s := by
  unfold Mem.exit
  split
  · exact post_stop.mpr (by simp [NoKfree])
  · rw [post_bind]
    refine (h.closeFiles p _).mono (fun _ he => he) fun _ t ht => ?_
    have hused : t.Used p := by
      unfold Sys.Used
      rw [ht.2 p]
      exact hp
    rw [post_bind, post_modify, post_setProc]
    have hparent : SameUse t { t with proc := fun q => if (t.proc q).parent = some p then
        { t.proc q with parent := some initproc } else t.proc q } := by
      refine ⟨rfl, rfl, rfl, fun q hq => ?_, rfl, rfl, fun _ => rfl, fun _ h => h, fun _ => rfl,
        fun _ => rfl⟩
      dsimp only [Sys.Used] at hq ⊢
      split at hq <;> simp_all
    refine (ht.1.congr hparent).congr (.putProc fun _ => ⟨?_, rfl, rfl, rfl⟩)
    dsimp only [Sys.Used]
    split
    · exact hused
    · exact hused

end

end Xv6.Mem
