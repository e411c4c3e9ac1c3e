import Xv6.Vm.Touch

/-! # `exec` on the memory

The code of `exec` run on the physical memory, with the inode of the executable reduced to its
reference count and its flag `I_BUSY`. Without any condition on the executable, and with arguments
that fit on the stack page, `exec` only takes pages that were free, and never frees a page that is
not its own. -/

namespace Xv6.Vm

open Lib Run

/-! ## The operations -/

/-- The memory, the executable's inode and the process that calls `exec`. -/
structure ExecState where
  phys : Phys
  /-- `ip->ref`. -/
  ref : Nat
  /-- `I_BUSY` in `ip->flags`. -/
  busy : Bool
  /-- `proc->pgdir`. -/
  pgdir : Nat
  /-- `proc->sz`. -/
  sz : Nat
  /-- `proc->name`. -/
  name : List UInt8
  /-- `proc->tf->spc`. -/
  spc : Nat
  /-- `proc->tf->sgr`. -/
  sgr : Nat

/-- A computation of `exec`. -/
abbrev ExecM : Type → Type := Run Stop ExecState

/-- A computation on the memory. -/
def onPhys {α : Type} (m : VmM α) : ExecM α := zoom ExecState.phys (fun u x => { x with phys := u }) m

/-- `readi` of a file with the given content. -/
def readAt (content : List UInt8) (off n : Nat) : Int × List UInt8 :=
  if content.length < off ∨ (off + n) % 4294967296 < off then (-1, [])
  else ((((content.drop off).take n).length : Nat), (content.drop off).take n)

/-- The entry at `walkpgdir(pgdir, va, 0)`. -/
def pteAt (pgdir va : Nat) : VmM (Option Nat) := do
  let r ← walkpgdir pgdir va false
  match r with
  | none => pure none
  | some a => do
      let v ← load a
      pure (some v)

/-- `ilock(ip)`. -/
def lockInode : ExecM Unit := do
  let x ← get
  if x.ref < 1 then Run.stop (.panic "ilock")
  else if x.busy then Run.stop .loop
  else modify fun x => { x with busy := true }

/-- `iunlockput(ip)`. -/
def unlockputInode : ExecM Unit := do
  let x ← get
  if x.busy = false ∨ x.ref < 1 then Run.stop (.panic "iunlock")
  else modify fun x => { x with busy := false, ref := x.ref - 1 }

/-- **The operations of `exec`** on the memory. `file` is the content of the executable, if there is
one. -/
def imageOps (file : Option (List UInt8)) (fuel : Nat) : ExecOps ExecM Unit where
  namei _ :=
    match file with
    | none => pure none
    | some _ => do
        modify fun x => { x with ref := x.ref + 1 }
        pure (some ())
  ilock _ := lockInode
  readi _ off n := pure (readAt (file.getD []) off n)
  iunlockput _ := unlockputInode
  setupkvm := onPhys setupkvm
  allocuvm pgdir oldsz newsz := onPhys (allocuvm fuel pgdir oldsz newsz)
  pte pgdir va := onPhys (pteAt pgdir va)
  store pa bytes := onPhys (store pa bytes)
  freevm pgdir := onPhys (freevm fuel pgdir)
  commit pgdir sz name entry sp _ _ := do
    let x ← get
    modify fun x => { x with pgdir := pgdir, sz := sz, name := name, spc := entry, sgr := sp }
    pure x.pgdir
  switchuvm := do
    let x ← get
    onPhys (switchuvm fuel x.pgdir)
  panic msg := Run.stop (.panic msg)

/-- `exec` of an executable. -/
def execImage (file : Option (List UInt8)) (fuel : Nat) (path : List UInt8)
    (argv : List (List UInt8)) : ExecM Int :=
  exec (imageOps file fuel) path argv

/-- The arguments fit on the stack page. -/
def ArgsFit (argv : List (List UInt8)) : Prop := argLen argv + 4 * (argv.length + 1) ≤ PGSIZE

/-! ## Single operations -/

section

variable {s : Phys} {own : Nat → Owner} {fl : List Nat} {E : Stop → Prop} {d : Nat} {x : ExecState}

@[simp] theorem post_onPhys {α : Type} {m : VmM α} {Q : α → ExecState → Prop} :
    Post (onPhys m) E Q x ↔ Post m E (fun r u => Q r { x with phys := u }) x.phys :=
  post_zoom

variable {file : Option (List UInt8)} {s₀ : Phys} {fl₀ : List Nat} {own₀ : Nat → Owner}
  {argv : List (List UInt8)} {Q : Int → ExecState → Prop} {path : List UInt8} {own' : Nat → Owner}

theorem imageOps_readi {fuel off n : Nat} :
    (imageOps file fuel).readi () off n = pure (readAt (file.getD []) off n) := rfl

theorem imageOps_store {fuel pa : Nat} {bytes : List UInt8} :
    (imageOps file fuel).store pa bytes = onPhys (store pa bytes) := rfl

theorem imageOps_pte {fuel pgdir va : Nat} :
    (imageOps file fuel).pte pgdir va = onPhys (pteAt pgdir va) := rfl

theorem imageOps_allocuvm {fuel pgdir oldsz newsz : Nat} :
    (imageOps file fuel).allocuvm pgdir oldsz newsz = onPhys (allocuvm fuel pgdir oldsz newsz) := rfl

theorem imageOps_freevm {fuel pgdir : Nat} :
    (imageOps file fuel).freevm pgdir = onPhys (freevm fuel pgdir) := rfl

theorem length_readAt (content : List UInt8) (off n : Nat) : (readAt content off n).2.length ≤ n := by
  unfold readAt
  split
  · exact Nat.zero_le n
  · exact (List.length_take_le _ _)

/-- The entry of a page. -/
theorem post_pteAt (h : Owned s own fl) (hd : own d = .dir) {v : Nat} (hv : v < 1048576)
    {Q : Option Nat → Phys → Prop} (hpage : ∀ q, own q = .page d v → Q (some (pteOf q)) s)
    (hzero : (∀ q, own q ≠ .page d v) → Tabbed own d v → Q (some 0) s)
    (hnone : ¬ Tabbed own d v → Q none s) : Post (pteAt (d * 4096) (v * 4096)) E Q s := by
  have hj : v % 1024 < 1024 := by omega
  have hsplit : 1024 * (v / 1024) + v % 1024 = v := by omega
  rw [pteAt, post_bind]
  refine post_walkpgdir h hd hv (fun t ht => ?_) fun hno =>
    post_pure.mpr (hnone fun ⟨t, ht⟩ => hno t ht)
  have hentry : le32 s.mem (t * 4096 + 4 * (v % 1024)) = entry s.mem t (v % 1024) := rfl
  have htab := h.tab t d _ _ ht hj
  rw [hsplit] at htab
  rw [post_bind, post_load, hentry, post_pure]
  rcases htab with ⟨q, hq, he⟩ | ⟨hno, he⟩
  · rw [he]
    exact hpage q hq
  · rw [he]
    exact hzero hno ⟨t, ht⟩

/-- A page that `exec` writes to: a page of an address space, or the page zero. -/
theorem Owned.not_pinned_zero (h : Owned s own fl) : ¬ (own 0).pinned := by
  intro hp
  have hne : own 0 ≠ .none := by
    intro h0
    rw [h0] at hp
    exact hp
  have := h.valid 0 hne
  omega

/-- A store inside a page that is not pinned. -/
theorem Owned.store (h : Owned s own fl) {p : Nat} (hp : ¬ (own p).pinned) (off : Nat)
    (bs : List UInt8) (hlen : off + bs.length ≤ 4096) : Owned { s with mem := put s.mem (p * 4096 + off) bs } own fl :=
  h.write hp (agreeOff_put hlen)

/-! ## Loading the segments -/

/-- One round of the loop of `loaduvm`, up to the test of the length. -/
theorem post_loadPage {fuel offset len pte q : Nat} (h : Owned x.phys own fl)
    (hq : pteAddr pte = q * 4096) (hpin : ¬ (own q).pinned) (hlen : len ≤ 4096) {α : Type}
    {f : Int → ExecM α} {Q : α → ExecState → Prop}
    (hQ : ∀ u, Owned u own fl → Post (f (readAt (file.getD []) offset len).1) E Q
      { x with phys := u }) :
    Post (do
      let (r, bytes) ← (imageOps file fuel).readi () offset len
      (imageOps file fuel).store (pteAddr pte) bytes
      f r) E Q x := by
  have hread := length_readAt (file.getD []) offset len
  rw [imageOps_readi, post_bind, post_pure]
  generalize readAt (file.getD []) offset len = rd at hread hQ
  obtain ⟨r, bytes⟩ := rd
  dsimp only at hread hQ ⊢
  rw [imageOps_store, post_bind, post_onPhys, post_store, hq]
  have hstore := h.store hpin 0 bytes (by omega)
  rw [Nat.add_zero] at hstore
  exact hQ _ hstore

/-- The loop of `loaduvm` writes to pages of the address space only. -/
theorem post_loaduvmLoop {fuel addr offset sz n i : Nat} (h : Owned x.phys own fl)
    (hd : own d = .dir) (haddr : addr % 4096 = 0) (hi : i % 4096 = 0)
    (hE : E (.panic "loaduvm: address should exist\n")) {Q : Bool → ExecState → Prop}
    (hQ : ∀ r u, Owned u own fl → Q r { x with phys := u }) :
    Post (loaduvmLoop (imageOps file fuel) (d * 4096) addr () offset sz n i) E Q x := by
  induction n generalizing x i with
  | zero => exact post_pure.mpr (hQ true x.phys h)
  | succ n ih =>
      rw [loaduvmLoop]
      split
      · have hpage : (addr + i) % 4294967296 = (addr + i) % 4294967296 / 4096 * 4096 ∧
            (addr + i) % 4294967296 / 4096 < 1048576 := by omega
        have hnext : ∀ pte, (∃ q, pteAddr pte = q * 4096 ∧ ¬ (own q).pinned) →
            Post (do
              let len := if sz - i < PGSIZE then sz - i else PGSIZE
              let (r, bytes) ← (imageOps file fuel).readi () ((offset + i) % 4294967296) len
              (imageOps file fuel).store (pteAddr pte) bytes
              if toUint r ≠ len then pure false
              else loaduvmLoop (imageOps file fuel) (d * 4096) addr () offset sz n (i + PGSIZE))
              E Q x := by
          rintro pte ⟨q, hq, hpin⟩
          have hle : (if sz - i < PGSIZE then sz - i else PGSIZE) ≤ 4096 := by
            unfold PGSIZE
            split <;> omega
          dsimp only
          generalize (if sz - i < PGSIZE then sz - i else PGSIZE) = len at hle
          refine post_loadPage h hq hpin hle (f := fun r => if toUint r ≠ len then pure false
            else loaduvmLoop (imageOps file fuel) (d * 4096) addr () offset sz n (i + PGSIZE))
            fun u hu => ?_
          split
          · exact post_pure.mpr (hQ false u hu)
          · exact ih hu (by unfold PGSIZE; omega) fun r w hw => hQ r w hw
        rw [post_bind, imageOps_pte, post_onPhys, hpage.1]
        refine post_pteAt h hd hpage.2 (fun q hq => ?_) (fun _ _ => ?_) fun _ => post_stop.mpr hE
        · refine hnext _ ⟨q, pteAddr_pteOf q, ?_⟩
          rw [hq]
          exact id
        · exact hnext 0 ⟨0, rfl, h.not_pinned_zero⟩
      · exact post_pure.mpr (hQ true x.phys h)

/-- The address space that `exec` is building, when `sz` bytes have been allocated. -/
structure Building (own₀ own : Nat → Owner) (fl₀ : List Nat) (d sz : Nat) : Prop where
  built : Built own₀ own fl₀ d
  dir : own d = .dir
  bounded : Bounded own d (pagesOf sz)
  le : sz ≤ USERTOP

theorem Built.touch {own₀ own' : Nat → Owner} (h₀ : Owned s₀ own₀ fl₀) (h : Built own₀ own fl₀ d)
    (ht : Touch own own' d) : Built own₀ own' fl₀ d := by
  have hdfree := (h₀.free d).mp h.mem
  refine ⟨h.mem, fun p hp => ?_, fun p hp => ?_⟩
  · rcases ht p with he | ⟨hb, -⟩
    · rw [he, h.off p hp]
    · rw [h.off p hp] at hb
      rcases hb with hb | hb
      · exact absurd ((h₀.free p).mpr hb) hp
      · rw [h₀.not_ofSpace (by rw [hdfree]; exact Owner.noConfusion)] at hb
        cases hb
  · rcases ht p with he | ⟨-, ha⟩
    · rw [he]
      exact h.on p hp
    · rcases ha with ha | ha | ha
      · exact .inr (.inl ha)
      · exact .inr (.inr (.inl ha))
      · exact .inr (.inr (.inr ha))

/-- **The loop of `exec` over the program headers.** -/
theorem post_execLoad {fuel n off sz : Nat} (h₀ : Owned s₀ own₀ fl₀)
    (hE : ∀ e, e ≠ .panic "kfree" → E e) (hfuel : 524288 < fuel) (h : Owned x.phys own fl)
    (hb : Building own₀ own fl₀ d sz) {Q : Option Nat → ExecState → Prop}
    (hQ : ∀ r own' fl' u sz', Owned u own' fl' → Building own₀ own' fl₀ d sz' →
      r = none ∨ r = some sz' → Q r { x with phys := u }) :
    Post (execLoad (imageOps file fuel) (d * 4096) () n off sz) E Q x := by
  induction n generalizing x own fl off sz with
  | zero => exact post_pure.mpr (hQ (some sz) own fl x.phys sz h hb (.inr rfl))
  | succ n ih =>
      have hbad : ∀ own' fl' u sz', Owned u own' fl' → Building own₀ own' fl₀ d sz' →
          Q none { x with phys := u } := fun own' fl' u sz' hu hb' =>
        hQ none own' fl' u sz' hu hb' (.inl rfl)
      rw [execLoad]
      rw [imageOps_readi, post_bind, post_pure]
      generalize readAt (file.getD []) off PROGHDR = rd
      obtain ⟨r, bytes⟩ := rd
      dsimp only
      generalize proghdrOf bytes = ph
      split
      · exact post_pure.mpr (hbad own fl x.phys sz h hb)
      · split
        · exact ih h hb hQ
        · split
          · exact post_pure.mpr (hbad own fl x.phys sz h hb)
          · rw [imageOps_allocuvm, post_bind, post_onPhys]
            by_cases hzero : (ph.va + ph.memsz) % 4294967296 = 0
            · rw [hzero]
              exact post_allocuvm_zero h hb.dir (by omega) (hE _ nofun) (hE _ (by simp))
            · refine post_allocuvm_touch h hb.dir hb.bounded hb.le (by omega) hfuel
                (fun _ => ?_) (fun htop own' fl' u hu ht hb' => ?_)
                fun _ own' fl' u hu ht hp _ _ => ?_
              · rw [if_pos rfl]
                exact post_pure.mpr (hbad own fl x.phys sz h hb)
              · have hbuild : Building own₀ own' fl₀ d
                    (max sz ((ph.va + ph.memsz) % 4294967296)) :=
                  ⟨hb.built.touch h₀ ht, ht.dir hb.dir, hb', max_le hb.le htop⟩
                rw [if_neg (by omega), post_bind, loaduvm]
                split
                · exact post_stop.mpr (hE _ (by simp))
                · rename_i halign
                  refine post_loaduvmLoop hu hbuild.dir (by unfold PGSIZE at halign; omega) rfl
                    (hE _ (by simp)) fun ok w hw => ?_
                  split
                  · exact ih hw hbuild hQ
                  · exact post_pure.mpr (hbad own' fl' w _ hw hbuild)
              · rw [if_pos rfl]
                refine post_pure.mpr
                  (hbad own' fl' u sz hu ⟨hb.built.touch h₀ ht, ht.dir hb.dir, ?_, hb.le⟩)
                exact fun q v hq => hb.bounded q v ((hp q v).mp hq)

/-! ## The stack -/

/-- The stores of the loop that copies the arguments. -/
def pushStores (mem spbottom argp : Nat) : List (List UInt8) → (sp : Nat) → List (Nat × List UInt8)
  | [], _ => []
  | a :: rest, sp =>
      let sp := (sp + 4294967296 - (a.length + 1)) % 4294967296
      ((mem + sp + 4294967296 - spbottom) % 4294967296, a ++ [0]) ::
        ((mem + argp + 4294967296 - spbottom + 4 * rest.length) % 4294967296, bytes32 sp) ::
        pushStores mem spbottom argp rest sp

/-- `argp`, for an address space of size `sz`. -/
def argpOf (sz : Nat) (argv : List (List UInt8)) : Nat :=
  (sz + 2 * 4294967296 - argLen argv - 4 * (argv.length + 1)) % 4294967296

/-- **All stores of `exec` for its arguments.** -/
def argStores (mem spbottom sz : Nat) (argv : List (List UInt8)) : List (Nat × List UInt8) :=
  ((mem + argpOf sz argv + 4294967296 - spbottom + 4 * argv.length) % 4294967296, bytes32 0) ::
    pushStores mem spbottom (argpOf sz argv) argv.reverse sz

/-- The memory after a list of stores. -/
def applyStores (m : Nat → UInt8) (ws : List (Nat × List UInt8)) : Nat → UInt8 :=
  ws.foldl (fun m w => put m w.1 w.2) m

theorem applyStores_cons (m : Nat → UInt8) (w : Nat × List UInt8) (ws : List (Nat × List UInt8)) :
    applyStores m (w :: ws) = applyStores (put m w.1 w.2) ws := rfl

/-- The store is inside a page. -/
def InPage (q : Nat) (w : Nat × List UInt8) : Prop :=
  q * 4096 ≤ w.1 ∧ w.1 + w.2.length ≤ q * 4096 + 4096

/-- The state with another memory. -/
def ExecState.setMem (x : ExecState) (m : Nat → UInt8) : ExecState :=
  { x with phys := { x.phys with mem := m } }

theorem ExecState.setMem_setMem (x : ExecState) (m m' : Nat → UInt8) :
    (x.setMem m).setMem m' = x.setMem m' := rfl

theorem ExecState.mem_setMem (x : ExecState) (m : Nat → UInt8) : (x.setMem m).phys.mem = m := rfl

theorem post_imageStore {fuel pa : Nat} {bytes : List UInt8} {Q : Unit → ExecState → Prop} :
    Post ((imageOps file fuel).store pa bytes) E Q x ↔
      Q () (x.setMem (put x.phys.mem pa bytes)) := by
  rw [imageOps_store, post_onPhys, post_store]
  exact .rfl

/-- **The loop that copies the arguments** makes these stores. -/
theorem post_pushArgs {fuel mem spbottom argp sp : Nat} {l : List (List UInt8)}
    {Q : Unit → ExecState → Prop} :
    Post (pushArgs (imageOps file fuel) mem spbottom argp l sp) E Q x ↔
      Q () (x.setMem (applyStores x.phys.mem (pushStores mem spbottom argp l sp))) := by
  induction l generalizing x sp with
  | nil =>
      rw [pushArgs, post_pure]
      exact .rfl
  | cons a l ih =>
      rw [pushArgs, pushStores, post_bind, post_imageStore, post_bind, post_imageStore, ih]
      rw [ExecState.setMem_setMem, ExecState.setMem_setMem, ExecState.mem_setMem, ExecState.mem_setMem,
        applyStores_cons, applyStores_cons]

/-- No byte of the store is on a pinned page. -/
def Harmless (own : Nat → Owner) (w : Nat × List UInt8) : Prop :=
  ∀ k < w.2.length, ¬ (own ((w.1 + k) / 4096)).pinned

theorem InPage.harmless {q : Nat} {w : Nat × List UInt8} (h : InPage q w)
    (hpin : ¬ (own q).pinned) : Harmless own w := by
  intro k hk
  have hpage : (w.1 + k) / 4096 = q := by
    unfold InPage at h
    omega
  rwa [hpage]

/-- A store that is on no pinned page. -/
theorem Owned.put (h : Owned s own fl) {w : Nat × List UInt8} (hw : Harmless own w) :
    Owned { s with mem := put s.mem w.1 w.2 } own fl := by
  refine h.congr rfl fun p i hp hi => le32_congr fun k hk => put_of_notMem _ _ _ ?_
  by_contra hin
  obtain ⟨j, hj⟩ : ∃ j, p * 4096 + 4 * i + k = w.1 + j := ⟨p * 4096 + 4 * i + k - w.1, by omega⟩
  have hpage : (w.1 + j) / 4096 = p := by omega
  refine hw j (by omega) ?_
  rwa [hpage]

/-- Stores that are on no pinned page. -/
theorem Owned.applyStores {ws : List (Nat × List UInt8)} (h : Owned s own fl)
    (hws : ∀ w ∈ ws, Harmless own w) : Owned { s with mem := applyStores s.mem ws } own fl := by
  induction ws generalizing s with
  | nil => exact h
  | cons w ws ih =>
      exact ih (h.put (hws w (.head _))) fun w' hw' =>
        hws w' (.tail _ hw')

/-- Where the loop puts the string with index `i`, as an offset into the stack page. -/
def argOff (l : List (List UInt8)) (o i : Nat) : Nat :=
  o - ((l.take (l.length - i)).map fun a => a.length + 1).sum

section Push

variable {l : List (List UInt8)} {a : List UInt8} {o i : Nat}

theorem argOff_last : argOff (a :: l) o l.length = o - (a.length + 1) := by
  rw [argOff, List.length_cons, Nat.add_sub_cancel_left]
  rfl

theorem argOff_cons (hi : i < l.length) : argOff (a :: l) o i = argOff l (o - (a.length + 1)) i := by
  have hlen : (a :: l).length - i = (l.length - i) + 1 := by
    rw [List.length_cons]
    omega
  rw [argOff, argOff, hlen, List.take_succ_cons, List.map_cons, List.sum_cons, Nat.sub_sub]

theorem getD_reverse_last : (a :: l).reverse.getD l.length [] = a := by
  rw [List.reverse_cons, List.getD_append_right _ _ _ _ (by simp)]
  simp

theorem getD_reverse_cons (hi : i < l.length) :
    (a :: l).reverse.getD i [] = l.reverse.getD i [] := by
  rw [List.reverse_cons, List.getD_append _ _ _ _ (by rwa [List.length_reverse])]

/-- The strings lie below `o`, one after the other, in the order of their indices. -/
theorem argOff_order (hsum : (l.map fun a => a.length + 1).sum ≤ o) (hi : i < l.length) :
    o - (l.map fun a => a.length + 1).sum ≤ argOff l o i ∧
      argOff l o i + ((l.reverse.getD i []).length + 1) ≤ o ∧
      ∀ j < l.length, i < j → argOff l o i + ((l.reverse.getD i []).length + 1) ≤ argOff l o j := by
  induction l generalizing o i with
  | nil => exact absurd hi (Nat.not_lt_zero i)
  | cons a l ih =>
      rw [List.map_cons, List.sum_cons] at hsum ⊢
      rw [List.length_cons] at hi ⊢
      by_cases hil : i < l.length
      · obtain ⟨hlow, hhigh, horder⟩ := ih (o := o - (a.length + 1)) (by omega) hil
        rw [argOff_cons hil, getD_reverse_cons hil]
        refine ⟨by omega, by omega, fun j hj hij => ?_⟩
        by_cases hjl : j < l.length
        · rw [argOff_cons hjl]
          exact horder j hjl hij
        · obtain rfl : j = l.length := by omega
          rw [argOff_last]
          exact hhigh
      · obtain rfl : i = l.length := by omega
        rw [argOff_last, getD_reverse_last]
        exact ⟨by omega, by omega, fun j hj hij => by omega⟩

end Push

/-- **What the loop that copies the arguments leaves in the page `q`**: the pointers from `ao` on and
the strings below `o`. -/
structure Pushed (m : Nat → UInt8) (q bottom ao o : Nat) (l : List (List UInt8))
    (m' : Nat → UInt8) : Prop where
  rest : ∀ x, ¬ (q * 4096 + ao ≤ x ∧ x < q * 4096 + (ao + 4 * l.length)) →
    ¬ (q * 4096 + (o - (l.map fun a => a.length + 1).sum) ≤ x ∧ x < q * 4096 + o) → m' x = m x
  pointer : ∀ i < l.length, le32 m' (q * 4096 + (ao + 4 * i)) = bottom + argOff l o i
  string : ∀ i < l.length, ∀ k ≤ (l.reverse.getD i []).length,
    m' (q * 4096 + argOff l o i + k) = (l.reverse.getD i [] ++ [0]).getD k 0

section Page

variable {q bottom ao o : Nat} {l : List (List UInt8)}

/-- The stores of the loop, when the arguments fit on the page. -/
theorem pushStores_cons (a : List UInt8) (hq : q < 1048576) (hbottom : bottom ≤ USERTOP)
    (ho : o ≤ 4096) (hfit : ao + 4 * (l.length + 1) + (a.length + 1) ≤ o) :
    pushStores (q * 4096) bottom (bottom + ao) (a :: l) (bottom + o) =
      (q * 4096 + (o - (a.length + 1)), a ++ [0]) ::
        (q * 4096 + (ao + 4 * l.length), bytes32 (bottom + (o - (a.length + 1)))) ::
        pushStores (q * 4096) bottom (bottom + ao) l (bottom + (o - (a.length + 1))) := by
  unfold USERTOP at hbottom
  have hsp : (bottom + o + 4294967296 - (a.length + 1)) % 4294967296 =
      bottom + (o - (a.length + 1)) := by omega
  have hstr : (q * 4096 + (bottom + (o - (a.length + 1))) + 4294967296 - bottom) % 4294967296 =
      q * 4096 + (o - (a.length + 1)) := by omega
  have hptr : (q * 4096 + (bottom + ao) + 4294967296 - bottom + 4 * l.length) % 4294967296 =
      q * 4096 + (ao + 4 * l.length) := by omega
  rw [pushStores]
  simp only [hsp, hstr, hptr]

/-- The stores are inside the page. -/
theorem inPage_pushStores (hq : q < 1048576) (hbottom : bottom ≤ USERTOP) (ho : o ≤ 4096)
    (hfit : ao + 4 * l.length + (l.map fun a => a.length + 1).sum ≤ o) (w : Nat × List UInt8)
    (hw : w ∈ pushStores (q * 4096) bottom (bottom + ao) l (bottom + o)) : InPage q w := by
  induction l generalizing o with
  | nil => exact nomatch hw
  | cons a l ih =>
      rw [List.map_cons, List.sum_cons, List.length_cons] at hfit
      rw [pushStores_cons a hq hbottom ho (by omega), List.mem_cons, List.mem_cons] at hw
      rcases hw with rfl | rfl | hw
      · unfold InPage
        rw [List.length_append, List.length_singleton]
        omega
      · unfold InPage
        rw [length_bytes32]
        omega
      · exact ih (by omega) (by omega) hw

/-- What the stores leave in the page. -/
theorem pushed_applyStores (m : Nat → UInt8) (hq : q < 1048576) (hbottom : bottom ≤ USERTOP)
    (ho : o ≤ 4096) (hfit : ao + 4 * l.length + (l.map fun a => a.length + 1).sum ≤ o) :
    Pushed m q bottom ao o l
      (applyStores m (pushStores (q * 4096) bottom (bottom + ao) l (bottom + o))) := by
  induction l generalizing m o with
  | nil =>
      exact ⟨fun _ _ _ => rfl, fun i hi => absurd hi (Nat.not_lt_zero i),
        fun i hi => absurd hi (Nat.not_lt_zero i)⟩
  | cons a l ih =>
      rw [List.map_cons, List.sum_cons, List.length_cons] at hfit
      rw [pushStores_cons a hq hbottom ho (by omega)]
      have hpush := ih (put (put m (q * 4096 + (o - (a.length + 1))) (a ++ [0]))
        (q * 4096 + (ao + 4 * l.length)) (bytes32 (bottom + (o - (a.length + 1)))))
        (show o - (a.length + 1) ≤ 4096 by omega) (by omega)
      show Pushed m q bottom ao o (a :: l) (applyStores (put (put m _ _) _ _) _)
      have hlen : (a ++ [0]).length = a.length + 1 := by simp
      refine ⟨fun x hx hx' => ?_, fun i hi => ?_, fun i hi k hk => ?_⟩
      · rw [List.length_cons] at hx
        rw [List.map_cons, List.sum_cons] at hx'
        rw [hpush.rest x (by omega) (by omega), put_of_notMem _ _ _ (by rw [length_bytes32]; omega),
          put_of_notMem _ _ _ (by rw [hlen]; omega)]
      · rw [List.length_cons] at hi
        by_cases hil : i < l.length
        · rw [argOff_cons hil]
          exact hpush.pointer i hil
        · obtain rfl : i = l.length := by omega
          have hkeep := le32_congr (f := applyStores (put (put m (q * 4096 + (o - (a.length + 1)))
              (a ++ [0])) (q * 4096 + (ao + 4 * l.length))
              (bytes32 (bottom + (o - (a.length + 1)))))
              (pushStores (q * 4096) bottom (bottom + ao) l (bottom + (o - (a.length + 1)))))
            (a := q * 4096 + (ao + 4 * l.length)) (b := q * 4096 + (ao + 4 * l.length))
            fun j hj => hpush.rest _ (by omega) (by omega)
          rw [argOff_last, hkeep, le32_put_self, Nat.mod_eq_of_lt]
          unfold USERTOP at hbottom
          omega
      · rw [List.length_cons] at hi
        by_cases hil : i < l.length
        · rw [getD_reverse_cons hil] at hk ⊢
          rw [argOff_cons hil]
          exact hpush.string i hil k hk
        · obtain rfl : i = l.length := by omega
          rw [getD_reverse_last] at hk ⊢
          rw [argOff_last, hpush.rest _ (by omega) (by omega),
            put_of_notMem _ _ _ (by rw [length_bytes32]; omega),
            put_of_mem _ _ _ (by rw [hlen]; omega) 0]

end Page

/-- `argp` for arguments that fit. -/
theorem ArgsFit.argpOf_eq (hfit : ArgsFit argv) {bottom : Nat} (hbottom : bottom + 4096 ≤ USERTOP) :
    argpOf (bottom + 4096) argv =
      bottom + (4096 - argLen argv - 4 * (argv.length + 1)) := by
  unfold ArgsFit PGSIZE at hfit
  unfold USERTOP at hbottom
  unfold argpOf
  omega

theorem ArgsFit.sum_le (hfit : ArgsFit argv) :
    4096 - argLen argv - 4 * (argv.length + 1) + 4 * (argv.length + 1) +
      (argv.reverse.map fun a => a.length + 1).sum ≤ 4096 := by
  unfold ArgsFit PGSIZE argLen at hfit
  rw [List.map_reverse, List.sum_reverse]
  unfold argLen
  omega

/-- The stores for arguments that fit. -/
theorem ArgsFit.argStores_eq (hfit : ArgsFit argv) {q bottom : Nat} (hq : q < 1048576)
    (hbottom : bottom + 4096 ≤ USERTOP) :
    argStores (q * 4096) bottom (bottom + 4096) argv =
      (q * 4096 + (4096 - argLen argv - 4 * (argv.length + 1) + 4 * argv.length), bytes32 0) ::
        pushStores (q * 4096) bottom (bottom + (4096 - argLen argv - 4 * (argv.length + 1)))
          argv.reverse (bottom + 4096) := by
  rw [argStores, hfit.argpOf_eq hbottom]
  unfold ArgsFit PGSIZE at hfit
  unfold USERTOP at hbottom
  congr 2
  omega

theorem ArgsFit.inPage (hfit : ArgsFit argv) {q bottom : Nat} (hq : q < 1048576)
    (hbottom : bottom + 4096 ≤ USERTOP) (w : Nat × List UInt8)
    (hw : w ∈ argStores (q * 4096) bottom (bottom + 4096) argv) : InPage q w := by
  have hsum := hfit.sum_le
  rw [hfit.argStores_eq hq hbottom, List.mem_cons] at hw
  rcases hw with rfl | hw
  · unfold InPage
    rw [length_bytes32]
    omega
  · exact inPage_pushStores hq (by omega) le_rfl (by rw [List.length_reverse]; omega) w hw

/-- The end of `exec` from its label `bad` on, with an address space. -/
theorem post_execBad {fuel sz : Nat} (hE : x.busy = false ∨ x.ref < 1 → E (.panic "iunlock"))
    (hfuel : 524288 < fuel) (h : Owned x.phys own fl) (hb : Building own₀ own fl₀ d sz)
    (hQ : x.busy = true → ∀ u fl', Owned u (released own d) fl' →
      Q (-1) { x with phys := u, busy := false, ref := x.ref - 1 }) :
    Post (execBad (imageOps file fuel) (some (d * 4096)) ()) E Q x := by
  have hpages := pagesOf_le hb.le
  rw [execBad, post_bind, imageOps_freevm, post_onPhys]
  refine post_freevm h hb.dir (fun q v hq => lt_of_lt_of_le (hb.bounded q v hq) hpages) hfuel
    fun u fl' hu _ => ?_
  rw [post_bind]
  show Post unlockputInode _ _ _
  rw [unlockputInode, post_bind, post_get]
  split
  · rename_i hfree
    exact post_stop.mpr (hE hfree)
  · rename_i hbusy
    rw [post_modify, post_pure]
    refine hQ ?_ u fl' hu
    simpa using fun hf => hbusy (.inl hf)

/-- The allocation of the stack page. -/
theorem post_allocStack {fuel sz bottom : Nat} (h₀ : Owned s₀ own₀ fl₀) (hfuel : 524288 < fuel)
    (h : Owned s own fl) (hb : Building own₀ own fl₀ d sz) (hbottom : bottom = pagesOf sz * 4096) :
    Post (allocuvm fuel (d * 4096) bottom ((bottom + PGSIZE) % 4294967296)) E
      (fun r u => ∃ own' fl', Owned u own' fl' ∧ (r = 0 ∧ Building own₀ own' fl₀ d sz ∨
        r = bottom + 4096 ∧ Building own₀ own' fl₀ d r)) s := by
  have hpages := pagesOf_le hb.le
  have htop : bottom ≤ USERTOP := by
    unfold USERTOP
    omega
  have hnew : (bottom + PGSIZE) % 4294967296 = bottom + 4096 := by
    unfold PGSIZE
    unfold USERTOP at htop
    omega
  have hround : pagesOf bottom = pagesOf sz := by
    unfold pagesOf at hbottom ⊢
    omega
  have hmax : max bottom (bottom + 4096) = bottom + 4096 := by omega
  rw [hnew]
  refine post_allocuvm_touch h hb.dir (by rw [hround]; exact hb.bounded) htop (Nat.succ_pos _) hfuel
    (fun _ => ⟨own, fl, h, .inl ⟨rfl, hb⟩⟩) (fun htop' own' fl' u hu ht hb' => ?_)
    fun _ own' fl' u hu ht hp _ _ => ?_
  · rw [hmax] at hb' ⊢
    exact ⟨own', fl', hu, .inr ⟨rfl, hb.built.touch h₀ ht, ht.dir hb.dir, hb', htop'⟩⟩
  · refine ⟨own', fl', hu, .inl ⟨rfl, hb.built.touch h₀ ht, ht.dir hb.dir, ?_, hb.le⟩⟩
    exact fun q v hq => hb.bounded q v ((hp q v).mp hq)

/-- The process gets its new address space, and the old one is released. -/
theorem post_execSwitch (file : Option (List UInt8)) {fuel sz : Nat} (name : List UInt8)
    (entry argp argc : Nat) {d₀ n₀ : Nat} (h₀ : Owned s₀ own₀ fl₀) (hfuel : 524288 < fuel)
    (h : Owned x.phys own fl) (hb : Building own₀ own fl₀ d sz) (hpgdir : x.pgdir = d₀ * 4096)
    (hd₀ : own₀ d₀ = .dir) (hb₀ : Bounded own₀ d₀ n₀) (hn₀ : n₀ ≤ 524288)
    (hQ : ∀ u fl', Owned u (released own d₀) fl' → KeepsOthers own d₀ x.phys.mem u.mem →
      Q 0 ⟨u, x.ref, x.busy, d * 4096, sz, name, entry, argp⟩) :
    Post (do
      let oldpgdir ← (imageOps file fuel).commit (d * 4096) sz name entry argp argc argp
      (imageOps file fuel).switchuvm
      (imageOps file fuel).freevm oldpgdir
      pure 0) E Q x := by
  have hpages := pagesOf_le hb.le
  -- the address space of the process is outside the pages that were free
  have hsame := hb.built.same h₀ hd₀
  simp only [imageOps, post_bind, post_get, post_modify, post_pure, post_onPhys]
  refine post_switchuvm h hb.dir hb.bounded hpages hfuel ?_
  rw [hpgdir]
  refine post_freevm h (hsame.dir hd₀) (fun p v hp => ?_) hfuel
    fun u fl' hu hkeep => hQ u fl' hu hkeep
  exact lt_of_lt_of_le (hb₀ p v ((hsame.page p v).mp hp)) hn₀

/-- The arguments are copied to the page `q`, and the process gets its new address space. -/
theorem post_execCommit (file : Option (List UInt8)) {fuel bottom sz : Nat} (entry : Nat)
    {d₀ q n₀ : Nat} (path : List UInt8) (h₀ : Owned s₀ own₀ fl₀) (hfuel : 524288 < fuel)
    (h : Owned x.phys own fl) (hb : Building own₀ own fl₀ d sz) (hpgdir : x.pgdir = d₀ * 4096)
    (hd₀ : own₀ d₀ = .dir) (hb₀ : Bounded own₀ d₀ n₀) (hn₀ : n₀ ≤ 524288)
    (hws : ∀ w ∈ argStores (q * 4096) bottom sz argv, Harmless own w)
    (hQ : ∀ u fl', Owned u (released own d₀) fl' →
      KeepsOthers own d₀ (applyStores x.phys.mem (argStores (q * 4096) bottom sz argv))
        u.mem →
      Q 0 ⟨u, x.ref, x.busy, d * 4096, sz, progName path, entry, argpOf sz argv⟩) :
    Post (do
      (imageOps file fuel).store
        ((q * 4096 + argpOf sz argv + 4294967296 - bottom + 4 * argv.length) % 4294967296)
        (bytes32 0)
      pushArgs (imageOps file fuel) (q * 4096) bottom (argpOf sz argv) argv.reverse sz
      let oldpgdir ← (imageOps file fuel).commit (d * 4096) sz (progName path) entry
        (argpOf sz argv) argv.length (argpOf sz argv)
      (imageOps file fuel).switchuvm
      (imageOps file fuel).freevm oldpgdir
      pure 0) E Q x := by
  have hstores := h.applyStores hws
  rw [post_bind, post_imageStore, post_bind, post_pushArgs, ExecState.setMem_setMem,
    ExecState.mem_setMem]
  rw [argStores, applyStores_cons] at hstores hQ
  generalize applyStores _ _ = m at hstores hQ ⊢
  exact post_execSwitch (x := x.setMem m) file _ entry _ _ h₀ hfuel hstores hb hpgdir hd₀ hb₀ hn₀
    fun u fl' hu hkeep => hQ u fl' hu hkeep

/-- The part of `exec` after the allocation of the stack page `v`. The page that is written to is the
stack page, or the page zero if the stack page is not mapped. -/
theorem post_execArgs {fuel v entry d₀ n₀ : Nat} (h₀ : Owned s₀ own₀ fl₀) (hfuel : 524288 < fuel)
    (h : Owned x.phys own fl) (hb : Building own₀ own fl₀ d (v * 4096 + 4096))
    (hargs : ArgsFit argv) (hpgdir : x.pgdir = d₀ * 4096) (hd₀ : own₀ d₀ = .dir)
    (hb₀ : Bounded own₀ d₀ n₀) (hn₀ : n₀ ≤ 524288)
    (hQ : ∀ q u fl', Owned u (released own d₀) fl' → own q = .page d v ∨ q = 0 →
      (∀ q', own q' = .page d v → q' = q) →
      KeepsOthers own d₀ (applyStores x.phys.mem
        (argStores (q * 4096) (v * 4096) (v * 4096 + 4096) argv)) u.mem →
      Q 0 ⟨u, x.ref, x.busy, d * 4096, v * 4096 + 4096, progName path, entry,
        argpOf (v * 4096 + 4096) argv⟩) :
    Post (do
      let pte ← (imageOps file fuel).pte (d * 4096) (v * 4096)
      let mem := (pte.map pteAddr).getD 0
      let argp := argpOf (v * 4096 + 4096) argv
      (imageOps file fuel).store
        ((mem + argp + 4294967296 - v * 4096 + 4 * argv.length) % 4294967296) (bytes32 0)
      pushArgs (imageOps file fuel) mem (v * 4096) argp argv.reverse (v * 4096 + 4096)
      let oldpgdir ← (imageOps file fuel).commit (d * 4096) (v * 4096 + 4096) (progName path) entry
        argp argv.length argp
      (imageOps file fuel).switchuvm
      (imageOps file fuel).freevm oldpgdir
      pure 0) E Q x := by
  have hlt : v < 1048576 := by
    have hle : v * 4096 + 4096 ≤ 2147483648 := hb.le
    omega
  have hcommit : ∀ q, q < 1048576 → ¬ (own q).pinned → own q = .page d v ∨ q = 0 →
      (∀ q', own q' = .page d v → q' = q) → _ :=
    fun q hq hpin hself honly => post_execCommit (E := E) file entry path (x := x) h₀ hfuel h hb
      hpgdir hd₀ hb₀ hn₀ (fun w hw => (hargs.inPage hq hb.le w hw).harmless hpin)
      fun u' fl'' hu' hkeep => hQ q u' fl'' hu' hself honly hkeep
  rw [imageOps_pte, post_bind, post_onPhys]
  refine post_pteAt h hb.dir hlt (fun q hq => ?_) (fun hno _ => ?_) fun hno => ?_
  · have hvalid := h.valid q (by rw [hq]; exact nofun)
    dsimp only [Option.map_some, Option.getD_some]
    rw [pteAddr_pteOf]
    exact hcommit q (by omega) (by rw [hq]; exact id) (.inl hq)
      fun q' hq' => h.pageInj q' q d v hq' hq
  · exact hcommit 0 (by omega) h.not_pinned_zero (.inr rfl) fun q' hq' => absurd hq' (hno q')
  · exact hcommit 0 (by omega) h.not_pinned_zero (.inr rfl)
      fun q' hq' => absurd (h.pageTab q' d v hq') hno

/-- **The second half of `exec`.** -/
theorem post_execStack {fuel sz entry d₀ n₀ : Nat} (h₀ : Owned s₀ own₀ fl₀)
    (hE : ∀ e, e ≠ .panic "kfree" → E e) (hfuel : 524288 < fuel) (h : Owned x.phys own fl)
    (hb : Building own₀ own fl₀ d sz) (hargs : ArgsFit argv) (hbusy : x.busy = false)
    (hpgdir : x.pgdir = d₀ * 4096) (hd₀ : own₀ d₀ = .dir) (hb₀ : Bounded own₀ d₀ n₀)
    (hn₀ : n₀ ≤ 524288)
    (hQ : ∀ own' fl' u sz' name spc sgr, Building own₀ own' fl₀ d sz' → 0 < sz' →
      Owned u (released own' d₀) fl' →
      Q 0 ⟨u, x.ref, x.busy, d * 4096, sz', name, spc, sgr⟩) :
    Post (execStack (imageOps file fuel) (d * 4096) () sz path argv entry) E Q x := by
  have hstack := post_allocStack (E := E) h₀ hfuel h hb rfl
  rw [execStack, pgroundup_of_le hb.le]
  dsimp only
  rw [imageOps_allocuvm, post_bind, post_onPhys]
  refine hstack.mono (fun _ he => he) fun r u hr => ?_
  obtain ⟨own', fl', hu, hr⟩ := hr
  rcases hr with ⟨rfl, hb'⟩ | ⟨rfl, hb'⟩
  · rw [if_pos rfl]
    refine post_execBad (fun _ => hE _ (by simp)) hfuel hu hb' fun hb'' => ?_
    cases hbusy.symm.trans hb''
  · rw [if_neg (Nat.succ_ne_zero _)]
    exact post_execArgs (x := { x with phys := u }) h₀ hfuel hu hb' hargs hpgdir hd₀ hb₀ hn₀
      fun _ u' fl'' hu' _ _ _ => hQ own' fl'' u' _ _ _ _ hb' (Nat.succ_pos _) hu'

/-! ## The whole call -/

/-- The owners are as before, except for free pages that have been lost. -/
def Lost (own own' : Nat → Owner) : Prop := ∀ p, own' p = own p ∨ own p = .free ∧ own' p = .held

theorem Lost.page_iff (h : Lost own own') (x d v : Nat) :
    own' x = .page d v ↔ own x = .page d v := by
  rcases h x with he | ⟨hfree, hheld⟩
  · rw [he]
  · rw [hfree, hheld]
    exact ⟨nofun, nofun⟩

theorem Lost.free_iff (h : Lost own own') :
    (∀ x, own' x = .free ↔ own x = .free) ↔ ¬ ∃ x, own x = .free ∧ own' x = .held := by
  constructor
  · rintro hall ⟨x, hfree, hheld⟩
    cases hheld.symm.trans ((hall x).mpr hfree)
  · intro hno x
    rcases h x with he | hx
    · rw [he]
    · exact absurd ⟨x, hx⟩ hno

theorem Lost.same (h : Lost own own') : SameSpace own own' d := by
  refine .of_changes fun p => ?_
  rcases h p with he | ⟨hfree, hheld⟩
  · exact .inl he
  · rw [hfree, hheld]
    exact .inr ⟨rfl, rfl, fun _ => Owner.noConfusion⟩

theorem Building.lost {sz : Nat} (h₀ : Owned s₀ own₀ fl₀) (hb : Building own₀ own fl₀ d sz) :
    Lost own₀ (released own d) := by
  intro p
  rcases hb.built.released_eq h₀ p with he | ⟨hp, -, -, he⟩
  · exact .inl he
  · exact .inr ⟨(h₀.free p).mp hp, he⟩

/-- **`exec`** of any executable, with arguments that fit on the stack page: it fails and at most
loses free pages, or it builds the new address space from free pages and releases the old one. -/
theorem post_execImage {fuel d₀ n₀ : Nat} (h : Owned x.phys own fl)
    (hE : ∀ e, e ≠ .panic "kfree" → E e) (hfuel : 524288 < fuel) (hargs : ArgsFit argv)
    (hbusy : x.busy = false) (hpgdir : x.pgdir = d₀ * 4096) (hd₀ : own d₀ = .dir)
    (hb₀ : Bounded own d₀ n₀) (hn₀ : n₀ ≤ 524288)
    (hbad : ∀ own' fl' u, Owned u own' fl' → Lost own own' → Q (-1) { x with phys := u })
    (hQ : ∀ own' fl' u d sz' name spc sgr, Building own own' fl d sz' → 0 < sz' →
      Owned u (released own' d₀) fl' → Q 0 ⟨u, x.ref, x.busy, d * 4096, sz', name, spc, sgr⟩) :
    Post (execImage file fuel path argv) E Q x := by
  obtain ⟨phys, ref, busy, pgdir, sz, name, spc, sgr⟩ := x
  dsimp only at h hbusy hpgdir hbad hQ
  subst hbusy
  have hnop : Q (-1) ⟨phys, ref, false, pgdir, sz, name, spc, sgr⟩ :=
    hbad own fl phys h fun p => .inl rfl
  unfold execImage exec
  rw [post_bind]
  cases file with
  | none => exact post_pure.mpr (post_pure.mpr hnop)
  | some content =>
      -- the inode is locked and its reference counted from here on
      have hnopgdir : Post (execBad (imageOps (some content) fuel) none ()) E Q
          ⟨phys, ref + 1, true, pgdir, sz, name, spc, sgr⟩ := by
        simp only [execBad, imageOps, unlockputInode, post_bind, post_pure, post_get]
        rw [if_neg (by simp), post_modify]
        exact hnop
      have hlate : ∀ own' fl' u sz' d, Owned u own' fl' → Building own own' fl d sz' →
          Post (execBad (imageOps (some content) fuel) (some (d * 4096)) ()) E Q
            ⟨u, ref + 1, true, pgdir, sz, name, spc, sgr⟩ := fun own' fl' u sz' d hu hb =>
        post_execBad (fun _ => hE _ (by simp)) hfuel hu hb fun _ w fl'' hw =>
          hbad _ fl'' w hw (hb.lost h)
      have hlock : (imageOps (some content) fuel).ilock () = lockInode := rfl
      have hunlock : (imageOps (some content) fuel).iunlockput () = unlockputInode := rfl
      have hsetup : (imageOps (some content) fuel).setupkvm = onPhys setupkvm := rfl
      refine post_bind.mpr (post_modify.mpr (post_pure.mpr ?_))
      dsimp only
      rw [hlock, post_bind, lockInode, post_bind, post_get, if_neg (by simp), if_neg (by simp),
        post_modify, imageOps_readi, post_bind, post_pure]
      generalize readAt ((some content).getD []) 0 ELFHDR = rd
      obtain ⟨r, bytes⟩ := rd
      dsimp only
      split
      · exact hnopgdir
      · split
        · exact hnopgdir
        · rw [hsetup, post_bind, post_onPhys]
          refine post_setupkvm h (fun _ => hnopgdir) fun d fl' u _ hu hshape hbuilt _ => ?_
          have hb : Building own (Function.update own d .dir) fl d 0 :=
            ⟨hbuilt, Function.update_self _ _ _, hshape.bounded, Nat.zero_le _⟩
          dsimp only
          rw [post_bind]
          refine post_execLoad h hE hfuel hu hb fun r own' fl'' w sz' hw hb' hr => ?_
          rcases hr with rfl | rfl
          · exact hlate own' fl'' w sz' d hw hb'
          · dsimp only
            rw [hunlock, post_bind, unlockputInode, post_bind, post_get, if_neg (by simp),
              post_modify]
            exact post_execStack h hE hfuel hw hb' hargs rfl hpgdir hd₀ hb₀ hn₀
              fun own'' fl''' u' sz'' name spc sgr hb'' hpos hu' =>
                hQ own'' fl''' u' d sz'' name spc sgr hb'' hpos hu'

end

/-! ## More rounds -/

section

variable {file : Option (List UInt8)} {n m : Nat}

theorem loaduvmLoop_eq {pgdir addr offset sz k i : Nat} :
    loaduvmLoop (imageOps file n) pgdir addr () offset sz k i =
      loaduvmLoop (imageOps file m) pgdir addr () offset sz k i := by
  induction k generalizing i with
  | zero => rfl
  | succ k ih =>
      simp only [loaduvmLoop, ih]
      rfl

theorem le_loaduvm {pgdir addr offset sz : Nat} :
    Le .loop (loaduvm (imageOps file n) pgdir addr () offset sz)
      (loaduvm (imageOps file m) pgdir addr () offset sz) :=
  Le.ite (Le.refl _) (.of_eq loaduvmLoop_eq)

theorem le_execLoad {pgdir k off sz : Nat} (h : n ≤ m) :
    Le .loop (execLoad (imageOps file n) pgdir () k off sz)
      (execLoad (imageOps file m) pgdir () k off sz) := by
  induction k generalizing off sz with
  | zero => exact Le.refl _
  | succ k ih =>
      rw [execLoad, execLoad]
      refine (Le.refl _).bind fun rd => Le.ite (Le.refl _) (Le.ite ih (Le.ite (Le.refl _) ?_))
      refine (Le.zoom (le_allocuvm h)).bind fun sz' => Le.ite (Le.refl _) (le_loaduvm.bind fun ok => ?_)
      exact Le.ite ih (Le.refl _)

theorem le_execBad {pgdir : Option Nat} (h : n ≤ m) :
    Le .loop (execBad (imageOps file n) pgdir ()) (execBad (imageOps file m) pgdir ()) := by
  refine Le.bind ?_ fun _ => Le.refl _
  cases pgdir with
  | none => exact Le.refl _
  | some pgdir => exact Le.zoom (le_freevm h)

theorem pushArgs_eq {mem spbottom argp sp : Nat} {l : List (List UInt8)} :
    pushArgs (imageOps file n) mem spbottom argp l sp =
      pushArgs (imageOps file m) mem spbottom argp l sp := by
  induction l generalizing sp with
  | nil => rfl
  | cons a l ih =>
      simp only [pushArgs, ih]
      rfl

theorem le_execStack {pgdir sz entry : Nat} {path : List UInt8} {argv : List (List UInt8)}
    (h : n ≤ m) : Le .loop (execStack (imageOps file n) pgdir () sz path argv entry)
      (execStack (imageOps file m) pgdir () sz path argv entry) := by
  rw [execStack, execStack]
  dsimp only
  rw [imageOps_allocuvm, imageOps_allocuvm]
  generalize (pgroundup sz + PGSIZE) % 4294967296 = newsz
  refine (Le.zoom (le_allocuvm h)).bind fun sz' => Le.ite (le_execBad h) ((Le.refl _).bind fun pte => ?_)
  refine (Le.refl _).bind fun _ => (Le.of_eq pushArgs_eq).bind fun _ => ?_
  exact (Le.refl _).bind fun old => ((Le.refl _).bind fun x => Le.zoom (le_switchuvm h)).bind fun _ =>
    (Le.zoom (le_freevm h)).bind fun _ => Le.refl _

theorem le_execImage {path : List UInt8} {argv : List (List UInt8)} (h : n ≤ m) :
    Le .loop (execImage file n path argv) (execImage file m path argv) := by
  refine (Le.refl _).bind fun ip => ?_
  cases ip with
  | none => exact Le.refl _
  | some ip =>
      refine (Le.refl _).bind fun _ => (Le.refl _).bind fun rd => Le.ite (le_execBad h)
        (Le.ite (le_execBad h) ((Le.refl _).bind fun pgdir => ?_))
      cases pgdir with
      | none => exact le_execBad h
      | some pgdir =>
          refine (le_execLoad h).bind fun sz => ?_
          cases sz with
          | none => exact le_execBad h
          | some sz => exact (Le.refl _).bind fun _ => le_execStack h

end

end Xv6.Vm
