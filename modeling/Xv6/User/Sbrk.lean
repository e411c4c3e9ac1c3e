import Xv6.Kernel.Exec
import Xv6.User.Heap

/-! # `malloc` and the kernel's `sbrk`

`sys_sbrk` takes its argument as a signed number, so that a request of 2^31 bytes or more gives
memory back (`growproc`, `deallocuvm`) and is answered with the old end of the memory all the same.
`malloc` is followed here through the sizes that the kernel computes: the memory behind a size that
has wrapped is not there, and a process that touches it is killed. -/

namespace Xv6.Umalloc

open Lib Chunk

/-! ## The kernel -/

/-- **What `sbrk` has made of a process**: its size, the end of its mapped pages, and the address
returned. -/
structure Grown where
  sz : Nat
  mapped : Nat
  ret : Nat

/-- **`sys_sbrk` and `growproc`** for a process of `sz` bytes and an argument `n` of 32 bits;
`enough` says whether `allocuvm` finds the pages it needs. -/
def sysSbrk (sz n : Nat) (enough : Bool) : Grown :=
  if n = 0 then ⟨sz, pgroundup sz, sz⟩
  else if n < 2 ^ 31 then
    if sz + n ≤ USERTOP ∧ enough then ⟨sz + n, pgroundup (sz + n), sz⟩
    else ⟨sz, pgroundup sz, 2 ^ 32 - 1⟩
  else
    let newsz := (sz + n) % 2 ^ 32
    let mapped := min (pgroundup sz) (pgroundup newsz)
    if newsz < sz then
      if newsz = 0 then ⟨sz, mapped, 2 ^ 32 - 1⟩ else ⟨newsz, mapped, sz⟩
    else ⟨sz, mapped, sz⟩

/-! ## The allocator on it -/

/-- `morecore`. The process is killed if the pages of the program or of the new header are gone. -/
def sysMorecore (base fuel : Nat) (s : HeapState) (nu : Nat) (enough : Bool) :
    Option (HeapState × Nat) :=
  let nu := coreUnits nu
  let g := sysSbrk s.top (nu * HEADER % 2 ^ 32) enough
  let s := { s with top := g.sz }
  if g.mapped < base + HEADER then none
  else if g.ret = 2 ^ 32 - 1 then some (s, 0)
  else if g.mapped < g.ret + HEADER then none
  else
    let s := { s with
      mem := Function.update s.mem g.ret ⟨(s.mem g.ret).ptr, nu⟩
      regions := ⟨g.ret, nu⟩ :: s.regions }
    (free fuel s (add g.ret 1)).map fun s => (s, s.freep)

/-- The loop of `malloc`, of at most `fuel` rounds, with the outcomes of `sbrk`. -/
def sysSearch (base nunits : Nat) : Nat → HeapState → List Bool → Nat → Nat →
    Option (HeapState × Nat)
  | 0, _, _, _, _ => none
  | fuel + 1, s, enough, prevp, p =>
      if nunits ≤ (s.mem p).size then some (take s nunits prevp p)
      else if p = s.freep then
        match enough with
        | [] => none
        | e :: enough =>
            match sysMorecore base fuel s nunits e with
            | none => none
            | some (t, q) =>
                if q = 0 then some (t, 0) else sysSearch base nunits fuel t enough q (t.mem q).ptr
      else sysSearch base nunits fuel s enough p (s.mem p).ptr

/-- **`malloc`** on the kernel's `sbrk`. -/
def sysMalloc (base fuel : Nat) (s : HeapState) (nbytes : Nat) (enough : List Bool) :
    Option (HeapState × Nat) :=
  let s := start base s
  sysSearch base (nunits nbytes) fuel s enough s.freep (s.mem s.freep).ptr

/-- The steps of a program whose requests are at most `2^31 - 16` bytes. -/
inductive SysStep (base : Nat) (s : HeapState) : HeapEvent → HeapState → Prop
  | malloc {fuel nbytes ap : Nat} {enough : List Bool} {t : HeapState}
      (hbytes : nbytes + 16 ≤ 2 ^ 31) (hmalloc : sysMalloc base fuel s nbytes enough = some (t, ap)) :
      SysStep base s (.malloc nbytes) (t.handOut ap nbytes)
  | free {fuel : Nat} {b : Chunk} {t : HeapState} (hb : b ∈ s.live)
      (hfree : free fuel s (add b.addr 1) = some t) :
      SysStep base s (.free (add b.addr 1)) { t with live := s.live.erase b }
  | write {m : Nat → Header} (hlive : s.live ≠ [])
      (hm : ∀ a, (∀ b ∈ s.live, a ≤ b.addr ∨ b.stop HEADER ≤ a) → m a = s.mem a) :
      SysStep base s .write { s with mem := m }

/-- A run of a program on the kernel. -/
abbrev SysRun (base : Nat) (mem : Nat → Header) (top : Nat) (tr : List (HeapState × HeapEvent))
    (s : HeapState) : Prop :=
  Exec (SysStep base) (HeapState.new mem top) tr s

/-- **`malloc` has not under-allocated**: it has returned 0, or a pointer to as many bytes as were
asked for, inside the memory of the process and outside every block handed out. -/
def Right (s : HeapState) (nbytes : Nat) (r : Option (HeapState × Nat)) : Prop :=
  ∃ t ap, r = some (t, ap) ∧
    (ap = 0 ∨ ap + nbytes ≤ t.top ∧ ∀ b ∈ s.live, b.stop HEADER ≤ ap ∨ ap + nbytes ≤ b.addr)

/-! ## Requests that do not wrap -/

section

variable {base low : Nat} {s t : HeapState}

/-- What the documented `sbrk` answers where the kernel gives `enough` pages or not. -/
def grant (s : HeapState) (n : Nat) (enough : Bool) : Option Nat :=
  if s.top + HEADER * coreUnits n ≤ USERTOP ∧ enough then some s.top else none

theorem le_pgroundup {a : Nat} (h : a ≤ USERTOP) : a ≤ pgroundup a := by
  unfold pgroundup PGSIZE
  unfold USERTOP at h
  omega

theorem fresh_grant (n : Nat) (enough : Bool) : Fresh s n (grant s n enough) := by
  intro a ha
  unfold grant at ha
  split at ha
  · next h =>
    obtain rfl := Option.some.inj ha
    refine ⟨le_rfl, lt_of_le_of_lt h.1 ?_⟩
    decide
  · cases ha

/-- **The kernel's `sbrk` is the documented one** where the size does not reach `2^31`. -/
theorem sysMorecore_eq {n : Nat} (fuel : Nat) (enough : Bool) (hn : n < 2 ^ 28)
    (hbase : base + HEADER ≤ s.top) (htop : s.top ≤ USERTOP) :
    sysMorecore base fuel s n enough = morecore fuel s n (grant s n enough) := by
  obtain ⟨-, hpos, hbytes, -⟩ := coreUnits_bounds hn
  have hsmall : HEADER * coreUnits n < 2 ^ 31 := by
    unfold coreUnits HEADER
    split <;> omega
  have hne : HEADER * coreUnits n ≠ 0 := by
    unfold HEADER
    omega
  have hmapped := le_pgroundup htop
  have hold : ¬ pgroundup s.top < base + HEADER := by omega
  by_cases hgrant : s.top + HEADER * coreUnits n ≤ USERTOP ∧ enough = true
  · have hsys : sysSbrk s.top (HEADER * coreUnits n) enough =
        ⟨s.top + HEADER * coreUnits n, pgroundup (s.top + HEADER * coreUnits n), s.top⟩ := by
      rw [sysSbrk, if_neg hne, if_pos hsmall, if_pos hgrant]
    have hnew := le_pgroundup hgrant.1
    have hheader : HEADER ≤ HEADER * coreUnits n := Nat.le_mul_of_pos_right _ hpos
    have hret : s.top ≠ 2 ^ 32 - 1 := by
      unfold USERTOP at htop
      omega
    have hend : s.top + HEADER * coreUnits n < 2 ^ 32 :=
      (fresh_grant n enough s.top (if_pos hgrant)).2
    simp only [sysMorecore, hbytes, hsys,
      if_neg (by omega : ¬ pgroundup (s.top + HEADER * coreUnits n) < base + HEADER),
      if_neg (by omega : ¬ pgroundup (s.top + HEADER * coreUnits n) < s.top + HEADER), if_neg hret]
    rw [grant, if_pos hgrant, morecore_some hn le_rfl hend]
    rfl
  · have hsys : sysSbrk s.top (HEADER * coreUnits n) enough =
        ⟨s.top, pgroundup s.top, 2 ^ 32 - 1⟩ := by
      rw [sysSbrk, if_neg hne, if_pos hsmall, if_neg hgrant]
    simp only [sysMorecore, hbytes, hsys, if_neg hold, if_true]
    rw [grant, if_neg hgrant, morecore_none]

theorem free_top {fuel ap : Nat} (h : free fuel s ap = some t) : t.top = s.top := by
  obtain ⟨p, -, rfl⟩ := Option.map_eq_some_iff.mp h
  rfl

/-- The size of the process after `morecore`. -/
theorem top_of_morecore {n fuel q : Nat} {enough : Bool} (hn : n < 2 ^ 28) (htop : s.top ≤ USERTOP)
    (h : morecore fuel s n (grant s n enough) = some (t, q)) : s.top ≤ t.top ∧ t.top ≤ USERTOP := by
  unfold grant at h
  split at h
  · next hgrant =>
    rw [morecore_some hn le_rfl (lt_of_le_of_lt hgrant.1 (by decide))] at h
    obtain ⟨u, hfree, heq⟩ := Option.map_eq_some_iff.mp h
    cases heq
    have ht : t.top = s.top + HEADER * coreUnits n := free_top hfree
    exact ⟨ht ▸ Nat.le_add_right .., ht ▸ hgrant.1⟩
  · rw [morecore_none] at h
    cases h
    exact ⟨le_rfl, htop⟩

theorem take_top (s : HeapState) (n prevp p : Nat) : (take s n prevp p).1.top = s.top := by
  unfold take
  split <;> rfl

/-- **The loop of `malloc` on the kernel** is the one on the documented `sbrk`. -/
theorem sysSearch_eq {n : Nat} (hn : n < 2 ^ 28) (fuel : Nat) {s : HeapState}
    (hbase : base + HEADER ≤ s.top) (htop : s.top ≤ USERTOP) (enough : List Bool) (prevp p : Nat) :
    ∃ answers, answers.length = enough.length ∧ answers.head? = enough.head?.map (grant s n) ∧
      sysSearch base n fuel s enough prevp p = search n fuel s answers prevp p := by
  induction fuel generalizing s enough prevp p with
  | zero => exact ⟨enough.map (grant s n), List.length_map _, List.head?_map .., rfl⟩
  | succ fuel ih =>
      unfold sysSearch search
      by_cases hsize : n ≤ (s.mem p).size
      · refine ⟨enough.map (grant s n), List.length_map _, List.head?_map .., ?_⟩
        rw [if_pos hsize, if_pos hsize]
      by_cases hp : p = s.freep
      · cases enough with
        | nil =>
            refine ⟨[], rfl, rfl, ?_⟩
            rw [if_neg hsize, if_neg hsize, if_pos hp, if_pos hp]
        | cons e enough =>
            simp only [if_neg hsize, if_pos hp, sysMorecore_eq fuel e hn hbase htop]
            cases hcore : morecore fuel s n (grant s n e) with
            | none =>
                refine ⟨grant s n e :: enough.map (grant s n), ?_, rfl, ?_⟩
                · rw [List.length_cons, List.length_map, List.length_cons]
                · simp only [hcore]
            | some r =>
                obtain ⟨t, q⟩ := r
                obtain ⟨hle, htop'⟩ := top_of_morecore hn htop hcore
                obtain ⟨answers, hlen, -, heq⟩ :=
                  ih (le_trans hbase hle) htop' enough q (t.mem q).ptr
                refine ⟨grant s n e :: answers, ?_, rfl, ?_⟩
                · rw [List.length_cons, hlen, List.length_cons]
                · simp only [hcore, heq]
      · obtain ⟨answers, hlen, hhead, heq⟩ := ih hbase htop enough p (s.mem p).ptr
        refine ⟨answers, hlen, hhead, ?_⟩
        rw [if_neg hsize, if_neg hsize, if_neg hp, if_neg hp, heq]

/-- The process stays below its largest size. -/
theorem top_of_sysSearch {n : Nat} (hn : n < 2 ^ 28) {fuel : Nat} {s : HeapState}
    (hbase : base + HEADER ≤ s.top) (htop : s.top ≤ USERTOP) {enough : List Bool} {prevp p ap : Nat}
    (h : sysSearch base n fuel s enough prevp p = some (t, ap)) :
    s.top ≤ t.top ∧ t.top ≤ USERTOP := by
  induction fuel generalizing s enough prevp p with
  | zero => cases h
  | succ fuel ih =>
      unfold sysSearch at h
      split at h
      · have ht := take_top s n prevp p
        rw [Option.some.inj h] at ht
        exact ⟨ht.ge, ht ▸ htop⟩
      · split at h
        · split at h
          · cases h
          · next e enough =>
            rw [sysMorecore_eq fuel e hn hbase htop] at h
            split at h
            · cases h
            · next u q hcore =>
              obtain ⟨hle, htop'⟩ := top_of_morecore hn htop hcore
              split at h
              · cases h
                exact ⟨hle, htop'⟩
              · obtain ⟨hle', htop''⟩ := ih (le_trans hbase hle) htop' h
                exact ⟨le_trans hle hle', htop''⟩
        · exact ih hbase htop h

theorem start_top (base : Nat) (s : HeapState) : (start base s).top = s.top := by
  unfold start
  split <;> rfl

/-- **`malloc` on the kernel** is the one on the documented `sbrk`. -/
theorem sysMalloc_eq {nbytes : Nat} (fuel : Nat) (hunits : nunits nbytes < 2 ^ 28)
    (hbase : base + HEADER ≤ s.top) (htop : s.top ≤ USERTOP) (enough : List Bool) :
    ∃ answers, answers.length = enough.length ∧
      answers.head? = enough.head?.map (grant s (nunits nbytes)) ∧
      sysMalloc base fuel s nbytes enough = malloc base fuel s nbytes answers := by
  have hs := start_top base s
  obtain ⟨answers, hlen, hhead, heq⟩ := sysSearch_eq hunits fuel (s := start base s)
    (hs ▸ hbase) (hs ▸ htop) enough (start base s).freep ((start base s).mem (start base s).freep).ptr
  refine ⟨answers, hlen, ?_, heq⟩
  rw [hhead]
  unfold grant
  rw [hs]

/-! ## Runs on the kernel -/

/-- **A request of at most `2^31 - 16` bytes** never comes out too small. -/
theorem right_of_small (hbase : 0 < base) (hlow : base + HEADER ≤ low)
    (h : Unused low s ∨ InUse base low s) (hsize : low ≤ s.top) (htop : s.top ≤ USERTOP)
    {nbytes : Nat} (hbytes : nbytes + 16 ≤ 2 ^ 31) (enough : Bool) :
    ∃ fuel, Right s nbytes (sysMalloc base fuel s nbytes [enough]) := by
  have hlt : base < low := by
    unfold HEADER at hlow
    omega
  obtain ⟨hpos, hunits, hlarge⟩ := nunits_bounds hbytes
  obtain ⟨fuel, hsome⟩ := malloc_isSome hbase hlt h hunits (fresh_grant (nunits nbytes) enough)
  obtain ⟨answers, hlen, hhead, heq⟩ :=
    sysMalloc_eq fuel hunits (le_trans hlow hsize) htop [enough]
  obtain ⟨answer, rfl⟩ := List.length_eq_one_iff.mp hlen
  obtain rfl : answer = grant s (nunits nbytes) enough := Option.some.inj hhead
  obtain ⟨⟨t, ap⟩, hmalloc⟩ := Option.isSome_iff_exists.mp hsome
  refine ⟨fuel, t, ap, heq.trans hmalloc, ?_⟩
  obtain ⟨l, hinv⟩ := heapInv_start hbase h
  obtain ⟨-, ⟨rfl, -⟩ | ⟨q, l', rfl, hinv'⟩⟩ :=
    hinv.search hbase hlt hpos hunits hinv.rover hmalloc
  · exact .inl rfl
  · right
    have hq : (⟨q, nunits nbytes⟩ : Chunk) ∈ ⟨q, nunits nbytes⟩ :: s.live := List.mem_cons_self
    have hrange := (hinv'.range (List.mem_append_right _ hq)).2
    have hend : q + HEADER < 2 ^ 32 := hinv'.add_lt hq
    have hap : add q 1 = q + HEADER := by
      unfold add HEADER at *
      omega
    change q + HEADER * nunits nbytes ≤ t.top at hrange
    refine ⟨by omega, fun b hb => ?_⟩
    have hdisj : Chunk.Disjoint HEADER ⟨q, nunits nbytes⟩ b :=
      hinv'.live_live hq (by rw [List.erase_cons_head]; exact hb)
    have hbpos := (hinv'.headers b (.tail _ hb)).2
    rcases lt_or_gt_of_ne (addr_ne_of_disjoint hdisj hpos hbpos) with hlt | hgt
    · have hstop : q + HEADER * nunits nbytes ≤ b.addr := stop_le_of_disjoint hdisj hbpos hlt
      exact .inr (by omega)
    · have hstop := stop_le_of_disjoint (c := ⟨q, nunits nbytes⟩) (fun x hx => hdisj x hx.symm) hpos
        hgt
      exact .inl (le_trans hstop (by rw [hap]; exact Nat.le_add_right ..))

/-- What every step of a program on the kernel keeps. -/
structure SysInv (base low : Nat) (s : HeapState) : Prop where
  usable : Unused low s ∨ InUse base low s
  size : low ≤ s.top
  top : s.top ≤ USERTOP

theorem SysInv.step (hbase : 0 < base) (hlow : base + HEADER ≤ low) (h : SysInv base low s)
    {e : HeapEvent} (hstep : SysStep base s e t) : SysInv base low t := by
  have hlt : base < low := by
    unfold HEADER at hlow
    omega
  have hroom := le_trans hlow h.size
  cases hstep with
  | @malloc fuel nbytes ap enough t hbytes hmalloc =>
      obtain ⟨-, hunits, -⟩ := nunits_bounds hbytes
      obtain ⟨answers, -, -, heq⟩ := sysMalloc_eq fuel hunits hroom h.top enough
      have hs := start_top base s
      obtain ⟨hle, htop⟩ := top_of_sysSearch hunits (hs ▸ hroom) (hs ▸ h.top) hmalloc
      have hout : (t.handOut ap nbytes).top = t.top := by
        unfold HeapState.handOut
        split <;> rfl
      refine ⟨.inr (inUse_malloc hbase hlt h.usable hbytes (heq ▸ hmalloc)), ?_, hout ▸ htop⟩
      rw [hout]
      exact le_trans h.size (hs ▸ hle)
  | @free fuel b u hb hfree =>
      have hu := free_top hfree
      refine ⟨.inr (inUse_step hbase hlt h.usable (.free hb hfree)), ?_, ?_⟩
      · exact hu ▸ h.size
      · exact hu ▸ h.top
  | write hlive hm =>
      exact ⟨.inr (inUse_step hbase hlt h.usable (.write hlive hm)), h.size, h.top⟩

theorem sysInv_of_run {top : Nat} {mem : Nat → Header} {tr : List (HeapState × HeapEvent)}
    (hbase : 0 < base) (hlow : base + HEADER ≤ top) (htop : top ≤ USERTOP)
    (hrun : SysRun base mem top tr s) : SysInv base top s :=
  Exec.invariant (fun _ _ _ h hstep => h.step hbase hlow hstep) hrun
    ⟨.inl (unused_new mem (lt_of_le_of_lt htop (by decide))), le_rfl, htop⟩

end

/-! ## Requests that wrap -/

/-- A program whose data end at `4104` and whose memory ends with the page. -/
def fresh : HeapState := HeapState.new (fun _ => ⟨0, 0⟩) 8192

/-- The first call of `malloc` of the program begins at `base`. -/
theorem sysMalloc_fresh (fuel nbytes : Nat) (enough : List Bool) :
    sysMalloc 4096 fuel fresh nbytes enough =
      sysSearch 4096 (nunits nbytes) fuel (start 4096 fresh) enough 4096 4096 := by
  rfl

/-- **A size whose sign has changed**: the kernel maps nothing, so that the process is killed when
`morecore` writes the header. -/
theorem sysMorecore_killed {fuel n : Nat} {enough : Bool} (hlow : 2 ^ 28 ≤ n) (hhigh : n ≤ 2 ^ 29) :
    sysMorecore 4096 fuel (start 4096 fresh) n enough = none := by
  have htop : (start 4096 fresh).top = 8192 := rfl
  have hcore : coreUnits n = n := if_neg (by omega)
  have hpage : pgroundup 8192 = 8192 := by decide
  have hbytes : n * HEADER % 2 ^ 32 = 0 ∨ 2 ^ 31 ≤ n * HEADER % 2 ^ 32 := by
    unfold HEADER
    omega
  simp only [sysMorecore, htop, hcore]
  generalize n * HEADER % 2 ^ 32 = m at hbytes
  have hgone : (sysSbrk 8192 m enough).mapped < 4096 + HEADER ∨
      (sysSbrk 8192 m enough).ret ≠ 2 ^ 32 - 1 ∧
        (sysSbrk 8192 m enough).mapped < (sysSbrk 8192 m enough).ret + HEADER := by
    unfold sysSbrk
    rcases hbytes with rfl | hneg
    · rw [if_pos rfl]
      exact .inr (by decide)
    · rw [if_neg (by omega), if_neg (by omega)]
      have hret : 8192 ≠ 2 ^ 32 - 1 := by decide
      have hheader : 8192 < 8192 + HEADER := by decide
      have hmin : min (pgroundup 8192) (pgroundup ((8192 + m) % 2 ^ 32)) ≤ 8192 :=
        hpage ▸ Nat.min_le_left ..
      simp only
      split
      · split
        · next hzero =>
          rw [hzero]
          exact .inl (by decide)
        · exact .inr ⟨hret, lt_of_le_of_lt hmin hheader⟩
      · exact .inr ⟨hret, lt_of_le_of_lt hmin hheader⟩
  by_cases hprogram : (sysSbrk 8192 m enough).mapped < 4096 + HEADER
  · rw [if_pos hprogram]
  · obtain ⟨hret, hheader⟩ := hgone.resolve_left hprogram
    rw [if_neg hprogram, if_neg hret, if_pos hheader]

/-- Requests from `2^31 - 15` to `2^32 - 8` bytes kill the process. -/
theorem sysMalloc_killed {fuel nbytes : Nat} {enough : Bool} (hlow : 2 ^ 31 < nbytes + 16)
    (hhigh : nbytes + 7 < 2 ^ 32) : sysMalloc 4096 fuel fresh nbytes [enough] = none := by
  have hunits : 2 ^ 28 ≤ nunits nbytes ∧ nunits nbytes ≤ 2 ^ 29 := by
    unfold nunits HEADER
    omega
  rw [sysMalloc_fresh]
  cases fuel with
  | zero => rfl
  | succ fuel =>
      have hsize : ¬ nunits nbytes ≤ ((start 4096 fresh).mem 4096).size := by
        change ¬ nunits nbytes ≤ 0
        omega
      have hrover : 4096 = (start 4096 fresh).freep := rfl
      simp only [sysSearch, if_neg hsize, if_pos hrover, sysMorecore_killed hunits.1 hunits.2]

/-- Requests from `2^32 - 7` bytes on come out as a block of one unit. -/
theorem not_right_of_wrap {fuel nbytes : Nat} (hlow : 2 ^ 32 ≤ nbytes + 7) (hhigh : nbytes < 2 ^ 32) :
    ¬ Right fresh nbytes (sysMalloc 4096 fuel fresh nbytes [true]) := by
  have hunits : nunits nbytes = 1 := by
    unfold nunits HEADER
    omega
  rintro ⟨t, ap, hmalloc, hap⟩
  have hunused : Unused 8192 fresh := unused_new _ (by decide)
  obtain ⟨answers, hlen, hhead, heq⟩ := sysMalloc_eq fuel (by omega : nunits nbytes < 2 ^ 28)
    (by decide : 4096 + HEADER ≤ fresh.top) (by decide) [true]
  obtain ⟨answer, rfl⟩ := List.length_eq_one_iff.mp hlen
  rcases hap with rfl | ⟨hin, -⟩
  · -- the kernel has the pages, so that `sbrk` does not fail
    have hinv : HeapInv 4096 8192 (start 4096 fresh) fresh.live [] := hunused.start
    have hnone := hinv.none_of_search_zero (by decide) (by decide) (by omega) (by omega) hinv.rover
      (heq ▸ hmalloc)
    rw [hunits] at hhead
    obtain rfl : answer = grant fresh 1 true := Option.some.inj hhead
    exact absurd (List.mem_singleton.mp hnone) (by decide)
  · have htop := (top_of_sysSearch (by omega) (by decide) (by decide) hmalloc).2
    unfold USERTOP at htop
    omega

/-- **When `malloc` never under-allocates**: whatever a program has done before with requests of at
most `2^31 - 16` bytes, and whatever `sbrk` finds, `malloc` returns 0 or as many bytes as were asked
for, exactly if this request is of at most `2^31 - 16` bytes, too. -/
theorem malloc_right_iff (nbytes : Nat) (hnbytes : nbytes < 2 ^ 32) :
    (∀ base top mem tr s enough, 0 < base → base + HEADER ≤ top → top ≤ USERTOP →
      SysRun base mem top tr s → ∃ fuel, Right s nbytes (sysMalloc base fuel s nbytes [enough])) ↔
      nbytes + 16 ≤ 2 ^ 31 := by
  constructor
  · intro h
    by_contra hlarge
    obtain ⟨fuel, hright⟩ := h 4096 8192 (fun _ => ⟨0, 0⟩) [] fresh true (by decide) (by decide)
      (by decide) (Exec.nil _)
    by_cases hwrap : nbytes + 7 < 2 ^ 32
    · obtain ⟨t, ap, hmalloc, -⟩ := hright
      rw [sysMalloc_killed (by omega) hwrap] at hmalloc
      cases hmalloc
    · exact not_right_of_wrap (by omega) hnbytes hright
  · intro hsmall base top mem tr s enough hbase hlow htop hrun
    have hinv := sysInv_of_run hbase hlow htop hrun
    exact right_of_small hbase hlow hinv.usable hinv.size hinv.top hsmall enough

/-- The first request of a program, of 100 bytes. -/
theorem malloc_right_hundred : ∃ fuel, Right fresh 100 (sysMalloc 4096 fuel fresh 100 [true]) :=
  (malloc_right_iff 100 (by decide)).mpr (by decide) 4096 8192 (fun _ => ⟨0, 0⟩) [] fresh true
    (by decide) (by decide) (by decide) (Exec.nil _)

/-- **A request of `2^32 - 1` bytes** is answered with a pointer to the end of the memory. -/
theorem malloc_underAllocates :
    (sysMalloc 4096 9 fresh (2 ^ 32 - 1) [true]).map (fun r => (r.2, r.1.top)) =
      some (40960, 40960) := by
  decide +kernel

end Xv6.Umalloc
