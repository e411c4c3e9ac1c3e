import Xv6.User.Free

/-! # The heap over whole runs

`malloc` takes a block from the free list or asks `sbrk` for memory and frees that first; it keeps
the invariant and returns. A program that frees only what it has got and writes only there therefore
always has a heap in order. -/

namespace Xv6.Umalloc

open Lib Chunk

open Function (update update_of_ne update_self)

section

variable {base low : Nat} {s : HeapState} {live l : List Chunk} {b p : Chunk}
  {pre post : List Chunk}

/-! ## `malloc` -/

/-- The last block of a list leads elsewhere. -/
theorem Linked.relink {m : Nat → Header} {z : Nat} (h : Linked m (pre ++ [p]) z)
    (hne : ∀ c ∈ pre, c.addr ≠ p.addr) (z' : Nat) :
    Linked (update m p.addr ⟨z', p.size⟩) (pre ++ [p]) z' := by
  refine linked_append.mpr ⟨(linked_append.mp h).1.congr fun c hc => ?_, ?_, trivial⟩
  · exact update_of_ne (hne c hc) ..
  · exact update_self ..

/-- A free block `c` other than `base`, with the block `prev` before it, the blocks `mid` up to
`prev` and the blocks after it. -/
structure Found (base low : Nat) (s : HeapState) (live l : List Chunk) (pre : List Chunk)
    (prev c : Chunk) (mid post : List Chunk) : Prop where
  inv : HeapInv base low s live l
  above : base < low
  upto : baseBlock base :: mid = pre ++ [prev]
  list : l = mid ++ c :: post

/-- The block after one on the circle, if it is not empty. -/
theorem HeapInv.found (hlow : base < low) (h : HeapInv base low s live l) {prevp n : Nat}
    (hprev : ∃ c ∈ baseBlock base :: l, c.addr = prevp) (hn : 0 < n)
    (hsize : n ≤ (s.mem (s.mem prevp).ptr).size) :
    ∃ pre prev c mid post, prev.addr = prevp ∧ (s.mem prevp).ptr = c.addr ∧
      Found base low s live l pre prev c mid post := by
  obtain ⟨prev, hmem, rfl⟩ := hprev
  obtain ⟨pre, post, hsplit⟩ := List.append_of_mem hmem
  have hlinked := h.linked
  rw [hsplit] at hlinked
  have hptr : (s.mem prev.addr).ptr = first post base := by rw [hlinked.header]
  cases post with
  | nil =>
      have hbase : (s.mem base).size = 0 := by
        have hhead : s.mem base = ⟨first l base, 0⟩ := h.linked.1
        rw [hhead]
      rw [hptr] at hsize
      change n ≤ (s.mem base).size at hsize
      omega
  | cons c post =>
      have hsplit' : baseBlock base :: l = (pre ++ [prev]) ++ c :: post := by
        rw [hsplit, List.append_assoc]
        rfl
      cases pre with
      | nil =>
          obtain ⟨rfl, rfl⟩ := List.cons.inj hsplit
          exact ⟨[], _, c, [], post, rfl, hptr, h, hlow, rfl, rfl⟩
      | cons a pre =>
          obtain ⟨rfl, rfl⟩ := List.cons.inj hsplit'
          exact ⟨baseBlock base :: pre, prev, c, pre ++ [prev], post, rfl, hptr, h, hlow, rfl, rfl⟩

section

variable {prev c : Chunk} {mid : List Chunk} {n : Nat}

section

variable (h : Found base low s live l pre prev c mid post)

include h

theorem Found.mem : c ∈ l := by
  rw [h.list]
  simp

/-- The headers up to the block and from it on. -/
theorem Found.linked :
    Linked s.mem (baseBlock base :: mid) c.addr ∧ s.mem c.addr = ⟨first post base, c.size⟩ ∧
      Linked s.mem post base := by
  have hlinked := h.inv.linked
  rw [h.list, ← List.cons_append] at hlinked
  exact linked_append.mp hlinked

/-- The blocks before and after are in order. -/
theorem Found.order :
    (baseBlock base :: mid).Pairwise (Before HEADER) ∧ post.Pairwise (Before HEADER) ∧
      (∀ b ∈ baseBlock base :: mid, b.Before HEADER c) ∧ (∀ d ∈ post, c.Before HEADER d) ∧
      ∀ b ∈ baseBlock base :: mid, ∀ d ∈ post, b.Before HEADER d := by
  have horder := h.inv.order
  rw [h.list, ← List.cons_append] at horder
  obtain ⟨hmid, hrest, hacross⟩ := List.pairwise_append.mp horder
  obtain ⟨hc, hpost⟩ := List.pairwise_cons.mp hrest
  exact ⟨hmid, hpost, fun b hb => hacross b hb c List.mem_cons_self, hc,
    fun b hb d hd => hacross b hb d (.tail _ hd)⟩

theorem Found.mem_prev : prev ∈ baseBlock base :: mid := by
  rw [h.upto]
  simp

end

/-- A header that is not free is not the one of a free block. -/
theorem HeapInv.header_ne (hlow : base < low) (h : HeapInv base low s live l)
    (hb : b ∈ baseBlock base :: l) (hp : p ∈ live) : p.addr ≠ b.addr := by
  have hpos := (h.headers p hp).2
  rcases List.mem_cons.mp hb with rfl | hl
  · exact (lt_of_lt_of_le hlow (h.range (List.mem_append_right _ hp)).1).ne'
  · exact (addr_ne_of_disjoint (h.free_live hl hp) (h.pos b hl) hpos).symm

/-- **The block is taken as a whole.** -/
theorem Found.takeAll (h : Found base low s live l pre prev c mid post) :
    HeapInv base low
      { s with
        mem := update s.mem prev.addr ⟨first post base, prev.size⟩
        freep := prev.addr } (c :: live) (mid ++ post) := by
  obtain ⟨hmid, hheader, hpost⟩ := h.linked
  obtain ⟨omid, opost, -, -, hacross⟩ := h.order
  have hprev := h.mem_prev
  have hprevl : prev ∈ baseBlock base :: l := by
    rw [h.list, ← List.cons_append]
    exact List.mem_append_left _ hprev
  have hsub : ∀ b ∈ mid ++ post, b ∈ l := by
    intro b hb
    rw [h.list]
    rcases List.mem_append.mp hb with hb | hb
    · exact List.mem_append_left _ hb
    · exact List.mem_append_right _ (.tail _ hb)
  refine ⟨?_, ?_, fun b hb => h.inv.pos b (hsub b hb), ⟨prev, ?_, rfl⟩, fun x => ?_, h.inv.once,
    fun b hb => ?_, h.inv.bound, h.inv.low_le, h.inv.top_lt⟩
  · rw [← List.cons_append]
    refine linked_append.mpr ⟨?_, hpost.congr fun d hd => ?_⟩
    · rw [h.upto] at hmid omid ⊢
      exact hmid.relink (fun d hd =>
        ((List.pairwise_append.mp omid).2.2 d hd prev (by simp)).addr_lt.ne) _
    · exact update_of_ne (hacross prev hprev d hd).addr_lt.ne' ..
  · rw [← List.cons_append]
    exact List.pairwise_append.mpr ⟨omid, opost, hacross⟩
  · rw [← List.cons_append]
    exact List.mem_append_left _ hprev
  · have hcover := h.inv.cover x
    rw [h.list] at hcover
    simp only [cover_append, cover_cons] at hcover ⊢
    omega
  · show (update s.mem prev.addr _ b.addr).size = b.size ∧ _
    rcases List.mem_cons.mp hb with rfl | hlive
    · have hne : b.addr ≠ prev.addr := (h.order.2.2.1 prev hprev).addr_lt.ne'
      rw [update_of_ne hne, hheader]
      exact ⟨rfl, h.inv.pos b h.mem⟩
    · rw [update_of_ne (h.inv.header_ne h.above hprevl hlive)]
      exact h.inv.headers b hlive

/-- **The tail of the block is taken.** -/
theorem Found.takeTail (h : Found base low s live l pre prev c mid post) (hn : 0 < n)
    (hlt : n < c.size) {m : Nat → Header} {q : Nat} (hq : q = c.addr + HEADER * (c.size - n))
    (hm : m = update s.mem c.addr ⟨first post base, c.size - n⟩) :
    HeapInv base low
      { s with mem := update m q ⟨(m q).ptr, n⟩, freep := prev.addr }
      (⟨q, n⟩ :: live) (mid ++ ⟨c.addr, c.size - n⟩ :: post) := by
  obtain ⟨hmid, hheader, hpost⟩ := h.linked
  obtain ⟨omid, opost, hbefore, hafter, hacross⟩ := h.order
  have hcl := h.mem
  have hcq : c.addr < q := by
    unfold HEADER at hq
    omega
  have hqstop : q + HEADER * n = c.stop HEADER := by
    rw [hq]
    unfold stop HEADER
    omega
  have hhas : c.Has HEADER q := by
    refine ⟨hcq.le, ?_⟩
    rw [← hqstop]
    unfold HEADER
    omega
  -- the new list differs from the old one in the size of the block
  have hstop : (⟨c.addr, c.size - n⟩ : Chunk).stop HEADER = q := hq.symm
  have hmem : ∀ x, x ≠ c.addr → x ≠ q → update m q ⟨(m q).ptr, n⟩ x = s.mem x := by
    intro x hxc hxq
    rw [update_of_ne hxq, hm, update_of_ne hxc]
  have hleft : ∀ b ∈ baseBlock base :: mid,
      update m q ⟨(m q).ptr, n⟩ b.addr = s.mem b.addr := by
    intro b hb
    have hlt' := (hbefore b hb).addr_lt
    exact hmem _ hlt'.ne (lt_trans hlt' hcq).ne
  have hright : ∀ d ∈ post, update m q ⟨(m q).ptr, n⟩ d.addr = s.mem d.addr := by
    intro d hd
    have hlt' : c.stop HEADER < d.addr := hafter d hd
    have hqlt : q < d.addr := lt_trans hhas.2 hlt'
    exact hmem _ (lt_trans hcq hqlt).ne' hqlt.ne'
  refine ⟨?_, ?_, fun b hb => ?_, ⟨prev, ?_, rfl⟩, fun x => ?_, h.inv.once, fun b hb => ?_,
    h.inv.bound, h.inv.low_le, h.inv.top_lt⟩
  · rw [← List.cons_append]
    refine linked_append.mpr ⟨hmid.congr hleft, ?_, hpost.congr hright⟩
    show update m q ⟨(m q).ptr, n⟩ c.addr = _
    rw [update_of_ne hcq.ne, hm, update_self]
  · rw [← List.cons_append]
    refine List.pairwise_append.mpr ⟨omid, List.pairwise_cons.mpr ⟨fun d hd => ?_, opost⟩,
      fun b hb d hd => ?_⟩
    · show _ < d.addr
      rw [hstop]
      exact lt_trans hhas.2 (hafter d hd)
    · rcases List.mem_cons.mp hd with rfl | hd
      · exact hbefore b hb
      · exact hacross b hb d hd
  · rcases List.mem_append.mp hb with hb | hb
    · exact h.inv.pos b (by rw [h.list]; exact List.mem_append_left _ hb)
    · rcases List.mem_cons.mp hb with rfl | hb
      · exact Nat.sub_pos_of_lt hlt
      · exact h.inv.pos b (by rw [h.list]; simp [hb])
  · rw [← List.cons_append]
    exact List.mem_append_left _ h.mem_prev
  · have hcover := h.inv.cover x
    have hsplit := cover_split (u := HEADER) c.addr (c.size - n) n x
    rw [Nat.sub_add_cancel hlt.le, ← hq, show (⟨c.addr, c.size⟩ : Chunk) = c from rfl] at hsplit
    rw [h.list] at hcover
    simp only [cover_append, cover_cons, cover_nil] at hcover hsplit ⊢
    omega
  · show (update m q ⟨(m q).ptr, n⟩ b.addr).size = b.size ∧ _
    rcases List.mem_cons.mp hb with rfl | hlive
    · rw [update_self]
      exact ⟨rfl, hn⟩
    · have hpos := (h.inv.headers b hlive).2
      have hbq : b.addr ≠ q := fun heq =>
        h.inv.free_live hcl hlive q ⟨hhas, heq ▸ has_addr (by decide) hpos⟩
      rw [hmem _ (h.inv.header_ne h.above (.tail _ hcl) hlive) hbq]
      exact h.inv.headers b hlive

/-- **`malloc` takes a block from the free list.** -/
theorem HeapInv.take (hlow : base < low) (h : HeapInv base low s live l) {prevp : Nat}
    (hprev : ∃ c ∈ baseBlock base :: l, c.addr = prevp) (hn : 0 < n)
    (hsize : n ≤ (s.mem (s.mem prevp).ptr).size) {t : HeapState} {ap : Nat}
    (htake : take s n prevp (s.mem prevp).ptr = (t, ap)) :
    SameRecords s t ∧ ∃ q l', ap = add q 1 ∧ HeapInv base low t (⟨q, n⟩ :: live) l' := by
  obtain ⟨pre, prev, c, mid, post, rfl, hptr, hfound⟩ := h.found hlow hprev hn hsize
  have hheader := hfound.linked.2.1
  have hprevsize : (s.mem prev.addr).size = prev.size := by
    obtain ⟨hmid, -, -⟩ := hfound.linked
    rw [hfound.upto] at hmid
    rw [hmid.header]
  have hcstop : c.stop HEADER < 2 ^ 32 :=
    lt_of_le_of_lt (h.range (List.mem_append_left _ hfound.mem)).2 h.top_lt
  unfold Umalloc.take at htake
  rw [hptr, hheader] at htake
  split at htake
  · rename_i hexact
    cases htake
    have hc : c = ⟨c.addr, n⟩ := by rw [← hexact]
    refine ⟨⟨rfl, rfl⟩, c.addr, mid ++ post, rfl, ?_⟩
    rw [hprevsize, ← hc]
    exact hfound.takeAll
  · rename_i hmore
    have hlt : n < c.size := by
      rw [hptr, hheader] at hsize
      change ¬ c.size = n at hmore
      change n ≤ c.size at hsize
      omega
    simp only [update_self] at htake
    have hadd : add c.addr (c.size - n) = c.addr + HEADER * (c.size - n) := by
      refine Nat.mod_eq_of_lt (lt_of_le_of_lt ?_ hcstop)
      unfold stop HEADER
      omega
    cases htake
    exact ⟨⟨rfl, rfl⟩, _, _, rfl, hfound.takeTail hn hlt hadd rfl⟩

end

/-- **Memory from `sbrk`** is a block that is not free yet. -/
theorem HeapInv.grow (hlow : base < low) (h : HeapInv base low s live l) {a nu : Nat}
    (ha : s.top ≤ a) (hend : a + HEADER * nu < 2 ^ 32) (hnu : 0 < nu) (ptr : Nat) :
    HeapInv base low
      { s with
        mem := update s.mem a ⟨ptr, nu⟩
        regions := ⟨a, nu⟩ :: s.regions
        top := a + HEADER * nu } (⟨a, nu⟩ :: live) l := by
  -- all that there is lies below
  have hbelow : ∀ b ∈ l ++ live, b.addr < a := by
    intro b hb
    have hrange := h.range hb
    have hpos := h.size_pos hb
    unfold stop HEADER at hrange
    omega
  refine ⟨h.linked.congr fun b hb => ?_, h.order, h.pos, h.rover, fun x => ?_, fun x => ?_,
    fun b hb => ?_, fun r hr => ?_, ?_, hend⟩
  · refine update_of_ne ?_ ..
    rcases List.mem_cons.mp hb with rfl | hl
    · have := h.low_le
      show base ≠ a
      omega
    · exact (hbelow b (List.mem_append_left _ hl)).ne
  · have hcover := h.cover x
    simp only [cover_cons]
    omega
  · rw [cover_cons]
    split
    · rename_i hx
      have hnone : Chunk.cover HEADER s.regions x = 0 := by
        by_contra hpos
        obtain ⟨r, hr, hrx⟩ := cover_pos.mp (Nat.pos_of_ne_zero hpos)
        have hle := (h.bound r hr).2
        have hlt := hrx.2
        have hge := hx.1
        change a ≤ x at hge
        omega
      rw [hnone]
    · exact h.once x
  · rcases List.mem_cons.mp hb with rfl | hlive
    · show (update s.mem a _ a).size = nu ∧ 0 < nu
      rw [update_self]
      exact ⟨rfl, hnu⟩
    · show (update s.mem a _ b.addr).size = b.size ∧ _
      rw [update_of_ne (hbelow b (List.mem_append_right _ hlive)).ne]
      exact h.headers b hlive
  · have hlow_le := h.low_le
    rcases List.mem_cons.mp hr with rfl | hr
    · exact ⟨le_trans hlow_le ha, le_rfl⟩
    · refine ⟨(h.bound r hr).1, le_trans (h.bound r hr).2 ?_⟩
      show s.top ≤ a + HEADER * nu
      omega
  · have hlow_le := h.low_le
    show low ≤ a + HEADER * nu
    omega

/-- A block that is not free is not at the end of the address space. -/
theorem HeapInv.add_lt (h : HeapInv base low s live l)
    (hb : b ∈ live) : b.addr + HEADER < 2 ^ 32 := by
  have hb' := List.mem_append_right l hb
  have hrange := h.range hb'
  have hpos := h.size_pos hb'
  have htop := h.top_lt
  unfold stop HEADER at hrange
  unfold HEADER
  omega

theorem add_one_ne_zero {q : Nat} (h : q + HEADER < 2 ^ 32) : add q 1 ≠ 0 := by
  unfold add HEADER at *
  omega

theorem HeapInv.freep_pos (hbase : 0 < base) (h : HeapInv base low s live l) : s.freep ≠ 0 := by
  obtain ⟨b, hb, heq⟩ := h.rover
  have := h.base_le hb
  omega

/-- The number of units that `morecore` asks for. -/
def coreUnits (nu : Nat) : Nat := if nu < 4096 then 4096 else nu

theorem coreUnits_bounds {nu : Nat} (h : nu < 2 ^ 28) :
    nu ≤ coreUnits nu ∧ 0 < coreUnits nu ∧ coreUnits nu * HEADER % 2 ^ 32 = HEADER * coreUnits nu ∧
      4096 ≤ coreUnits nu := by
  unfold coreUnits HEADER
  split <;> omega

/-- `morecore` where `sbrk` fails. -/
theorem morecore_none (fuel n : Nat) : Umalloc.morecore fuel s n none = some (s, 0) := rfl

/-- The heap to which `morecore` has added a region of `nu` units at `a`, which is yet to be
freed. -/
def HeapState.extend (s : HeapState) (a nu : Nat) : HeapState :=
  { s with
    mem := update s.mem a ⟨(s.mem a).ptr, nu⟩
    regions := ⟨a, nu⟩ :: s.regions
    top := a + HEADER * nu }

variable {answer : Option Nat} {t : HeapState} {s : HeapState}

/-- `morecore` with the size it asks for. -/
theorem morecore_eq {fuel n : Nat} (hn : n < 2 ^ 28) :
    Umalloc.morecore fuel s n answer =
      (sbrk s (HEADER * coreUnits n) answer).bind fun r =>
        if r.2 = 2 ^ 32 - 1 then some (r.1, 0)
        else (Umalloc.free fuel { r.1 with
            mem := update r.1.mem r.2 ⟨(r.1.mem r.2).ptr, coreUnits n⟩
            regions := ⟨r.2, coreUnits n⟩ :: r.1.regions } (add r.2 1)).map fun t => (t, t.freep) := by
  obtain ⟨-, -, hbytes, -⟩ := coreUnits_bounds hn
  rw [← hbytes]
  unfold Umalloc.morecore coreUnits
  dsimp only
  cases sbrk s ((if n < 4096 then 4096 else n) * HEADER % 2 ^ 32) answer with
  | none => rfl
  | some r => rfl

/-- `morecore` where `sbrk` answers an address: the new region is freed. -/
theorem morecore_some {fuel n a : Nat} (hn : n < 2 ^ 28) (ha : s.top ≤ a)
    (hend : a + HEADER * coreUnits n < 2 ^ 32) :
    Umalloc.morecore fuel s n (some a) =
      (Umalloc.free fuel (s.extend a (coreUnits n)) (add a 1)).map fun t => (t, t.freep) := by
  have hpos := (coreUnits_bounds hn).2.1
  have hret : a ≠ 2 ^ 32 - 1 := by
    unfold HEADER at hend
    omega
  rw [morecore_eq hn]
  simp only [sbrk, if_pos (And.intro ha hend), Option.bind_some, if_neg hret]
  rfl

/-- `morecore` returns only if `sbrk` fails or answers an address above all memory. -/
theorem morecore_cases {fuel n : Nat} {r : HeapState × Nat} (hn : n < 2 ^ 28)
    (h : Umalloc.morecore fuel s n answer = some r) :
    answer = none ∨ ∃ a, answer = some a ∧ s.top ≤ a ∧ a + HEADER * coreUnits n < 2 ^ 32 := by
  cases answer with
  | none => exact .inl rfl
  | some a =>
      refine .inr ⟨a, rfl, ?_⟩
      rw [morecore_eq hn] at h
      by_contra hnot
      simp only [sbrk, if_neg hnot, Option.bind_none] at h
      cases h

/-- **What `morecore` does**: nothing, or it adds a block that is large enough. -/
theorem HeapInv.morecore (hbase : 0 < base) (hlow : base < low) (h : HeapInv base low s live l)
    {nu fuel q : Nat} (hnu : nu < 2 ^ 28) (hcore : morecore fuel s nu answer = some (t, q)) :
    (answer = none ∧ q = 0 ∧ t = s) ∨ (q = t.freep ∧ q ≠ 0 ∧ SameRecords s t ∧
      ∃ l', HeapInv base low t live l' ∧ l'.length ≤ l.length + 1 ∧ ∃ c ∈ l', nu ≤ c.size) := by
  obtain ⟨hle, hpos, -, -⟩ := coreUnits_bounds hnu
  rcases morecore_cases hnu hcore with rfl | ⟨a, rfl, ha, hend⟩
  · cases hcore
    exact .inl ⟨rfl, rfl, rfl⟩
  · rw [morecore_some hnu ha hend] at hcore
    obtain ⟨t', hfree, heq⟩ := Option.map_eq_some_iff.mp hcore
    cases heq
    have hgrow := h.grow hlow ha hend hpos (s.mem a).ptr
    obtain ⟨hsame, l', hinv, hlen, c, hc, hsize⟩ :=
      hgrow.free hlow (b := ⟨a, coreUnits nu⟩) List.mem_cons_self hfree
    rw [List.erase_cons_head] at hinv
    exact .inr ⟨rfl, hinv.freep_pos hbase, ⟨hsame.live, hsame.asked⟩, l', hinv, hlen, c, hc,
      le_trans hle hsize⟩

/-- The block after one on the circle is on the circle. -/
theorem HeapInv.next_mem (h : HeapInv base low s live l) {a : Nat}
    (ha : ∃ c ∈ baseBlock base :: l, c.addr = a) :
    ∃ c ∈ baseBlock base :: l, c.addr = (s.mem a).ptr := by
  obtain ⟨b, hb, rfl⟩ := ha
  obtain ⟨pre, post, hsplit⟩ := List.append_of_mem hb
  have hlinked := h.linked
  rw [hsplit] at hlinked
  rw [hlinked.header]
  cases post with
  | nil => exact ⟨_, List.mem_cons_self, rfl⟩
  | cons c post => exact ⟨c, by rw [hsplit]; simp, rfl⟩

/-- **The loop of `malloc`** keeps the invariant, and returns a block of the size asked for. -/
theorem HeapInv.search (hbase : 0 < base) (hlow : base < low) {n : Nat} (hn : 0 < n)
    (hmax : n < 2 ^ 28) {fuel : Nat} {l : List Chunk} (h : HeapInv base low s live l)
    {answers : List (Option Nat)} {prevp : Nat} (hprev : ∃ c ∈ baseBlock base :: l, c.addr = prevp)
    {ap : Nat} (hsearch : search n fuel s answers prevp (s.mem prevp).ptr = some (t, ap)) :
    SameRecords s t ∧ ((ap = 0 ∧ ∃ l', HeapInv base low t live l') ∨
      ∃ q l', ap = add q 1 ∧ HeapInv base low t (⟨q, n⟩ :: live) l') := by
  induction fuel generalizing s l answers prevp with
  | zero => cases hsearch
  | succ fuel ih =>
      unfold Umalloc.search at hsearch
      split at hsearch
      · rename_i hsize
        obtain ⟨hsame, hblock⟩ := h.take hlow hprev hn hsize (Option.some.inj hsearch)
        exact ⟨hsame, .inr hblock⟩
      · split at hsearch
        · split at hsearch
          · cases hsearch
          · split at hsearch
            · cases hsearch
            · rename_i u q hcore
              rcases h.morecore hbase hlow hmax hcore with
                ⟨-, rfl, rfl⟩ | ⟨hq, hq0, hsame, l', hinv, -⟩
              · rw [if_pos rfl] at hsearch
                cases hsearch
                exact ⟨⟨rfl, rfl⟩, .inl ⟨rfl, l, h⟩⟩
              · rw [if_neg hq0] at hsearch
                obtain ⟨hsame', hres⟩ := ih hinv (hq ▸ hinv.rover) hsearch
                exact ⟨⟨hsame'.live.trans hsame.live, hsame'.asked.trans hsame.asked⟩, hres⟩
        · exact ih h (h.next_mem hprev) hsearch

/-- The answers of `sbrk` do not matter to a loop that asks for none. -/
theorem search_of_nil {n fuel : Nat} {prevp p : Nat} {r : HeapState × Nat}
    (answers : List (Option Nat)) (h : search n fuel s [] prevp p = some r) :
    search n fuel s answers prevp p = some r := by
  induction fuel generalizing prevp p with
  | zero => cases h
  | succ fuel ih =>
      unfold search at h ⊢
      split at h
      · next hsize => rwa [if_pos hsize]
      · next hsize =>
        rw [if_neg hsize]
        split at h
        · cases h
        · next hp =>
          rw [if_neg hp]
          exact ih h

/-- **`malloc` returns 0 only if `sbrk` fails.** -/
theorem HeapInv.none_of_search_zero (hbase : 0 < base) (hlow : base < low) {n : Nat} (hn : 0 < n)
    (hmax : n < 2 ^ 28) {fuel : Nat} {l : List Chunk} (h : HeapInv base low s live l)
    {answers : List (Option Nat)} {prevp : Nat} (hprev : ∃ c ∈ baseBlock base :: l, c.addr = prevp)
    (hsearch : Umalloc.search n fuel s answers prevp (s.mem prevp).ptr = some (t, 0)) :
    none ∈ answers := by
  induction fuel generalizing s l answers prevp with
  | zero => cases hsearch
  | succ fuel ih =>
      unfold Umalloc.search at hsearch
      split at hsearch
      · rename_i hsize
        obtain ⟨-, q, l', hq, hinv⟩ := h.take hlow hprev hn hsize (Option.some.inj hsearch)
        exact absurd hq.symm (add_one_ne_zero (hinv.add_lt (b := ⟨q, n⟩) List.mem_cons_self))
      · split at hsearch
        · split at hsearch
          · cases hsearch
          · split at hsearch
            · cases hsearch
            · rename_i u q hcore
              rcases h.morecore hbase hlow hmax hcore with
                ⟨rfl, -⟩ | ⟨hq, hq0, -, l', hinv, -⟩
              · exact List.mem_cons_self
              · rw [if_neg hq0] at hsearch
                exact .tail _ (ih hinv (hq ▸ hinv.rover) hsearch)
        · exact ih h (h.next_mem hprev) hsearch

/-- **A pass through the list**: if a block that is large enough comes before the roving pointer,
the loop of `malloc` returns there; otherwise it comes to the roving pointer. -/
theorem search_isSome {n : Nat} (fuel : Nat) (answers : List (Option Nat)) {k : List Chunk}
    (hk : Linked s.mem (b :: k) s.freep) (hne : ∀ c ∈ k, c.addr ≠ s.freep)
    (hend : (∀ c ∈ k, c.size < n) → ∀ a, (search n fuel s answers a s.freep).isSome) :
    (search n (k.length + fuel) s answers b.addr (first k s.freep)).isSome := by
  induction k generalizing b with
  | nil =>
      rw [List.length_nil, Nat.zero_add]
      exact hend (fun c hc => (nomatch hc)) _
  | cons c k ih =>
      rw [List.length_cons, Nat.add_right_comm]
      unfold search
      split
      · rfl
      · rename_i hsmall
        have hheader : s.mem c.addr = ⟨first k s.freep, c.size⟩ := hk.2.1
        have hlt : c.size < n := by
          change ¬ n ≤ (s.mem c.addr).size at hsmall
          rw [hheader] at hsmall
          exact not_le.mp hsmall
        rw [if_neg (show first (c :: k) s.freep ≠ s.freep from hne c List.mem_cons_self)]
        show (search n (k.length + fuel) s answers c.addr (s.mem c.addr).ptr).isSome
        rw [hheader]
        refine ih hk.2 (fun d hd => hne d (.tail _ hd)) fun hall => hend fun d hd => ?_
        rcases List.mem_cons.mp hd with rfl | hd
        · exact hlt
        · exact hall d hd

/-- What `sbrk` may answer to a `malloc` of `n` units. -/
def Fresh (s : HeapState) (n : Nat) (answer : Option Nat) : Prop :=
  ∀ a, answer = some a → s.top ≤ a ∧ a + HEADER * coreUnits n < 2 ^ 32

/-- **`morecore` returns.** -/
theorem HeapInv.morecore_isSome (hlow : base < low) (h : HeapInv base low s live l) {nu : Nat}
    (fuel : Nat) (hnu : nu < 2 ^ 28) (hanswer : Fresh s nu answer) (hfuel : l.length < fuel) :
    (Umalloc.morecore fuel s nu answer).isSome := by
  obtain ⟨-, hpos, -, -⟩ := coreUnits_bounds hnu
  cases answer with
  | none => rfl
  | some a =>
      obtain ⟨ha, hend⟩ := hanswer a rfl
      rw [morecore_some hnu ha hend, Option.isSome_map]
      exact (h.grow hlow ha hend hpos (s.mem a).ptr).free_isSome hlow
        (b := ⟨a, coreUnits nu⟩) List.mem_cons_self hfuel

/-- **The loop of `malloc` ends**, after at most two passes through the list. -/
theorem HeapInv.search_isSome (hbase : 0 < base) (hlow : base < low) (h : HeapInv base low s live l)
    {n : Nat} (hmax : n < 2 ^ 28) (hanswer : Fresh s n answer) :
    (Umalloc.search n (l.length + (l.length + 3)) s [answer] s.freep (s.mem s.freep).ptr).isSome := by
  obtain ⟨f, k, hfreep, hwalk, -, hlen, hne⟩ := h.circle
  have hheader : s.mem s.freep = ⟨first k s.freep, f.size⟩ := hfreep ▸ hwalk.1
  have hpass := Umalloc.search_isSome (n := n) (l.length + 3) [answer] hwalk hne
  rw [hfreep, hlen] at hpass
  rw [hheader]
  refine hpass fun _ a => ?_
  -- at the roving pointer: the block there, or more memory
  unfold Umalloc.search
  split
  · rfl
  · rw [if_pos rfl]
    obtain ⟨⟨t, q⟩, hcore⟩ := Option.isSome_iff_exists.mp
      (h.morecore_isSome hlow (l.length + 2) hmax hanswer (by omega))
    simp only [hcore]
    rcases h.morecore hbase hlow hmax hcore with ⟨-, rfl, -⟩ | ⟨rfl, hq0, -, l', hinv, hlen', big, hbig, hsize⟩
    · rw [if_pos rfl]
      rfl
    · rw [if_neg hq0]
      obtain ⟨f', k', hfreep', hwalk', hmem', hklen', hne'⟩ := hinv.circle
      have hheader' : t.mem t.freep = ⟨first k' t.freep, f'.size⟩ := hfreep' ▸ hwalk'.1
      obtain ⟨extra, hextra⟩ : ∃ extra, l.length + 2 = k'.length + (extra + 1) :=
        ⟨l.length + 1 - k'.length, by omega⟩
      have hpass' := Umalloc.search_isSome (n := n) (extra + 1) [] hwalk' hne'
      rw [hfreep', ← hextra] at hpass'
      rw [hheader']
      refine hpass' fun hsmall a' => ?_
      -- only the block at the roving pointer can be the large one
      have hf' : n ≤ f'.size := by
        rcases List.mem_cons.mp ((hmem' big).mpr (.tail _ hbig)) with rfl | hk
        · exact hsize
        · have := hsmall big hk
          omega
      unfold Umalloc.search
      rw [hheader', if_pos hf']
      rfl

end

/-! ## Programs -/

/-- The heap of a program that has called `malloc`. -/
def InUse (base low : Nat) (s : HeapState) : Prop :=
  (∃ l, HeapInv base low s s.live l) ∧ ∀ b ∈ s.live, s.asked b.addr + HEADER ≤ HEADER * b.size

/-- The heap of a program that has not called `malloc` yet. -/
structure Unused (low : Nat) (s : HeapState) : Prop where
  freep : s.freep = 0
  regions : s.regions = []
  live : s.live = []
  low_le : low ≤ s.top
  top_lt : s.top < 2 ^ 32

section

variable {base low : Nat} {s t : HeapState}

theorem Unused.start (h : Unused low s) : HeapInv base low (start base s) s.live [] := by
  have hstart : Umalloc.start base s =
      { s with mem := update s.mem base ⟨base, 0⟩, freep := base } := if_pos h.freep
  have hnone : ∀ x, Chunk.cover HEADER s.regions x = 0 := fun x => by rw [h.regions, cover_nil]
  rw [hstart, h.live]
  refine ⟨⟨update_self .., trivial⟩, List.pairwise_singleton _ _, fun b hb => (nomatch hb),
    ⟨_, List.mem_cons_self, rfl⟩, fun x => (hnone x).symm, fun x => ?_, fun b hb => (nomatch hb),
    fun r hr => ?_, h.low_le, h.top_lt⟩
  · show Chunk.cover HEADER s.regions x ≤ 1
    rw [hnone]
    exact Nat.zero_le 1
  · change r ∈ s.regions at hr
    rw [h.regions] at hr
    cases hr

/-- `malloc` begins with a list in order. -/
theorem heapInv_start (hbase : 0 < base) (h : Unused low s ∨ InUse base low s) :
    ∃ l, HeapInv base low (start base s) s.live l := by
  rcases h with hunused | ⟨⟨l, hinv⟩, -⟩
  · exact ⟨[], hunused.start⟩
  · refine ⟨l, ?_⟩
    rw [start, if_neg (hinv.freep_pos hbase)]
    exact hinv

theorem start_records (base : Nat) (s : HeapState) : SameRecords s (start base s) := by
  unfold start
  split <;> exact ⟨rfl, rfl⟩

theorem nunits_bounds {nbytes : Nat} (h : nbytes + 16 ≤ 2 ^ 31) :
    0 < nunits nbytes ∧ nunits nbytes < 2 ^ 28 ∧ nbytes + HEADER ≤ HEADER * nunits nbytes := by
  unfold nunits HEADER
  omega

/-- The block that `malloc` hands out. -/
theorem inUse_handOut {q n nbytes : Nat} {l : List Chunk}
    (h : HeapInv base low t (⟨q, n⟩ :: t.live) l) (hn : nbytes + HEADER ≤ HEADER * n)
    (hasked : ∀ b ∈ t.live, t.asked b.addr + HEADER ≤ HEADER * b.size) :
    InUse base low (t.handOut (add q 1) nbytes) := by
  have hpos : 0 < n := (h.headers ⟨q, n⟩ List.mem_cons_self).2
  have hend : q + HEADER < 2 ^ 32 := h.add_lt (b := ⟨q, n⟩) List.mem_cons_self
  have hpred := pred_add hend
  have hne := add_one_ne_zero hend
  have hsize : (t.mem q).size = n := (h.headers ⟨q, n⟩ List.mem_cons_self).1
  unfold HeapState.handOut
  rw [if_neg hne, hpred, hsize]
  refine ⟨⟨l, h.linked, h.order, h.pos, h.rover, h.cover, h.once, h.headers, h.bound, h.low_le,
    h.top_lt⟩, fun b hb => ?_⟩
  show update t.asked q nbytes b.addr + HEADER ≤ HEADER * b.size
  rcases List.mem_cons.mp hb with rfl | hb
  · rw [update_self]
    exact hn
  · have hdisj : Chunk.Disjoint HEADER ⟨q, n⟩ b :=
      h.live_live List.mem_cons_self (by rw [List.erase_cons_head]; exact hb)
    have hbpos := (h.headers b (.tail _ hb)).2
    rw [update_of_ne (addr_ne_of_disjoint hdisj hpos hbpos).symm]
    exact hasked b hb

/-- **A call of `malloc` leaves the heap in order.** -/
theorem inUse_malloc (hbase : 0 < base) (hlow : base < low) (h : Unused low s ∨ InUse base low s)
    {fuel nbytes ap : Nat} {answers : List (Option Nat)} (hbytes : nbytes + 16 ≤ 2 ^ 31)
    (hmalloc : malloc base fuel s nbytes answers = some (t, ap)) :
    InUse base low (t.handOut ap nbytes) := by
  obtain ⟨hpos, hmax, hlarge⟩ := nunits_bounds hbytes
  obtain ⟨l, hinv⟩ := heapInv_start hbase h
  have hstart := start_records base s
  obtain ⟨hsame, hres⟩ := hinv.search hbase hlow hpos hmax hinv.rover hmalloc
  have hlive : t.live = s.live := hsame.live.trans hstart.live
  have hasked : ∀ b ∈ t.live, t.asked b.addr + HEADER ≤ HEADER * b.size := by
    intro b hb
    rw [hsame.asked, hstart.asked]
    rw [hlive] at hb
    rcases h with hunused | hused
    · rw [hunused.live] at hb
      cases hb
    · exact hused.2 b hb
  rw [← hlive] at hres
  rcases hres with ⟨rfl, l', hinv'⟩ | ⟨q, l', rfl, hinv'⟩
  · exact ⟨⟨l', hinv'⟩, hasked⟩
  · exact inUse_handOut hinv' hlarge hasked

/-- **`malloc` returns** if `sbrk` answers once. -/
theorem malloc_isSome (hbase : 0 < base) (hlow : base < low) (h : Unused low s ∨ InUse base low s)
    {nbytes : Nat} (hunits : nunits nbytes < 2 ^ 28) {answer : Option Nat}
    (hanswer : Fresh s (nunits nbytes) answer) :
    ∃ fuel, (malloc base fuel s nbytes [answer]).isSome := by
  obtain ⟨l, hinv⟩ := heapInv_start hbase h
  have htop : (start base s).top = s.top := by
    unfold start
    split <;> rfl
  refine ⟨l.length + (l.length + 3), ?_⟩
  exact hinv.search_isSome hbase hlow hunits fun a ha => htop ▸ hanswer a ha

/-- What a program may write to leaves all headers. -/
theorem HeapInv.write (hlow : base < low) {l : List Chunk} (h : HeapInv base low s s.live l)
    {m : Nat → Header}
    (hm : ∀ a, (∀ b ∈ s.live, a ≤ b.addr ∨ b.stop HEADER ≤ a) → m a = s.mem a) :
    HeapInv base low { s with mem := m } s.live l := by
  have hlive : ∀ b ∈ s.live, m b.addr = s.mem b.addr := by
    refine fun b hb => hm _ fun c hc => ?_
    by_cases heq : b = c
    · exact .inl (heq ▸ le_rfl)
    · refine (le_or_gt b.addr c.addr).imp id fun hlt => ?_
      exact stop_le_of_disjoint (h.live_live hc ((List.mem_erase_of_ne heq).mpr hb))
        (h.headers b hb).2 hlt
  have hfree : ∀ b ∈ baseBlock base :: l, m b.addr = s.mem b.addr := by
    refine fun b hb => hm _ fun c hc => ?_
    rcases List.mem_cons.mp hb with rfl | hl
    · exact .inl (le_trans hlow.le (h.range (List.mem_append_right _ hc)).1)
    · refine (le_or_gt b.addr c.addr).imp id fun hlt => ?_
      exact stop_le_of_disjoint (fun x hx => h.free_live hl hc x hx.symm) (h.pos b hl) hlt
  refine ⟨h.linked.congr hfree, h.order, h.pos, h.rover, h.cover, h.once, fun b hb => ?_, h.bound,
    h.low_le, h.top_lt⟩
  show (m b.addr).size = b.size ∧ _
  rw [hlive b hb]
  exact h.headers b hb

/-- **Every step of a program leaves the heap in order.** -/
theorem inUse_step (hbase : 0 < base) (hlow : base < low) (h : Unused low s ∨ InUse base low s)
    {e : HeapEvent} (hstep : HeapStep base s e t) : InUse base low t := by
  cases hstep with
  | @malloc fuel nbytes ap answers t hbytes hmalloc =>
      exact inUse_malloc hbase hlow h (by omega) hmalloc
  | @free fuel b t hb hfree =>
      rcases h with hunused | ⟨⟨l, hinv⟩, hasked⟩
      · rw [hunused.live] at hb
        cases hb
      · obtain ⟨hsame, l', hinv', -⟩ := hinv.free hlow hb hfree
        refine ⟨⟨l', hinv'.linked, hinv'.order, hinv'.pos, hinv'.rover, hinv'.cover, hinv'.once,
          hinv'.headers, hinv'.bound, hinv'.low_le, hinv'.top_lt⟩, fun c hc => ?_⟩
        show t.asked c.addr + HEADER ≤ HEADER * c.size
        rw [hsame.asked]
        exact hasked c (List.mem_of_mem_erase hc)
  | write hlive hm =>
      rcases h with hunused | ⟨⟨l, hinv⟩, hasked⟩
      · exact absurd hunused.live hlive
      · exact ⟨⟨l, hinv.write hlow hm⟩, hasked⟩

end

/-- A run of a program, from its first call on. -/
abbrev HeapRun (base : Nat) (mem : Nat → Header) (top : Nat) (tr : List (HeapState × HeapEvent))
    (s : HeapState) : Prop :=
  Exec (HeapStep base) (HeapState.new mem top) tr s

theorem unused_new (mem : Nat → Header) {top : Nat} (hmax : top < 2 ^ 32) :
    Unused top (HeapState.new mem top) :=
  ⟨rfl, rfl, rfl, le_rfl, hmax⟩

variable {base top : Nat} {mem : Nat → Header} {tr : List (HeapState × HeapEvent)} {s : HeapState}

theorem inUse_of_run (hbase : 0 < base) (htop : base + HEADER ≤ top) (hmax : top < 2 ^ 32)
    (hrun : HeapRun base mem top tr s) :
    (tr = [] ∧ s = HeapState.new mem top) ∨ InUse base top s := by
  have hlow : base < top := by
    unfold HEADER at htop
    omega
  cases hrun with
  | nil => exact .inl ⟨rfl, rfl⟩
  | snoc head last =>
      refine .inr (inUse_step hbase hlow ?_ last)
      have hkept : ∀ t e u, Unused top t ∨ InUse base top t → HeapStep base t e u →
          Unused top u ∨ InUse base top u :=
        fun t e u ht hstep => .inr (inUse_step hbase hlow ht hstep)
      exact Exec.invariant hkept head (.inl (unused_new mem hmax))

/-- **A heap in order**: the free list is circular through `base` and the roving pointer, in the
order of addresses up to where it wraps, and no two free blocks touch; free blocks and blocks handed
out are disjoint and cover exactly the memory from `sbrk`; and each block handed out has room for
what was asked for. -/
structure InOrder (base : Nat) (s : HeapState) (l : List Chunk) : Prop where
  circular : Linked s.mem (baseBlock base :: l) base
  rover : ∃ b ∈ baseBlock base :: l, b.addr = s.freep
  order : (baseBlock base :: l).Pairwise (Before HEADER)
  disjoint : (l ++ s.live).Pairwise (Chunk.Disjoint HEADER)
  exact : ∀ x, (∃ b ∈ l ++ s.live, b.Has HEADER x) ↔ ∃ r ∈ s.regions, r.Has HEADER x
  large : ∀ b ∈ s.live, (s.mem b.addr).size = b.size ∧ s.asked b.addr + HEADER ≤ HEADER * b.size

theorem InUse.inOrder {base low : Nat} (h : InUse base low s) : ∃ l, InOrder base s l := by
  obtain ⟨⟨l, hinv⟩, hasked⟩ := h
  refine ⟨l, hinv.linked, hinv.rover, hinv.order, hinv.disjoint, fun x => ?_, fun b hb =>
    ⟨(hinv.headers b hb).1, hasked b hb⟩⟩
  rw [← cover_pos, ← cover_pos, cover_append, hinv.cover]

/-- **The heap is in order after every sequence of calls** of `malloc` and `free`; before the first
one there is no list yet. -/
theorem heap_inOrder {base top : Nat} {mem : Nat → Header} {tr : List (HeapState × HeapEvent)}
    {s : HeapState} (hbase : 0 < base) (htop : base + HEADER ≤ top) (hmax : top < 2 ^ 32)
    (hrun : HeapRun base mem top tr s) :
    (tr = [] ∧ s = HeapState.new mem top) ∨ ∃ l, InOrder base s l :=
  (inUse_of_run hbase htop hmax hrun).imp id InUse.inOrder

/-- A program that asks for 100 bytes. -/
theorem heap_inOrder_once :
    ∃ tr s, HeapRun 4096 (fun _ => ⟨0, 0⟩) 8192 tr s ∧ s.live = [⟨40848, 14⟩] ∧
      ∃ l, InOrder 4096 s l := by
  obtain ⟨⟨t, ap⟩, hmalloc⟩ : ∃ r, malloc 4096 9 (HeapState.new (fun _ => ⟨0, 0⟩) 8192) 100
      [some 8192] = some r := Option.isSome_iff_exists.mp (by decide +kernel)
  have hlive : (malloc 4096 9 (HeapState.new (fun _ => ⟨0, 0⟩) 8192) 100 [some 8192]).map
      (fun r => (r.1.handOut r.2 100).live) = some [⟨40848, 14⟩] := by decide +kernel
  rw [hmalloc] at hlive
  have hrun : HeapRun 4096 (fun _ => ⟨0, 0⟩) 8192 _ (t.handOut ap 100) :=
    Exec.snoc (Exec.nil _) (HeapStep.malloc (by decide) hmalloc)
  refine ⟨_, _, hrun, Option.some.inj hlive, ?_⟩
  rcases heap_inOrder (by decide) (by decide) (by decide) hrun with ⟨hnil, -⟩ | horder
  · cases hnil
  · exact horder

/-- The heap that a run has reached. -/
theorem usable_of_run (hbase : 0 < base) (htop : base + HEADER ≤ top) (hmax : top < 2 ^ 32)
    (hrun : HeapRun base mem top tr s) : Unused top s ∨ InUse base top s := by
  refine (inUse_of_run hbase htop hmax hrun).imp (fun h => ?_) id
  rw [h.2]
  exact unused_new mem hmax

/-- **`malloc` calls `sbrk` at most once**: it returns when `sbrk` answers once, whatever it
answers, and it returns 0 only if it has called `sbrk` and `sbrk` has failed. -/
theorem malloc_oneSbrk {base top nbytes : Nat} {mem : Nat → Header}
    {tr : List (HeapState × HeapEvent)} {s : HeapState} (hbase : 0 < base)
    (htop : base + HEADER ≤ top) (hmax : top < 2 ^ 32) (hrun : HeapRun base mem top tr s)
    (hbytes : nbytes < 2 ^ 28) {answer : Option Nat} (hanswer : Fresh s (nunits nbytes) answer) :
    ∃ fuel t ap, malloc base fuel s nbytes [answer] = some (t, ap) ∧
      (ap = 0 → answer = none ∧ malloc base fuel s nbytes [] = none) := by
  have hlow : base < top := by
    unfold HEADER at htop
    omega
  have hs := usable_of_run hbase htop hmax hrun
  obtain ⟨hpos, hunits, -⟩ := nunits_bounds (by omega : nbytes + 16 ≤ 2 ^ 31)
  obtain ⟨fuel, hsome⟩ := malloc_isSome hbase hlow hs hunits hanswer
  obtain ⟨⟨t, ap⟩, hmalloc⟩ := Option.isSome_iff_exists.mp hsome
  obtain ⟨l, hinv⟩ := heapInv_start hbase hs
  refine ⟨fuel, t, ap, hmalloc, ?_⟩
  rintro rfl
  refine ⟨?_, ?_⟩
  · exact (List.mem_singleton.mp
      (hinv.none_of_search_zero hbase hlow hpos hunits hinv.rover hmalloc)).symm
  · by_contra hnil
    obtain ⟨r, hr⟩ := Option.ne_none_iff_exists'.mp hnil
    obtain rfl : r = (t, 0) := Option.some.inj ((search_of_nil [answer] hr).symm.trans hmalloc)
    exact List.not_mem_nil (hinv.none_of_search_zero hbase hlow hpos hunits hinv.rover hr)

/-- The first request of a program, with `sbrk` failing. -/
theorem malloc_oneSbrk_fails :
    ∃ fuel t ap, malloc 4096 fuel (HeapState.new (fun _ => ⟨0, 0⟩) 8192) 100 [none] =
        some (t, ap) ∧
      (ap = 0 → (none : Option Nat) = none ∧
        malloc 4096 fuel (HeapState.new (fun _ => ⟨0, 0⟩) 8192) 100 [] = none) :=
  malloc_oneSbrk (by decide) (by decide) (by decide) (Exec.nil _) (by decide) fun _ ha => nomatch ha

end Xv6.Umalloc
