import Xv6.User.Malloc

/-! # Freeing memory

The invariant of the heap: the free blocks are a circular list through `base` in the order of their
addresses, no two of them touch, and together with the blocks that are not free they cover the
memory obtained from `sbrk` exactly once. `free` finds the place of a block wherever the roving
pointer is, merges it with its neighbours, and returns. -/

namespace Xv6.Umalloc

open Lib Chunk

/-! ## Joining blocks -/

theorem add_eq_stop {b : Chunk} (h : b.stop HEADER < 2 ^ 32) : add b.addr b.size = b.stop HEADER :=
  Nat.mod_eq_of_lt h

theorem join_of_ne {m : Nat → Header} {a q x : Nat} (h : x ≠ a) : join m a q x = m x := by
  unfold join
  split <;> exact Function.update_of_ne h ..

variable {l : List Chunk}

/-- **A block joined to a list** is the list with the block merged. -/
theorem linked_join {m : Nat → Header} {b : Chunk} {z : Nat} (hl : Linked m l z)
    (hsize : (m b.addr).size = b.size) (hnew : ∀ c ∈ l, c.addr ≠ b.addr)
    (hz : l = [] → b.stop HEADER ≠ z) (hb : b.stop HEADER < 2 ^ 32)
    (hstop : ∀ c ∈ l, c.stop HEADER < 2 ^ 32) :
    Linked (join m b.addr (first l z)) (b.merge HEADER l) z := by
  have hothers : ∀ k : List Chunk, (∀ c ∈ k, c ∈ l) → ∀ c ∈ k,
      join m b.addr (first l z) c.addr = m c.addr :=
    fun k hk c hc => join_of_ne (hnew c (hk c hc))
  have hadd : add b.addr (m b.addr).size = b.stop HEADER := by
    rw [hsize]
    exact add_eq_stop hb
  cases l with
  | nil =>
      refine ⟨?_, trivial⟩
      show join m b.addr z b.addr = ⟨z, b.size⟩
      rw [join, if_neg (by rw [hadd]; exact hz rfl), Function.update_self, hsize]
  | cons c l =>
      rw [merge]
      split
      · rename_i htouch
        refine ⟨?_, hl.2.congr (hothers l fun d hd => .tail _ hd)⟩
        have hsum : b.size + c.size < 2 ^ 32 := by
          have := hstop c List.mem_cons_self
          unfold stop HEADER at this htouch
          omega
        show join m b.addr c.addr b.addr = ⟨first l z, b.size + c.size⟩
        rw [join, if_pos (by rw [hadd]; exact htouch), Function.update_self, hl.1, hsize,
          Nat.mod_eq_of_lt hsum]
      · rename_i happart
        refine ⟨?_, hl.congr (hothers (c :: l) fun d hd => hd)⟩
        show join m b.addr c.addr b.addr = ⟨c.addr, b.size⟩
        rw [join, if_neg (by rw [hadd]; exact happart), Function.update_self, hsize]

/-! ## The invariant -/

/-- The block `base`. -/
def baseBlock (base : Nat) : Chunk := ⟨base, 0⟩

/-- **The invariant of the heap**, with the blocks that are not free and the free blocks other than
`base`. -/
structure HeapInv (base low : Nat) (s : HeapState) (live l : List Chunk) : Prop where
  linked : Linked s.mem (baseBlock base :: l) base
  order : (baseBlock base :: l).Pairwise (Before HEADER)
  pos : ∀ b ∈ l, 0 < b.size
  rover : ∃ b ∈ baseBlock base :: l, b.addr = s.freep
  cover : ∀ x, cover HEADER l x + cover HEADER live x = cover HEADER s.regions x
  once : ∀ x, Chunk.cover HEADER s.regions x ≤ 1
  headers : ∀ b ∈ live, (s.mem b.addr).size = b.size ∧ 0 < b.size
  bound : ∀ r ∈ s.regions, low ≤ r.addr ∧ r.stop HEADER ≤ s.top
  low_le : low ≤ s.top
  top_lt : s.top < 2 ^ 32

section

variable {base low : Nat} {s : HeapState} {live l : List Chunk}

section

variable (h : HeapInv base low s live l)

include h

theorem HeapInv.has_region {b : Chunk} {x : Nat} (hb : b ∈ l ++ live)
    (hx : b.Has HEADER x) : low ≤ x ∧ x < s.top := by
  have hpos : 0 < Chunk.cover HEADER s.regions x := by
    rw [← h.cover, ← cover_append]
    exact cover_pos.mpr ⟨b, hb, hx⟩
  obtain ⟨r, hr, hrx⟩ := cover_pos.mp hpos
  have hbound := h.bound r hr
  exact ⟨le_trans hbound.1 hrx.1, lt_of_lt_of_le hrx.2 hbound.2⟩

theorem HeapInv.size_pos {b : Chunk} (hb : b ∈ l ++ live) : 0 < b.size := by
  rcases List.mem_append.mp hb with hfree | hlive
  · exact h.pos b hfree
  · exact (h.headers b hlive).2

/-- Every block lies in the memory from `sbrk`. -/
theorem HeapInv.range {b : Chunk} (hb : b ∈ l ++ live) : low ≤ b.addr ∧ b.stop HEADER ≤ s.top := by
  have hsize := h.size_pos hb
  refine ⟨(h.has_region hb (has_addr (by decide) hsize)).1, ?_⟩
  have hlast : b.Has HEADER (b.stop HEADER - 1) := by
    unfold Has stop HEADER
    omega
  have := (h.has_region hb hlast).2
  omega

theorem HeapInv.disjoint : (l ++ live).Pairwise (Chunk.Disjoint HEADER) :=
  pairwise_disjoint fun x => by
    rw [cover_append, h.cover]
    exact h.once x

end

variable {b c : Chunk}

/-- A free block and one that is not free have no address in common. -/
theorem HeapInv.free_live (h : HeapInv base low s live l) (hb : b ∈ l) (hc : c ∈ live) :
    Chunk.Disjoint HEADER b c :=
  (List.pairwise_append.mp h.disjoint).2.2 b hb c hc

/-- Two blocks that are not free have no address in common. -/
theorem HeapInv.live_live (h : HeapInv base low s live l) (hb : b ∈ live) (hc : c ∈ live.erase b) :
    Chunk.Disjoint HEADER b c := by
  intro x hx
  have hcover := cover_erase (u := HEADER) hb x
  have hpos : 0 < Chunk.cover HEADER (live.erase b) x := cover_pos.mpr ⟨c, hc, hx.2⟩
  have honce := h.once x
  rw [← h.cover, hcover, if_pos hx.1] at honce
  omega

theorem addr_ne_of_disjoint (h : Chunk.Disjoint HEADER b c) (hb : 0 < b.size) (hc : 0 < c.size) :
    b.addr ≠ c.addr := by
  intro heq
  refine h b.addr ⟨has_addr (by decide) hb, ?_⟩
  rw [heq]
  exact has_addr (by decide) hc

/-- Of two disjoint blocks the one with the lower address ends before the other. -/
theorem stop_le_of_disjoint (h : Chunk.Disjoint HEADER b c) (hc : 0 < c.size)
    (hlt : b.addr < c.addr) : b.stop HEADER ≤ c.addr := by
  by_contra hover
  exact h c.addr ⟨⟨hlt.le, not_le.mp hover⟩, has_addr (by decide) hc⟩

end

/-! ## The place in the list -/

section

variable {m : Nat → Header} {base bp : Nat} {L : List Chunk}

/-- The loop of `free` stays on the circle. -/
theorem place_mem (hL : Linked m L base) (hbase : ∃ b ∈ L, b.addr = base) {fuel p r : Nat}
    (hp : ∃ b ∈ L, b.addr = p) (h : place m bp fuel p = some r) :
    (∃ b ∈ L, b.addr = r) ∧ Stops m bp r := by
  induction fuel generalizing p with
  | zero => cases h
  | succ fuel ih =>
      rw [place] at h
      split at h
      · rename_i hstop
        cases h
        exact ⟨hp, hstop⟩
      · refine ih ?_ h
        obtain ⟨b, hb, rfl⟩ := hp
        obtain ⟨pre, post, rfl⟩ := List.append_of_mem hb
        rw [hL.header]
        cases post with
        | nil => exact hbase
        | cons c post => exact ⟨c, by simp, rfl⟩

/-- The loop of `free` ends if there is a place where it stops. -/
theorem place_isSome {b : Chunk} {k : List Chunk} {z fuel : Nat} (hk : Linked m (b :: k) z)
    (hstop : ∃ c ∈ b :: k, Stops m bp c.addr) (hfuel : k.length < fuel) :
    (place m bp fuel b.addr).isSome := by
  induction k generalizing b fuel with
  | nil =>
      obtain ⟨c, hc, hstop⟩ := hstop
      obtain rfl := List.mem_singleton.mp hc
      obtain ⟨fuel, rfl⟩ := Nat.exists_eq_succ_of_ne_zero (Nat.ne_of_gt hfuel)
      rw [place, if_pos hstop]
      rfl
  | cons c k ih =>
      obtain ⟨fuel, rfl⟩ := Nat.exists_eq_succ_of_ne_zero (Nat.ne_of_gt (Nat.zero_lt_of_lt hfuel))
      rw [place]
      split
      · rfl
      · rename_i hgo
        obtain ⟨d, hd, hstop⟩ := hstop
        have hd' : d ∈ c :: k := by
          rcases List.mem_cons.mp hd with rfl | hd'
          · exact absurd hstop hgo
          · exact hd'
        rw [hk.1]
        exact ih hk.2 ⟨d, hd', hstop⟩ (Nat.lt_of_succ_lt_succ hfuel)

/-- **Where the loop stops** the block belongs: after `p` and before all that follow. -/
theorem split_of_stops {pre post : List Chunk} {p : Chunk}
    (hL : Linked m (pre ++ p :: post) base)
    (horder : (pre ++ p :: post).Pairwise (Before HEADER)) (hbase : base < bp)
    (h : Stops m bp p.addr) :
    p.addr < bp ∧ ∀ q ∈ post, bp < q.addr := by
  have hafter := List.pairwise_cons.mp (List.pairwise_append.mp horder).2.1
  unfold Stops at h
  rw [hL.header] at h
  cases post with
  | nil =>
      refine ⟨?_, fun q hq => (nomatch hq)⟩
      change (p.addr < bp ∧ bp < base) ∨ (base ≤ p.addr ∧ (p.addr < bp ∨ bp < base)) at h
      omega
  | cons c post =>
      have hpc := (hafter.1 c List.mem_cons_self).addr_lt
      change (p.addr < bp ∧ bp < c.addr) ∨ (c.addr ≤ p.addr ∧ (p.addr < bp ∨ bp < c.addr)) at h
      refine ⟨by omega, fun q hq => ?_⟩
      rcases List.mem_cons.mp hq with rfl | hq'
      · omega
      · have := ((List.pairwise_cons.mp hafter.2).1 q hq').addr_lt
        omega

/-- There is a place where the loop stops. -/
theorem exists_stops (hL : Linked m L base) (horder : L.Pairwise (Before HEADER))
    (hlow : ∀ b ∈ L, base ≤ b.addr) (hne : ∀ b ∈ L, b.addr ≠ bp) (hhead : ∃ b ∈ L, b.addr < bp) :
    ∃ b ∈ L, Stops m bp b.addr := by
  induction L with
  | nil =>
      obtain ⟨b, hb, -⟩ := hhead
      cases hb
  | cons b l ih =>
      by_cases hmore : ∃ c ∈ l, c.addr < bp
      · obtain ⟨c, hc, hstop⟩ := ih hL.2 (List.pairwise_cons.mp horder).2
          (fun c hc => hlow c (.tail _ hc))
          (fun c hc => hne c (.tail _ hc)) hmore
        exact ⟨c, .tail _ hc, hstop⟩
      · -- all that follow are above, so this is the place
        have hb : b.addr < bp := by
          obtain ⟨c, hc, hlt⟩ := hhead
          rcases List.mem_cons.mp hc with rfl | hc'
          · exact hlt
          · exact absurd ⟨c, hc', hlt⟩ hmore
        refine ⟨b, List.mem_cons_self, ?_⟩
        unfold Stops
        rw [hL.1]
        cases l with
        | nil => exact .inr ⟨hlow b List.mem_cons_self, .inl hb⟩
        | cons c l =>
            refine .inl ⟨hb, ?_⟩
            have hc : c ∈ b :: c :: l := by simp
            have hge : ¬ c.addr < bp := fun hlt => hmore ⟨c, List.mem_cons_self, hlt⟩
            have := hne c hc
            show bp < c.addr
            omega

end

/-! ## `free` -/

/-- The address of a block that `merge` leaves is below the bound that all have. -/
theorem stop_lt_of_mem_merge {b d : Chunk} {n : Nat} (h : d ∈ b.merge HEADER l)
    (hb : b.stop HEADER < n) (hl : ∀ c ∈ l, c.stop HEADER < n) : d.stop HEADER < n := by
  cases l with
  | nil =>
      obtain rfl := List.mem_singleton.mp h
      exact hb
  | cons c l =>
      rw [merge] at h
      split at h
      · rename_i htouch
        rcases List.mem_cons.mp h with rfl | hd
        · have hc := hl c List.mem_cons_self
          unfold stop HEADER at hc htouch ⊢
          simp only
          omega
        · exact hl d (.tail _ hd)
      · rcases List.mem_cons.mp h with rfl | hd
        · exact hb
        · exact hl d hd

/-- A merged list has a block as large as each one it was made of. -/
theorem exists_size_merge {b c : Chunk} (h : c = b ∨ c ∈ l) :
    ∃ d ∈ b.merge HEADER l, c.size ≤ d.size := by
  cases l with
  | nil =>
      rcases h with rfl | h
      · exact ⟨c, by simp [merge], le_rfl⟩
      · cases h
  | cons a l =>
      rw [merge]
      split
      · rcases h with rfl | h
        · exact ⟨_, List.mem_cons_self, Nat.le_add_right _ _⟩
        · rcases List.mem_cons.mp h with rfl | h
          · exact ⟨_, List.mem_cons_self, Nat.le_add_left _ _⟩
          · exact ⟨c, .tail _ h, le_rfl⟩
      · rcases h with rfl | h
        · exact ⟨c, List.mem_cons_self, le_rfl⟩
        · exact ⟨c, .tail _ h, le_rfl⟩

section

variable {base low : Nat} {s : HeapState} {live l : List Chunk}

/-- Everything in the list is at `base` or above. -/
theorem HeapInv.base_le (h : HeapInv base low s live l) {b : Chunk} (hb : b ∈ baseBlock base :: l) :
    base ≤ b.addr := by
  rcases List.mem_cons.mp hb with rfl | hl
  · exact le_rfl
  · exact ((List.pairwise_cons.mp h.order).1 b hl).addr_lt.le

theorem cover_baseBlock (base : Nat) (l : List Chunk) (x : Nat) :
    cover HEADER (baseBlock base :: l) x = cover HEADER l x := by
  rw [cover_cons, if_neg]
  · rfl
  · unfold Has stop baseBlock
    simp only
    omega

/-- The place of a block in the free list: it is not free, and lies between `p` and what follows. -/
structure Fits (base low : Nat) (s : HeapState) (live l : List Chunk) (b : Chunk) (pre : List Chunk)
    (p : Chunk) (post : List Chunk) : Prop where
  inv : HeapInv base low s live l
  above : base < low
  mem : b ∈ live
  split : baseBlock base :: l = pre ++ p :: post
  lt : p.addr < b.addr
  gt : ∀ q ∈ post, b.addr < q.addr

variable {b p : Chunk} {pre post : List Chunk}

section

variable (h : Fits base low s live l b pre p post)

include h

theorem Fits.mem_of_post {q : Chunk} (hq : q ∈ post) : q ∈ l := by
  have hsplit := h.split
  cases pre with
  | nil =>
      cases hsplit
      exact hq
  | cons c pre =>
      rw [List.cons_append] at hsplit
      obtain ⟨-, rfl⟩ := List.cons.inj hsplit
      simp [hq]

theorem Fits.range : low ≤ b.addr ∧ b.stop HEADER ≤ s.top :=
  h.inv.range (List.mem_append_right _ h.mem)

theorem Fits.stop_le {q : Chunk} (hq : q ∈ post) : b.stop HEADER ≤ q.addr := by
  have hql := h.mem_of_post hq
  refine stop_le_of_disjoint (fun x hx => ?_) (h.inv.pos q hql) (h.gt q hq)
  exact h.inv.free_live hql h.mem x hx.symm

theorem Fits.le_stop : p.stop HEADER ≤ b.addr := by
  have hp : p ∈ baseBlock base :: l := by
    rw [h.split]
    simp
  rcases List.mem_cons.mp hp with rfl | hl
  · exact h.lt.le
  · exact stop_le_of_disjoint (h.inv.free_live hl h.mem) (h.inv.headers b h.mem).2 h.lt

theorem Fits.stop_lt {c : Chunk} (hc : c ∈ baseBlock base :: l) : c.stop HEADER < 2 ^ 32 := by
  have htop := h.inv.top_lt
  rcases List.mem_cons.mp hc with rfl | hl
  · have := h.above
    have := h.inv.low_le
    show base + HEADER * 0 < 2 ^ 32
    omega
  · exact lt_of_le_of_lt (h.inv.range (List.mem_append_left _ hl)).2 htop

/-- The headers after both joins. -/
theorem Fits.linked :
    Linked (join (join s.mem b.addr (first post base)) p.addr b.addr)
      (pre ++ p.merge HEADER (b.merge HEADER post)) base := by
  have hlinked := h.inv.linked
  have horder := h.inv.order
  rw [h.split] at hlinked horder
  obtain ⟨hpre, hrest⟩ := linked_append.mp hlinked
  obtain ⟨-, hafter, hbefore⟩ := List.pairwise_append.mp horder
  have hbstop : b.stop HEADER < 2 ^ 32 := lt_of_le_of_lt h.range.2 h.inv.top_lt
  have hpost : ∀ c ∈ post, c.stop HEADER < 2 ^ 32 := fun c hc =>
    h.stop_lt (.tail _ (h.mem_of_post hc))
  have hpstop : p.stop HEADER < 2 ^ 32 := h.stop_lt (by rw [h.split]; simp)
  -- the block is joined to what follows
  have hone : Linked (join s.mem b.addr (first post base)) (b.merge HEADER post) base := by
    refine linked_join hrest.2 (h.inv.headers b h.mem).1 (fun c hc => (h.gt c hc).ne') ?_ hbstop
      hpost
    intro _ hstop
    have hlt : base < b.addr := lt_of_lt_of_le h.above h.range.1
    have : b.addr ≤ b.stop HEADER := b.addr_le_stop
    omega
  -- and the one before to the block
  obtain ⟨n, k, hmerge, hk, -⟩ := merge_eq_cons (u := HEADER) b post
  have hpsize : (join s.mem b.addr (first post base) p.addr).size = p.size := by
    rw [join_of_ne h.lt.ne, hrest.1]
  have hfirst : first (b.merge HEADER post) base = b.addr := by
    rw [hmerge]
    rfl
  have htwo := linked_join hone hpsize (fun c hc => ?_) (fun hnil => ?_) hpstop
    (fun c hc => stop_lt_of_mem_merge hc hbstop hpost)
  rw [hfirst] at htwo
  refine linked_append.mpr ⟨?_, htwo⟩
  · obtain ⟨n', k', hmerge', -⟩ := merge_eq_cons (u := HEADER) p (b.merge HEADER post)
    have hfirst' : first (p.merge HEADER (b.merge HEADER post)) base = p.addr := by
      rw [hmerge']
      rfl
    rw [hfirst']
    refine hpre.congr fun c hc => ?_
    have hcp := (hbefore c hc p List.mem_cons_self).addr_lt
    rw [join_of_ne hcp.ne, join_of_ne (lt_trans hcp h.lt).ne]
  · rcases addr_of_mem_merge hc with haddr | hpost'
    · rw [haddr]
      exact h.lt.ne'
    · exact (lt_trans h.lt (h.gt c hpost')).ne'
  · rw [hmerge] at hnil
    cases hnil

theorem Fits.order : (pre ++ p.merge HEADER (b.merge HEADER post)).Pairwise (Before HEADER) := by
  have horder := h.inv.order
  rw [h.split] at horder
  obtain ⟨hpre, hrest, hbefore⟩ := List.pairwise_append.mp horder
  have hmerge : (b.merge HEADER post).Pairwise (Before HEADER) :=
    pairwise_merge (fun c hc => h.stop_le hc) (List.pairwise_cons.mp hrest).2
  -- the addresses of what is merged into `p`
  have haddr : ∀ c ∈ b.merge HEADER post, b.addr ≤ c.addr := by
    intro c hc
    rcases addr_of_mem_merge hc with heq | hpost
    · exact heq.ge
    · exact (h.gt c hpost).le
  refine List.pairwise_append.mpr
    ⟨hpre, pairwise_merge (fun c hc => le_trans h.le_stop (haddr c hc)) hmerge, fun c hc d hd => ?_⟩
  have hcp : c.stop HEADER < p.addr := hbefore c hc p List.mem_cons_self
  show c.stop HEADER < d.addr
  rcases addr_of_mem_merge hd with heq | hd'
  · rw [heq]
    exact hcp
  · exact lt_of_lt_of_le (lt_trans hcp h.lt) (haddr d hd')

/-- The free list after the block has been merged has the block's addresses too. -/
theorem Fits.cover (x : Nat) :
    Chunk.cover HEADER (pre ++ p.merge HEADER (b.merge HEADER post)) x =
      Chunk.cover HEADER l x + if b.Has HEADER x then 1 else 0 := by
  have hl : Chunk.cover HEADER l x = Chunk.cover HEADER (pre ++ p :: post) x := by
    rw [← h.split, cover_baseBlock]
  rw [hl]
  simp only [cover_append, cover_merge, cover_cons]
  omega

/-- **The new free list.** -/
theorem Fits.exists_list :
    ∃ l', baseBlock base :: l' = pre ++ p.merge HEADER (b.merge HEADER post) ∧
      (∀ c ∈ l', 0 < c.size) ∧ l'.length ≤ l.length + 1 ∧ ∃ c ∈ l', b.size ≤ c.size := by
  have hbpos := (h.inv.headers b h.mem).2
  have hpostpos : ∀ c ∈ post, 0 < c.size := fun c hc => h.inv.pos c (h.mem_of_post hc)
  have hpos : ∀ c ∈ b.merge HEADER post, 0 < c.size := fun c hc =>
    size_pos_of_mem_merge hc hbpos hpostpos
  obtain ⟨big, hbig, hsize⟩ := exists_size_merge (b := b) (c := b) (l := post) (.inl rfl)
  have hsplit := h.split
  cases pre with
  | nil =>
      -- the block comes right after `base`, which is never joined to it
      obtain ⟨rfl, rfl⟩ := List.cons.inj hsplit
      obtain ⟨n, k, hmerge, -, -⟩ := merge_eq_cons (u := HEADER) b l
      refine ⟨b.merge HEADER l, ?_, hpos, length_merge_le b l, big, hbig, hsize⟩
      have hne : (baseBlock base).stop HEADER ≠ (⟨b.addr, n⟩ : Chunk).addr := h.lt.ne
      rw [hmerge, List.nil_append, merge_of_ne hne]
  | cons c pre =>
      rw [List.cons_append] at hsplit
      obtain ⟨rfl, rfl⟩ := List.cons.inj hsplit
      refine ⟨pre ++ p.merge HEADER (b.merge HEADER post), rfl, fun d hd => ?_, ?_, ?_⟩
      · rcases List.mem_append.mp hd with hpre | hmerged
        · exact h.inv.pos d (List.mem_append_left _ hpre)
        · exact size_pos_of_mem_merge hmerged (h.inv.pos p (by simp)) hpos
      · have hone := length_merge_le (u := HEADER) b post
        have htwo := length_merge_le (u := HEADER) p (b.merge HEADER post)
        simp only [List.length_append, List.length_cons]
        omega
      · obtain ⟨d, hd, hle⟩ := exists_size_merge (b := p) (l := b.merge HEADER post) (.inr hbig)
        exact ⟨d, List.mem_append_right _ hd, le_trans hsize hle⟩

/-- The headers of the other blocks that are not free. -/
theorem Fits.header_eq {c : Chunk}
    (hc : c ∈ live.erase b) :
    join (join s.mem b.addr (first post base)) p.addr b.addr c.addr = s.mem c.addr := by
  have hcl := List.mem_of_mem_erase hc
  have hpos := (h.inv.headers c hcl).2
  have hp : p ∈ baseBlock base :: l := by
    rw [h.split]
    simp
  rw [join_of_ne, join_of_ne]
  · exact (addr_ne_of_disjoint (h.inv.live_live h.mem hc) (h.inv.headers b h.mem).2 hpos).symm
  · rcases List.mem_cons.mp hp with rfl | hl
    · exact (lt_of_lt_of_le h.above (h.inv.range (List.mem_append_right _ hcl)).1).ne'
    · exact (addr_ne_of_disjoint (h.inv.free_live hl hcl) (h.inv.pos p hl) hpos).symm

/-- **Merging a block into the free list** keeps the invariant. -/
theorem Fits.heapInv :
    ∃ l', HeapInv base low
        { s with mem := join (join s.mem b.addr (first post base)) p.addr b.addr, freep := p.addr }
        (live.erase b) l' ∧ l'.length ≤ l.length + 1 ∧ ∃ c ∈ l', b.size ≤ c.size := by
  obtain ⟨l', hl', hpos, hlen, hbig⟩ := h.exists_list
  refine ⟨l', ⟨hl' ▸ h.linked, hl' ▸ h.order, hpos, ?_, fun x => ?_, h.inv.once, fun c hc => ?_,
    h.inv.bound, h.inv.low_le, h.inv.top_lt⟩, hlen, hbig⟩
  · obtain ⟨n, k, hmerge, -⟩ := merge_eq_cons (u := HEADER) p (b.merge HEADER post)
    rw [hl', hmerge]
    exact ⟨⟨p.addr, n⟩, by simp, rfl⟩
  · have hcover := h.cover x
    have hinv := h.inv.cover x
    rw [← hl', cover_baseBlock] at hcover
    rw [cover_erase h.mem x] at hinv
    show Chunk.cover HEADER l' x + _ = Chunk.cover HEADER s.regions x
    omega
  · have hheader := h.inv.headers c (List.mem_of_mem_erase hc)
    show (join (join s.mem b.addr (first post base)) p.addr b.addr c.addr).size = c.size ∧ _
    rw [h.header_eq hc]
    exact hheader

end

theorem pred_add {a : Nat} (h : a + HEADER < 2 ^ 32) : pred (add a 1) = a := by
  unfold pred add HEADER at *
  omega

/-- A block on the circle that the loop of `free` stops at gives the block its place. -/
theorem HeapInv.fits (hlow : base < low) (h : HeapInv base low s live l) (hb : b ∈ live) {q : Nat}
    (hq : ∃ c ∈ baseBlock base :: l, c.addr = q) (hstop : Stops s.mem b.addr q) :
    ∃ pre p post, p.addr = q ∧ (s.mem q).ptr = first post base ∧
      Fits base low s live l b pre p post := by
  obtain ⟨p, hp, rfl⟩ := hq
  obtain ⟨pre, post, hsplit⟩ := List.append_of_mem hp
  have hlinked := h.linked
  have horder := h.order
  rw [hsplit] at hlinked horder
  have hbase : base < b.addr := lt_of_lt_of_le hlow (h.range (List.mem_append_right _ hb)).1
  obtain ⟨hlt, hgt⟩ := split_of_stops hlinked horder hbase hstop
  exact ⟨pre, p, post, rfl, by rw [hlinked.header], h, hlow, hb, hsplit, hlt, hgt⟩

/-- **The circle from the roving pointer**: it goes through all free blocks. -/
theorem HeapInv.circle (h : HeapInv base low s live l) :
    ∃ f k, f.addr = s.freep ∧ Linked s.mem (f :: k) s.freep ∧
      (∀ c, c ∈ f :: k ↔ c ∈ baseBlock base :: l) ∧ k.length = l.length ∧
      ∀ c ∈ k, c.addr ≠ s.freep := by
  obtain ⟨f, hf, hfreep⟩ := h.rover
  obtain ⟨pre, post, hsplit⟩ := List.append_of_mem hf
  have hlinked := h.linked
  have hfirst : first (pre ++ f :: post) base = base := by
    rw [← hsplit]
    rfl
  rw [hsplit] at hlinked
  refine ⟨f, post ++ pre, hfreep, hfreep ▸ hlinked.rotate hfirst, fun c => ?_, ?_, fun c hc => ?_⟩
  · rw [hsplit]
    simp only [List.mem_cons, List.mem_append]
    constructor
    · rintro (hc | hc | hc)
      · exact .inr (.inl hc)
      · exact .inr (.inr hc)
      · exact .inl hc
    · rintro (hc | hc | hc)
      · exact .inr (.inr hc)
      · exact .inl hc
      · exact .inr (.inl hc)
  · have := congrArg List.length hsplit
    simp only [List.length_cons, List.length_append] at this ⊢
    omega
  · have horder := h.order
    rw [hsplit] at horder
    obtain ⟨-, hafter, hbefore⟩ := List.pairwise_append.mp horder
    rw [← hfreep]
    rcases List.mem_append.mp hc with hpost | hpre
    · exact ((List.pairwise_cons.mp hafter).1 c hpost).addr_lt.ne'
    · exact (hbefore c hpre f List.mem_cons_self).addr_lt.ne

/-- What stays the same. -/
structure SameRecords (s t : HeapState) : Prop where
  live : t.live = s.live
  asked : t.asked = s.asked

/-- **`free` keeps the invariant**, and leaves a free block at least as large. -/
theorem HeapInv.free (hlow : base < low) (h : HeapInv base low s live l) (hb : b ∈ live) {fuel : Nat}
    {t : HeapState} (hfree : free fuel s (add b.addr 1) = some t) :
    SameRecords s t ∧ ∃ l', HeapInv base low t (live.erase b) l' ∧ l'.length ≤ l.length + 1 ∧
      ∃ c ∈ l', b.size ≤ c.size := by
  have hrange := h.range (List.mem_append_right _ hb)
  have hpred : pred (add b.addr 1) = b.addr := by
    refine pred_add (lt_of_le_of_lt (le_trans ?_ hrange.2) h.top_lt)
    have := (h.headers b hb).2
    unfold stop HEADER
    omega
  unfold Umalloc.free at hfree
  rw [hpred] at hfree
  obtain ⟨q, hplace, rfl⟩ := Option.map_eq_some_iff.mp hfree
  obtain ⟨hq, hstop⟩ := place_mem h.linked ⟨_, List.mem_cons_self, rfl⟩ h.rover hplace
  obtain ⟨pre, p, post, rfl, hptr, hfits⟩ := h.fits hlow hb hq hstop
  rw [hptr]
  exact ⟨⟨rfl, rfl⟩, hfits.heapInv⟩

/-- **`free` returns.** -/
theorem HeapInv.free_isSome (hlow : base < low) (h : HeapInv base low s live l) (hb : b ∈ live)
    {fuel : Nat} (hfuel : l.length < fuel) : (Umalloc.free fuel s (add b.addr 1)).isSome := by
  have hrange := h.range (List.mem_append_right _ hb)
  have hbpos := (h.headers b hb).2
  have hpred : pred (add b.addr 1) = b.addr := by
    refine pred_add (lt_of_le_of_lt (le_trans ?_ hrange.2) h.top_lt)
    unfold stop HEADER
    omega
  have hbase : base < b.addr := lt_of_lt_of_le hlow hrange.1
  have hstop : ∃ c ∈ baseBlock base :: l, Stops s.mem b.addr c.addr := by
    refine exists_stops h.linked h.order (fun c hc => h.base_le hc) (fun c hc => ?_)
      ⟨_, List.mem_cons_self, hbase⟩
    rcases List.mem_cons.mp hc with rfl | hl
    · exact hbase.ne
    · exact addr_ne_of_disjoint (h.free_live hl hb) (h.pos c hl) hbpos
  obtain ⟨f, k, hfreep, hwalk, hmem, hlen, -⟩ := h.circle
  have hplace : (place s.mem b.addr fuel s.freep).isSome := by
    rw [← hfreep]
    refine place_isSome hwalk ?_ (hlen ▸ hfuel)
    obtain ⟨c, hc, hstop⟩ := hstop
    exact ⟨c, (hmem c).mpr hc, hstop⟩
  obtain ⟨q, hq⟩ := Option.isSome_iff_exists.mp hplace
  unfold Umalloc.free
  simp only [hpred, hq, Option.map_some, Option.isSome_some]

end

end Xv6.Umalloc
