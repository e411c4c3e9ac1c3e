import Xv6.Vm.Argv
import Xv6.Vm.Inverse

/-! # The image that `exec` loads

What the program headers of an executable ask for, and what `exec` leaves in the new address space
when it returns 0. The segments are loaded one after the other over zeros, whatever their order, so
that the address space holds them if they do not overlap: `exec_loads_of_noWrap` says when. -/

namespace Xv6.Vm

open Lib Run

open Function (update update_apply update_of_ne update_self)

/-! ## What an executable asks for -/

/-- The header of an executable. -/
def elfOf (content : List UInt8) : Elfhdr := elfhdrOf (content.take ELFHDR)

/-- The program header at a file offset. -/
def headerAt (content : List UInt8) (off : Nat) : Proghdr :=
  proghdrOf ((content.drop off).take PROGHDR)

/-- The headers of segments among the `k` program headers from file offset `off` on. -/
def segmentsFrom (content : List UInt8) : (k off : Nat) → List Proghdr
  | 0, _ => []
  | k + 1, off =>
      if (headerAt content off).type = ELF_PROG_LOAD then
        headerAt content off :: segmentsFrom content k (off + PROGHDR)
      else segmentsFrom content k (off + PROGHDR)

/-- **The segments of an executable.** -/
def segments (content : List UInt8) : List Proghdr :=
  segmentsFrom content (elfOf content).phnum (elfOf content).phoff

/-- The address belongs to the segment. -/
def Spans (ph : Proghdr) (a : Nat) : Prop := ph.va ≤ a ∧ a < ph.va + ph.memsz

/-- **The segments are pairwise disjoint.** -/
def DisjointSegments (segs : List Proghdr) : Prop :=
  segs.Pairwise fun ph ph' => ∀ a, Spans ph a → ¬ Spans ph' a

/-- The end of the segment behind which there is no other, from the end `sz` on. -/
def endAfter (segs : List Proghdr) (sz : Nat) : Nat :=
  segs.foldl (fun sz ph => max sz (ph.va + ph.memsz)) sz

/-- **The image is loaded**: every segment is mapped below the size of the process, with the bytes
of the file and zeros behind them, and the entry point and the size are those of the executable,
with a page for the stack. -/
structure Loads (content : List UInt8) (y : ExecState) : Prop where
  below : ∀ ph ∈ segments content, ∀ k < ph.memsz, ph.va + k < y.sz
  mapped : ∀ ph ∈ segments content, ∀ k < ph.memsz,
    (translate y.phys.mem (y.pgdir / 4096) (ph.va + k)).isSome
  file : ∀ ph ∈ segments content, ∀ k < ph.filesz,
    readByte y.phys.mem (y.pgdir / 4096) (ph.va + k) = content[ph.offset + k]?
  zero : ∀ ph ∈ segments content, ∀ k < ph.memsz, ph.filesz ≤ k →
    readByte y.phys.mem (y.pgdir / 4096) (ph.va + k) = some 0
  entry : y.spc = (elfOf content).entry
  size : y.sz = pagesOf (endAfter (segments content) 0) * 4096 + 4096

/-- **No segment wraps around** the end of the 32-bit addresses. -/
def NoWrap (segs : List Proghdr) : Prop := ∀ ph ∈ segs, ph.va + ph.memsz < 4294967296

/-! ## Segments over segments -/

/-- Bytes of the file from `offset` on, over the `n` addresses from `addr` on. -/
def overlay (content : List UInt8) (addr offset n : Nat) (f : Nat → UInt8) : Nat → UInt8 :=
  fun a => if addr ≤ a ∧ a < addr + n then content.getD (offset + (a - addr)) 0 else f a

/-- **The segments loaded over a memory**, one after the other. -/
def imageAfter (content : List UInt8) : List Proghdr → (Nat → UInt8) → Nat → UInt8
  | [], f => f
  | ph :: segs, f => imageAfter content segs (overlay content ph.va ph.offset ph.filesz f)

section Image

variable {content : List UInt8} {segs : List Proghdr} {f : Nat → UInt8} {a : Nat}

theorem overlay_of_notMem {addr offset n : Nat} (h : ¬ (addr ≤ a ∧ a < addr + n)) :
    overlay content addr offset n f a = f a :=
  if_neg h

/-- A segment whose file is not larger than its memory leaves the addresses outside alone. -/
theorem overlay_of_not_spans {ph : Proghdr} (hle : ph.filesz ≤ ph.memsz) (h : ¬ Spans ph a) :
    overlay content ph.va ph.offset ph.filesz f a = f a := by
  refine overlay_of_notMem fun hin => h ?_
  unfold Spans
  omega

/-- Addresses of no segment are left alone. -/
theorem imageAfter_of_not_spans (hle : ∀ ph ∈ segs, ph.filesz ≤ ph.memsz)
    (h : ∀ ph ∈ segs, ¬ Spans ph a) : imageAfter content segs f a = f a := by
  induction segs generalizing f with
  | nil => rfl
  | cons ph segs ih =>
      rw [imageAfter, ih (fun ph' hph' => hle ph' (.tail _ hph'))
        fun ph' hph' => h ph' (.tail _ hph')]
      exact overlay_of_not_spans (hle ph (.head _)) (h ph (.head _))

/-- **Disjoint segments over zeros** are all there, with zeros behind the bytes of the file. -/
theorem imageAfter_of_mem (hle : ∀ ph ∈ segs, ph.filesz ≤ ph.memsz) (hdisj : DisjointSegments segs)
    {ph : Proghdr} (hph : ph ∈ segs) {k : Nat} (hk : k < ph.memsz) (hf : f (ph.va + k) = 0) :
    imageAfter content segs f (ph.va + k) =
      if k < ph.filesz then content.getD (ph.offset + k) 0 else 0 := by
  have hspans : Spans ph (ph.va + k) := by
    unfold Spans
    omega
  induction segs generalizing f with
  | nil => exact nomatch hph
  | cons ph' segs ih =>
      have hle' := fun ph'' h'' => hle ph'' (List.mem_cons_of_mem ph' h'')
      obtain ⟨hhead, htail⟩ := List.pairwise_cons.mp hdisj
      rw [imageAfter]
      rcases List.mem_cons.mp hph with rfl | hmem
      · rw [imageAfter_of_not_spans hle' fun ph'' h'' => hhead ph'' h'' _ hspans, overlay]
        by_cases hlt : k < ph.filesz
        · rw [if_pos (by omega), if_pos hlt, Nat.add_sub_cancel_left]
        · rw [if_neg (by omega), if_neg hlt, hf]
      · refine ih hle' htail hmem ?_
        rw [overlay_of_not_spans (hle ph' (.head _))
          fun hspans' => hhead ph hmem _ hspans' hspans]
        exact hf

end Image

/-! ## Loading a segment -/

/-- **The pages of an address space hold** the bytes that `f` says. -/
def Holds (own : Nat → Owner) (m : Nat → UInt8) (d : Nat) (f : Nat → UInt8) : Prop :=
  ∀ q v, own q = .page d v → ∀ k < 4096, m (q * 4096 + k) = f (v * 4096 + k)

/-- A read that delivers what was asked for. -/
theorem readAt_of_full {content : List UInt8} {off n : Nat} (hn : n < 4294967295) (hpos : 0 < n)
    (h : toUint (readAt content off n).1 = n) :
    (readAt content off n).2 = (content.drop off).take n ∧ off + n ≤ content.length := by
  unfold readAt at h ⊢
  split at h
  · -- the value -1 is the largest `uint`
    exact absurd h (by unfold toUint; omega)
  · rename_i hok
    rw [if_neg hok]
    have hlen : ((content.drop off).take n).length = min n (content.length - off) := by
      rw [List.length_take, List.length_drop]
    refine ⟨rfl, ?_⟩
    dsimp only at h
    rw [hlen] at h
    unfold toUint at h
    omega

section Load

variable {s : Phys} {own own₀ : Nat → Owner} {fl fl₀ : List Nat} {E : Stop → Prop} {d : Nat}
  {x : ExecState} {content : List UInt8} {f : Nat → UInt8} {fuel : Nat}

/-- The bytes of one page of a segment are stored. -/
theorem Holds.store (h : Owned s own fl) {addr offset i len q v : Nat}
    (hq : own q = .page d v) (hv : v * 4096 = addr + i) (hlen : len ≤ 4096)
    (hfile : offset + i + len ≤ content.length)
    (hh : Holds own s.mem d (overlay content addr offset i f)) :
    Holds own (put s.mem (q * 4096) ((content.drop (offset + i)).take len)) d
      (overlay content addr offset (i + len) f) := by
  have hbytes : ((content.drop (offset + i)).take len).length = len := by
    rw [List.length_take, List.length_drop]
    omega
  intro q' v' hq' k hk
  by_cases hqq : q' = q
  · subst hqq
    obtain ⟨-, rfl⟩ := Owner.page.inj (hq.symm.trans hq')
    by_cases hkl : k < len
    · rw [put_of_mem _ _ _ (by omega) 0, overlay, if_pos (by omega),
        show offset + (v * 4096 + k - addr) = offset + i + k by omega]
      rw [List.getD_eq_getElem?_getD, List.getD_eq_getElem?_getD, List.getElem?_take_of_lt hkl,
        List.getElem?_drop]
    · rw [put_of_ge _ _ _ (by omega), hh q' v hq' k hk, overlay_of_notMem (by omega),
        overlay_of_notMem (by omega)]
  · -- another page is not written to, and none of its addresses is among the new ones
    have hvv : v' ≠ v := by
      rintro rfl
      exact hqq (h.pageInj q' q d v' hq' hq)
    rw [put_of_notMem _ _ _ (by omega), hh q' v' hq' k hk]
    unfold overlay
    congr 1
    refine propext ⟨fun hin => ⟨hin.1, by omega⟩, fun hin => ⟨hin.1, ?_⟩⟩
    omega

/-- **The loop of `loaduvm`** on pages that are mapped puts the bytes of the file over what was
there. -/
theorem post_loaduvmLoop_holds {addr offset sz n m t i : Nat} (hcontent : content.length < 4294967296)
    (hshape : Shape own d m t) (haddr : addr % 4096 = 0) (hend : addr + sz ≤ m * 4096)
    (hm : m ≤ 524288) (hoff : offset < 4294967296) {Q : Bool → ExecState → Prop}
    (hfalse : ∀ y, Q false y)
    (hQ : ∀ u, Owned u own fl → Holds own u.mem d (overlay content addr offset sz f) →
      sz = 0 ∨ offset + sz ≤ content.length → Q true { x with phys := u })
    (h : Owned x.phys own fl) (hi : i % 4096 = 0) (hrounds : sz ≤ i + n * 4096)
    (hread : min i sz = 0 ∨ offset + min i sz ≤ content.length)
    (hh : Holds own x.phys.mem d (overlay content addr offset (min i sz) f)) :
    Post (loaduvmLoop (imageOps (some content) fuel) (d * 4096) addr () offset sz n i) E Q x := by
  induction n generalizing x i with
  | zero =>
      rw [min_eq_right (by omega)] at hread hh
      exact post_pure.mpr (hQ x.phys h hh hread)
  | succ n ih =>
      rw [loaduvmLoop]
      by_cases hlt : i < sz
      · rw [min_eq_left hlt.le] at hread hh
        obtain ⟨v, hv⟩ : ∃ v, v * 4096 = addr + i := ⟨(addr + i) / 4096, by omega⟩
        obtain ⟨q, hq⟩ := (hshape.pages v).mpr (by omega)
        obtain ⟨len, hlen⟩ : ∃ len, len = if sz - i < PGSIZE then sz - i else PGSIZE := ⟨_, rfl⟩
        have hlen' : len = min (sz - i) 4096 := by
          rw [hlen]
          unfold PGSIZE
          split <;> omega
        have hva : (addr + i) % 4294967296 = v * 4096 := by omega
        have hfoff : (offset + i) % 4294967296 = offset + i := by omega
        rw [if_pos hlt, post_bind, imageOps_pte, post_onPhys, hva, ← hlen]
        refine post_pteAt h hshape.dir (by omega) (fun q' hq' => ?_) (fun hno => absurd hq (hno q))
          fun hno => absurd (h.pageTab q d v hq) hno
        obtain rfl : q' = q := h.pageInj q' q d v hq' hq
        dsimp only
        rw [imageOps_readi, post_bind, post_pure, hfoff, Option.getD_some]
        by_cases hfull : toUint (readAt content (offset + i) len).1 = len
        · obtain ⟨hbytes, hfile⟩ := readAt_of_full (by omega) (by omega) hfull
          have hstored := h.store (p := q') (by rw [hq']; exact id) 0
            ((content.drop (offset + i)).take len) (by rw [List.length_take]; omega)
          rw [Nat.add_zero] at hstored
          generalize readAt content (offset + i) len = rd at hfull hbytes
          obtain ⟨r, bytes⟩ := rd
          dsimp only at hfull hbytes ⊢
          subst hbytes
          rw [post_bind, post_imageStore, pteAddr_pteOf, if_neg (by rw [hfull]; exact fun h => h rfl)]
          have hmin : min (i + PGSIZE) sz = i + len := by
            unfold PGSIZE
            omega
          refine ih (x := x.setMem _) hQ hstored (by unfold PGSIZE; omega)
            (by unfold PGSIZE; omega) ?_ ?_
          · rw [hmin]
            exact .inr (by omega)
          · rw [hmin]
            exact Holds.store h hq' hv (by omega) hfile hh
        · generalize readAt content (offset + i) len = rd at hfull
          obtain ⟨r, bytes⟩ := rd
          dsimp only at hfull ⊢
          rw [post_bind, post_imageStore, if_pos hfull, post_pure]
          exact hfalse _
      · rw [min_eq_right (by omega)] at hread hh
        rw [if_neg hlt, post_pure]
        exact hQ x.phys h hh hread

/-! ## The allocations -/

/-- The new pages are filled with zeros, and the old ones keep what they held. -/
theorem Grown.holds {u : Phys} {own' : Nat → Owner} {fl' : List Nat} {n m t : Nat}
    (h : Owned s own fl) (hd : own d = .dir) (hg : Grown s d n m u) (hu : Owned u own' fl')
    (hshape : Shape own' d (max n m) t) (hh : Holds own s.mem d f)
    (hf : ∀ a, n * 4096 ≤ a → f a = 0) : Holds own' u.mem d f := by
  intro q v hq k hk
  have hlt := hu.page_lt hq
  have hlook := (hu.lookup_eq_some_iff hshape.dir hlt).mpr hq
  by_cases hvn : v < n
  · rw [hg.old v hvn] at hlook
    rw [hg.contents v hvn q hlook k hk]
    exact hh q v ((h.lookup_eq_some_iff hd hlt).mp hlook) k hk
  · have hvm := (hshape.pages v).mp ⟨q, hq⟩
    rw [hg.zero v q (by omega) (by omega) hlook k hk, hf _ (by omega)]

/-- **`allocuvm`** to a size that is not zero, and what the pages hold if it succeeds without loss. -/
theorem post_allocuvm_holds {t oldsz newsz : Nat} (h : Owned s own fl)
    (hshape : Shape own d (pagesOf oldsz) t) (hold : oldsz ≤ USERTOP) (hnew : newsz ≤ USERTOP)
    (hpos : 0 < newsz) (hfuel : 1048576 < fuel) (hh : Holds own s.mem d f)
    (hf : ∀ a, pagesOf oldsz * 4096 ≤ a → f a = 0) {Q : Nat → Phys → Prop}
    (hQ : ∀ r u, Grow own fl d (pagesOf oldsz) t (pagesOf newsz) r u →
      (r = true → ∀ own' fl' t', Owned u own' fl' →
        Shape own' d (max (pagesOf oldsz) (pagesOf newsz)) t' → Holds own' u.mem d f) →
      Q (if r then max oldsz newsz else 0) u) :
    Post (allocuvm fuel (d * 4096) oldsz newsz) E Q s := by
  have hn := pagesOf_le hold
  have hm := pagesOf_le hnew
  have hgrow := post_allocuvm (E := E) h hshape hold hpos hfuel
    (Q := fun r u => ∃ ok, r = (if ok then max oldsz newsz else 0) ∧
      Grow own fl d (pagesOf oldsz) t (pagesOf newsz) ok u) (fun hbig => by omega)
    fun _ ok u hg => ⟨ok, by rw [Nat.max_def]; grind, hg⟩
  have hout := post_allocuvm_outcome (E := E) h hshape.dir hold hnew hpos hshape.pages hfuel
    (Q := fun r u => ∃ ok, r = (if ok then max oldsz newsz else 0) ∧
      Outcome s own fl d (pagesOf oldsz) (pagesOf newsz) ok u) fun ok u ho => ⟨ok, rfl, ho⟩
  have hmax : max oldsz newsz ≠ 0 := by omega
  refine Post.of_forall (fun r u hok => ?_) fun e he => hgrow.of_eq_error he
  obtain ⟨ok, rfl, hg⟩ := hgrow.of_eq_ok hok
  obtain ⟨ok', hr, ho⟩ := hout.of_eq_ok hok
  obtain rfl : ok = ok' := by grind
  refine hQ ok u hg fun htrue own' fl' t' hu hshape' => ?_
  subst htrue
  cases ho with
  | done hfilled =>
      exact (hfilled.grown h hshape.dir hshape.pages hn hm).holds h hshape.dir hu hshape' hh hf
  | starved _ hu' hd' _ _ hlast =>
      -- the last page is not mapped
      obtain ⟨hlt, hno⟩ := hlast rfl
      obtain ⟨q, hq⟩ := (hshape'.pages (pagesOf newsz - 1)).mpr (by omega)
      have hlook := (hu.lookup_eq_some_iff hshape'.dir (hu.page_lt hq)).mpr hq
      exact absurd ((hu'.lookup_eq_some_iff hd' (hu.page_lt hq)).mp hlook) (hno q)

/-! ## The loop over the program headers -/

/-- The bytes of the segment are in the file, and there are not more than it has memory for. -/
def Fits (content : List UInt8) (ph : Proghdr) : Prop :=
  ph.filesz ≤ ph.memsz ∧ (ph.filesz = 0 ∨ ph.offset + ph.filesz ≤ content.length)

theorem le_endAfter (segs : List Proghdr) (sz : Nat) :
    sz ≤ endAfter segs sz ∧ ∀ ph ∈ segs, ph.va + ph.memsz ≤ endAfter segs sz := by
  induction segs generalizing sz with
  | nil => exact ⟨le_rfl, nofun⟩
  | cons ph segs ih =>
      obtain ⟨hsz, hsegs⟩ := ih (max sz (ph.va + ph.memsz))
      have hcons : endAfter (ph :: segs) sz = endAfter segs (max sz (ph.va + ph.memsz)) := rfl
      rw [hcons]
      refine ⟨le_trans (le_max_left _ _) hsz, fun ph' hph' => ?_⟩
      rcases List.mem_cons.mp hph' with rfl | hmem
      · exact le_trans (le_max_right _ _) hsz
      · exact hsegs ph' hmem

theorem headerAt_lt (content : List UInt8) (off : Nat) : (headerAt content off).offset < 4294967296 :=
  le32_lt _ _

/-- **The loop over the program headers**: if it succeeds, memory has run out, or the segments are
loaded over what was there. -/
theorem post_execLoad_holds {s₀ : Phys} {g k off sz : Nat} (hcontent : content.length < 4294967296)
    (h₀ : Owned s₀ own₀ fl₀) (hfuel : 1048576 < fuel) {Q : Option Nat → ExecState → Prop}
    (hnone : ∀ y, Q none y)
    (hdry : ∀ own' u sz', Owned u own' [] → Building own₀ own' fl₀ d sz' →
      Q (some sz') { x with phys := u })
    (hwrap : NoWrap (segmentsFrom content k off))
    (hQ : ∀ own' fl' u, Owned u own' fl' →
      Clean own₀ own' fl₀ fl' d (endAfter (segmentsFrom content k off) sz) g →
      Holds own' u.mem d (imageAfter content (segmentsFrom content k off) f) →
      (∀ ph ∈ segmentsFrom content k off, Fits content ph) →
      Q (some (endAfter (segmentsFrom content k off) sz)) { x with phys := u })
    (h : Owned x.phys own fl) (hc : Clean own₀ own fl₀ fl d sz g) (hh : Holds own x.phys.mem d f)
    (hf : ∀ a, pagesOf sz * 4096 ≤ a → f a = 0) :
    Post (execLoad (imageOps (some content) fuel) (d * 4096) () k off sz) (fun _ => True) Q x := by
  induction k generalizing x own fl off sz f with
  | zero => exact post_pure.mpr (hQ own fl x.phys h hc hh nofun)
  | succ k ih =>
      rw [execLoad, imageOps_readi, post_bind, post_pure, Option.getD_some]
      by_cases hfull : toUint (readAt content off PROGHDR).1 = PROGHDR
      swap
      · generalize readAt content off PROGHDR = rd at hfull
        obtain ⟨r, bytes⟩ := rd
        dsimp only at hfull ⊢
        rw [if_pos hfull, post_pure]
        exact hnone x
      obtain ⟨hbytes, hfile⟩ := readAt_of_full (by decide) (by decide) hfull
      have hnext : (off + PROGHDR) % 4294967296 = off + PROGHDR := by omega
      have hph : headerAt content off = proghdrOf (readAt content off PROGHDR).2 := by
        rw [hbytes]
        rfl
      have hoffset := headerAt_lt content off
      generalize readAt content off PROGHDR = rd at hfull hph
      obtain ⟨r, bytes⟩ := rd
      dsimp only at hfull hph ⊢
      rw [if_neg (by rw [hfull]; exact fun hne => hne rfl), hnext, ← hph]
      rw [segmentsFrom] at hwrap hQ
      generalize headerAt content off = ph at hwrap hQ hoffset
      by_cases htype : ph.type = ELF_PROG_LOAD
      swap
      · rw [if_neg htype] at hwrap hQ
        rw [if_pos htype]
        exact ih hdry hwrap hQ h hc hh hf
      rw [if_pos htype] at hwrap hQ
      rw [if_neg (not_not_intro htype)]
      by_cases hmem : ph.memsz < ph.filesz
      · rw [if_pos hmem, post_pure]
        exact hnone x
      have hnowrap := hwrap ph (.head _)
      rw [if_neg hmem, Nat.mod_eq_of_lt hnowrap, imageOps_allocuvm, post_bind, post_onPhys]
      by_cases htop : ph.va + ph.memsz > USERTOP
      · rw [allocuvm, if_pos htop, post_pure, if_pos rfl]
        exact post_pure.mpr (hnone _)
      by_cases hzero : ph.va + ph.memsz = 0
      · rw [hzero]
        exact post_allocuvm_zero h hc.shape.dir (by omega) trivial trivial
      have htop' : ph.va + ph.memsz ≤ USERTOP := by omega
      refine post_allocuvm_holds h hc.shape hc.le htop' (by omega) hfuel hh hf
        fun ok u hgrow hholds => ?_
      have hpages := pagesOf_le htop'
      have hmaxpages : max (pagesOf sz) (pagesOf (ph.va + ph.memsz)) =
          pagesOf (max sz (ph.va + ph.memsz)) := by
        unfold pagesOf
        omega
      cases hgrow with
      | done hu hfl hlen huses hshape =>
          have hc' := hc.grow h₀ h hfl hlen huses htop' hshape
          have hh' := hholds rfl _ _ _ hu hshape
          have hle := pagesOf_le hc'.le
          rw [if_pos rfl, if_neg (by omega), post_bind, loaduvm]
          by_cases halign : ph.va % PGSIZE = 0
          swap
          · rw [if_pos halign]
            exact post_stop.mpr trivial
          rw [if_neg (not_not_intro halign)]
          have hend : ph.va + ph.filesz ≤ max (pagesOf sz) (pagesOf (ph.va + ph.memsz)) * 4096 := by
            unfold pagesOf
            omega
          refine post_loaduvmLoop_holds (f := f) hcontent hshape halign hend (by omega) hoffset
            (fun y => ?_) (fun w hw hhw hread => ?_) hu rfl (by unfold PGSIZE; omega)
            (.inl (Nat.zero_min _)) ?_
          · exact post_pure.mpr (hnone y)
          · rw [if_pos rfl]
            refine ih (fun own' u' sz' => hdry own' u' sz')
              (fun ph' hph' => hwrap ph' (.tail _ hph'))
              (fun own' fl' u' hu' hc'' hh'' hfits => hQ own' fl' u' hu' hc'' hh'' ?_)
              hw hc' hhw fun a ha => ?_
            · intro ph' hph'
              rcases List.mem_cons.mp hph' with rfl | hmem'
              · exact ⟨by omega, hread⟩
              · exact hfits ph' hmem'
            · rw [← hmaxpages] at ha
              rw [overlay_of_notMem fun hin => absurd (hend.trans ha) (Nat.not_le_of_lt hin.2)]
              exact hf a (le_trans (Nat.mul_le_mul_right _ (le_max_left _ _)) ha)
          · rw [Nat.zero_min]
            intro q v hq k' hk'
            rw [overlay_of_notMem (by omega)]
            exact hh' q v hq k' hk'
      | short hu hlen htab hoff hon hshape =>
          rw [if_neg Bool.false_ne_true, if_pos rfl, post_pure]
          exact hnone _
      | leak hu htab hoff hon hp hheld hshape hr =>
          cases ok with
          | false =>
              rw [if_neg Bool.false_ne_true, if_pos rfl, post_pure]
              exact hnone _
          | true =>
              obtain ⟨rfl, hn', -, -⟩ := hr
              have hb := (hc.building.of_leak h₀ h (max_le hc.le htop') hoff hon hshape
                (by omega) hp hheld).1
              rw [if_pos rfl, if_neg (by omega), post_bind, loaduvm]
              split
              · exact post_stop.mpr trivial
              · rename_i halign
                refine post_loaduvmLoop hu hb.dir (by unfold PGSIZE at halign; omega) rfl trivial
                  fun r w hw => ?_
                split
                · refine post_execLoad_doomed (by omega) hw hb fun r w' sz' hw' hb' hr => ?_
                  rcases hr with rfl | rfl
                  · exact hnone _
                  · exact hdry _ w' sz' hw' hb'
                · exact post_pure.mpr (hnone _)

/-! ## The stack page -/

/-- What the allocation of the page `n` of the address space `d` does, whether the page is mapped in
the end or lost. -/
structure Extended (own own' : Nat → Owner) (d n : Nat) (m m' : Nat → UInt8) : Prop where
  owner : ∀ p, own' p = own p ∨ own p = .free ∧
    (own' p = .held ∨ own' p = .page d n ∨ own' p = .tab d (n / 1024))
  keeps : KeepsRest own d m m'

section Extended

variable {own' : Nat → Owner} {n : Nat} {m m' : Nat → UInt8}

section

variable (h : Extended own own' d n m m')

include h

theorem Extended.touch : Touch own own' d := by
  intro p
  rcases h.owner p with he | ⟨hfree, hnew⟩
  · exact .inl he
  · refine .inr ⟨.inl hfree, .inr ?_⟩
    rcases hnew with hp | hp | hp
    · exact .inl hp
    · exact .inr (by rw [hp]; simp [Owner.ofSpace])
    · exact .inr (by rw [hp]; simp [Owner.ofSpace])

/-- The pages that were there stay. -/
theorem Extended.page {q v : Nat} (hq : own q = .page d v) : own' q = .page d v := by
  rcases h.owner q with he | ⟨hfree, -⟩
  · exact he.trans hq
  · cases hq.symm.trans hfree

theorem Extended.bounded (hb : Bounded own d n) : Bounded own' d (n + 1) := by
  intro q v hq
  rcases h.owner q with he | ⟨-, hp | hp | hp⟩
  · exact Nat.lt_succ_of_lt (hb q v (he ▸ hq))
  · cases hq.symm.trans hp
  · obtain ⟨-, rfl⟩ := Owner.page.inj (hq.symm.trans hp)
    exact Nat.lt_succ_self _
  · cases hq.symm.trans hp

/-- The pages that were there keep what they held. -/
theorem Extended.holds (hd : own d = .dir)
    (hh : Holds own m d f) {q v : Nat} (hq : own q = .page d v) {k : Nat} (hk : k < 4096) :
    m' (q * 4096 + k) = f (v * 4096 + k) := by
  rw [h.keeps, hh q v hq k hk]
  rw [show (q * 4096 + k) / 4096 = q by omega]
  rintro (rfl | ho | ⟨i, ho⟩)
  · cases hq.symm.trans hd
  · cases hq.symm.trans ho
  · cases hq.symm.trans ho

end

end Extended

/-- **The allocation of the page behind an address space** of `n` pages, if it succeeds. -/
theorem post_allocStack_extended {n : Nat} (h : Owned s own fl) (hd : own d = .dir)
    (hb : Bounded own d n) (hn : n ≤ 524288) (hfuel : 524288 < fuel) {Q : Nat → Phys → Prop}
    (hzero : ∀ u, Q 0 u)
    (hQ : ∀ own' fl' u, n < 524288 → Owned u own' fl' → Extended own own' d n s.mem u.mem →
      Q (n * 4096 + 4096) u) :
    Post (allocuvm fuel (d * 4096) (n * 4096) ((n * 4096 + PGSIZE) % 4294967296)) E Q s := by
  have hnew : (n * 4096 + PGSIZE) % 4294967296 = n * 4096 + 4096 := by
    unfold PGSIZE
    omega
  rw [hnew]
  rcases Nat.lt_or_eq_of_le hn with hn' | rfl
  swap
  · rw [allocuvm, if_pos (by decide), post_pure]
    exact hzero s
  refine post_allocOne h hd (fun p hp => absurd (hb p n hp) (lt_irrefl n)) hn' hfuel
    (fun u _ _ _ => hzero u) (fun q fl' u hfl _ hu hpage => ?_) (fun q t fl' u hfl _ hu hpage => ?_)
    fun q u hfl _ hu hmem => ?_
  · have hq := h.head_free hfl
    refine hQ _ fl' u hn' hu ⟨fun p => ?_, hpage.keeps⟩
    by_cases hp : p = q
    · rw [hp, update_self]
      exact .inr ⟨hq, .inr (.inl rfl)⟩
    · exact .inl (update_of_ne hp ..)
  · have hq := h.head_free hfl
    have ht := (h.free t).mp (by rw [hfl]; simp)
    refine hQ _ fl' u hn' hu ⟨fun p => ?_, hpage.keeps⟩
    by_cases hp : p = q
    · rw [hp, update_self]
      exact .inr ⟨hq, .inr (.inl rfl)⟩
    · rw [update_of_ne hp]
      by_cases hpt : p = t
      · rw [hpt, update_self]
        exact .inr ⟨ht, .inr (.inr rfl)⟩
      · exact .inl (update_of_ne hpt ..)
  · have hq := h.head_free hfl
    refine hQ _ [] u hn' hu ⟨fun p => ?_, .of_agreeOff hmem (.inr (.inl hq))⟩
    by_cases hp : p = q
    · rw [hp, update_self]
      exact .inr ⟨hq, .inl rfl⟩
    · exact .inl (update_of_ne hp ..)

/-- Stores inside one page leave the other pages alone. -/
theorem applyStores_of_inPage {ws : List (Nat × List UInt8)} {p a : Nat} {m : Nat → UInt8}
    (hws : ∀ w ∈ ws, InPage p w) (ha : a / 4096 ≠ p) : applyStores m ws a = m a := by
  induction ws generalizing m with
  | nil => rfl
  | cons w ws ih =>
      have hw := hws w (.head _)
      rw [applyStores_cons, ih fun w' hw' => hws w' (.tail _ hw')]
      refine put_of_notMem _ _ _ ?_
      unfold InPage at hw
      omega

/-- What holds of every state holds after a run that may stop for any reason. -/
theorem post_of_forall {α σ : Type} {m : Run Stop σ α} {Q : α → σ → Prop} {t : σ}
    (h : ∀ r u, Q r u) : Post m (fun _ => True) Q t :=
  Post.of_forall (fun r u _ => h r u) fun _ _ => trivial

variable {file : Option (List UInt8)} {path : List UInt8} {argv : List (List UInt8)}

/-- The end of `exec` from its label `bad` on returns -1, if it returns. -/
theorem post_execBad_of_forall {pgdir : Option Nat} {Q : Int → ExecState → Prop} (h : ∀ y, Q (-1) y)
    :
    Post (execBad (imageOps file fuel) pgdir ()) (fun _ => True) Q x := by
  unfold execBad
  rw [post_bind]
  refine post_of_forall fun _ u => ?_
  rw [post_bind]
  exact post_of_forall fun _ w => post_pure.mpr (h w)

/-- **The second half of `exec`** with arguments that fit leaves the pages of the segments alone. -/
theorem post_execStack_holds {s₀ : Phys} {sz entry d₀ n₀ : Nat} (h₀ : Owned s₀ own₀ fl₀)
    (hfuel : 524288 < fuel) (h : Owned x.phys own fl) (hb : Building own₀ own fl₀ d sz)
    (hh : Holds own x.phys.mem d f) (hargs : ArgsFit argv) (hpgdir : x.pgdir = d₀ * 4096)
    (hd₀ : own₀ d₀ = .dir) (hb₀ : Bounded own₀ d₀ n₀) (hn₀ : n₀ ≤ 524288)
    {Q : Int → ExecState → Prop} (hbad : ∀ y, Q (-1) y)
    (hQ : ∀ own' fl' u sgr, Owned u own' fl' → own' d = .dir →
      (∀ q v, own q = .page d v → own' q = .page d v ∧
        ∀ k < 4096, u.mem (q * 4096 + k) = f (v * 4096 + k)) →
      Q 0 ⟨u, x.ref, x.busy, d * 4096, pagesOf sz * 4096 + 4096, progName path, entry, sgr⟩) :
    Post (execStack (imageOps (some content) fuel) (d * 4096) () sz path argv entry)
      (fun _ => True) Q x := by
  rw [execStack, pgroundup_of_le hb.le]
  dsimp only
  rw [imageOps_allocuvm, post_bind, post_onPhys]
  refine post_allocStack_extended h hb.dir hb.bounded (pagesOf_le hb.le) hfuel (fun u => ?_)
    fun own' fl' u hn hu hext => ?_
  · rw [if_pos rfl]
    exact post_execBad_of_forall hbad
  rw [if_neg (Nat.succ_ne_zero _)]
  have hpages : pagesOf (pagesOf sz * 4096 + 4096) = pagesOf sz + 1 := by
    unfold pagesOf
    omega
  have hb' : Building own₀ own' fl₀ d (pagesOf sz * 4096 + 4096) := by
    refine ⟨hb.built.touch h₀ hext.touch, hext.touch.dir hb.dir, ?_, ?_⟩
    · rw [hpages]
      exact hext.bounded hb.bounded
    · unfold USERTOP
      omega
  refine post_execArgs (x := { x with phys := u }) h₀ hfuel hu hb' hargs hpgdir hd₀ hb₀ hn₀
    fun p w fl'' hw hself _ hkeep => hQ _ fl'' w _ hw (hb'.released_dir (hb'.ne h₀ hd₀))
      fun q v hq => ?_
  obtain ⟨hqd₀, hspace, hreleased⟩ := hb'.released_page h₀ hd₀ (hext.page hq)
  refine ⟨hreleased, fun k hk => ?_⟩
  have hqp : q ≠ p ∧ p < 1048576 := by
    have hvalid := h.valid q (by rw [hq]; rintro ⟨⟩)
    rcases hself with hp | rfl
    · have hvalid' := hu.valid p (by rw [hp]; rintro ⟨⟩)
      refine ⟨?_, by omega⟩
      rintro rfl
      obtain ⟨-, rfl⟩ := Owner.page.inj (hp.symm.trans (hext.page hq))
      exact absurd (hb.bounded q _ hq) (lt_irrefl _)
    · omega
  have hdiv : (q * 4096 + k) / 4096 = q := by omega
  rw [hkeep _ (by rw [hdiv]; exact hqd₀) (by rw [hdiv]; exact hspace),
    applyStores_of_inPage (fun w' hw' => hargs.inPage hqp.2 hb'.le w' hw') (by rw [hdiv]; exact hqp.1)]
  exact hext.holds hb.dir hh hq hk

/-! ## The whole call -/

/-- **The image is loaded** in an address space whose pages hold the segments. -/
theorem loads_of_holds {u : Phys} {ref sgr : Nat} {busy : Bool} {name : List UInt8}
    (hu : Owned u own fl) (hd : own d = .dir) (hdisj : DisjointSegments (segments content))
    (hfits : ∀ ph ∈ segments content, Fits content ph)
    (hpages : ∀ v < pagesOf (endAfter (segments content) 0), ∃ q, own q = .page d v ∧ ∀ k < 4096,
      u.mem (q * 4096 + k) = imageAfter content (segments content) (fun _ => 0) (v * 4096 + k)) :
    Loads content ⟨u, ref, busy, d * 4096, pagesOf (endAfter (segments content) 0) * 4096 + 4096,
      name, (elfOf content).entry, sgr⟩ := by
  have hle := (le_endAfter (segments content) 0).2
  have hbyte : ∀ ph ∈ segments content, ∀ k < ph.memsz, ∃ q,
      translate u.mem d (ph.va + k) = some q ∧
        u.mem q = if k < ph.filesz then content.getD (ph.offset + k) 0 else 0 := by
    intro ph hph k hk
    have hend := hle ph hph
    obtain ⟨q, hq, hmem⟩ := hpages ((ph.va + k) / 4096) (by unfold pagesOf; omega)
    have hlook := (hu.lookup_eq_some_iff hd (hu.page_lt hq)).mpr hq
    have hsplit : (ph.va + k) / 4096 * 4096 + (ph.va + k) % 4096 = ph.va + k := by omega
    have htrans := translate_page hlook (Nat.mod_lt (ph.va + k) (by decide))
    have hbytes := hmem _ (Nat.mod_lt (ph.va + k) (by decide))
    rw [hsplit] at htrans hbytes
    refine ⟨_, htrans, hbytes.trans ?_⟩
    exact imageAfter_of_mem (fun ph' hph' => (hfits ph' hph').1) hdisj hph hk rfl
  have hdir : d * 4096 / 4096 = d := Nat.mul_div_cancel _ (by decide)
  refine ⟨fun ph hph k hk => ?_, fun ph hph k hk => ?_, fun ph hph k hk => ?_,
    fun ph hph k hk hge => ?_, rfl, rfl⟩
  · have hend := hle ph hph
    show ph.va + k < pagesOf (endAfter (segments content) 0) * 4096 + 4096
    unfold pagesOf
    omega
  · obtain ⟨q, hq, -⟩ := hbyte ph hph k hk
    show (translate u.mem (d * 4096 / 4096) (ph.va + k)).isSome
    rw [hdir, hq]
    rfl
  · obtain ⟨hmem, hfile⟩ := hfits ph hph
    obtain ⟨q, hq, hval⟩ := hbyte ph hph k (by omega)
    show readByte u.mem (d * 4096 / 4096) (ph.va + k) = _
    rw [hdir, readByte, hq, Option.map_some, hval, if_pos hk,
      List.getElem?_eq_getElem (by omega), List.getD_eq_getElem _ _ (by omega)]
  · obtain ⟨q, hq, hval⟩ := hbyte ph hph k hk
    show readByte u.mem (d * 4096 / 4096) (ph.va + k) = _
    rw [hdir, readByte, hq, Option.map_some, hval, if_neg (by omega)]

/-- The header that `exec` reads. -/
theorem readAt_header (content : List UInt8) :
    elfhdrOf (readAt content 0 ELFHDR).2 = elfOf content := by
  rw [readAt, if_neg (by omega)]
  rfl

/-- **`exec`** with arguments that fit: whenever it returns 0, the image is loaded. -/
theorem post_execImage_loads {d₀ n₀ : Nat} (h : Owned x.phys own fl) (hfuel : 1048576 < fuel)
    (hcontent : content.length < 4294967296) (hdisj : DisjointSegments (segments content))
    (hwrap : NoWrap (segments content)) (hargs : ArgsFit argv) (hpgdir : x.pgdir = d₀ * 4096)
    (hd₀ : own d₀ = .dir) (hb₀ : Bounded own d₀ n₀) (hn₀ : n₀ ≤ 524288) :
    Post (execImage (some content) fuel path argv) (fun _ => True)
      (fun r y => r = 0 → Loads content y) x := by
  have hfuel' : 524288 < fuel := by omega
  obtain ⟨phys, ref, busy, pgdir, sz, name, spc, sgr⟩ := x
  dsimp only at h hpgdir
  have hbad : ∀ y : ExecState, (-1 : Int) = 0 → Loads content y := nofun
  have hlock : (imageOps (some content) fuel).ilock () = lockInode := rfl
  have hunlock : (imageOps (some content) fuel).iunlockput () = unlockputInode := rfl
  have hsetup : (imageOps (some content) fuel).setupkvm = onPhys setupkvm := rfl
  unfold execImage exec
  rw [post_bind]
  refine post_bind.mpr (post_modify.mpr (post_pure.mpr ?_))
  dsimp only
  rw [hlock, post_bind, lockInode, post_bind, post_get, if_neg (by simp)]
  split
  · exact post_stop.mpr trivial
  rw [post_modify, imageOps_readi, post_bind, post_pure, Option.getD_some]
  have hheader := readAt_header content
  generalize readAt content 0 ELFHDR = rd at hheader
  obtain ⟨r, bytes⟩ := rd
  dsimp only at hheader ⊢
  rw [hheader]
  split
  · exact post_execBad_of_forall hbad
  split
  · exact post_execBad_of_forall hbad
  rw [hsetup, post_bind, post_onPhys]
  refine post_setupkvm h (fun _ => post_execBad_of_forall hbad) fun d fl' u hfl hu hshape hbuilt _ => ?_
  dsimp only
  rw [post_bind]
  refine post_execLoad_holds hcontent h hfuel (f := fun _ => 0) (fun y => post_execBad_of_forall hbad)
    (fun own' w sz' hw hb => ?_) hwrap (fun own' fl'' w hw hc hh hfits => ?_) hu
    (Clean.empty h hfl hshape hbuilt) (fun q v hq => ?_) fun _ _ => rfl
  · -- memory has run out: there is no stack page
    dsimp only
    rw [hunlock, post_bind, unlockputInode, post_bind, post_get]
    split
    · exact post_stop.mpr trivial
    · exact post_modify.mpr (post_execStack_short hfuel' hw hb (.inr rfl) rfl trivial)
  · dsimp only
    rw [hunlock, post_bind, unlockputInode, post_bind, post_get]
    split
    · exact post_stop.mpr trivial
    rw [post_modify]
    refine post_execStack_holds (Q := fun r y => r = 0 → Loads content y) h hfuel' hw hc.building hh
      hargs hpgdir hd₀ hb₀ hn₀ hbad fun own'' fl₃ w' sgr hw' hd' hpages _ => ?_
    refine loads_of_holds hw' hd' hdisj hfits fun v hv => ?_
    obtain ⟨q, hq⟩ := (hc.shape.pages v).mpr hv
    exact ⟨q, hpages q v hq⟩
  · exact absurd ((hshape.pages v).mp ⟨q, hq⟩) (Nat.not_lt_zero v)

/-! ## Segments that wrap around -/

theorem post_allocuvm_le {pgdir oldsz newsz : Nat} :
    Post (allocuvm fuel pgdir oldsz newsz) (fun _ => True) (fun r _ => r ≤ max oldsz newsz) s := by
  rw [allocuvm]
  split
  · exact post_pure.mpr (Nat.zero_le _)
  · rw [post_bind]
    refine post_of_forall fun ok u => post_pure.mpr ?_
    split
    · split <;> omega
    · exact Nat.zero_le _

/-- The size of a process is a `uint`, whatever the arguments of `exec` have overwritten. -/
theorem post_execStack_sz {pgdir sz entry : Nat} :
    Post (execStack (imageOps file fuel) pgdir () sz path argv entry) (fun _ => True)
      (fun r y => r = 0 → y.sz < 4294967296) x := by
  rw [execStack]
  dsimp only
  have hround : pgroundup sz < 4294967296 := by
    unfold pgroundup PGSIZE
    omega
  have hnew := Nat.mod_lt (pgroundup sz + PGSIZE) (show 0 < 4294967296 by decide)
  rw [imageOps_allocuvm, post_bind, post_onPhys]
  refine post_allocuvm_le.mono (fun _ _ => trivial) fun r u hr => ?_
  have hr' : r < 4294967296 := lt_of_le_of_lt hr (max_lt hround hnew)
  split
  · exact post_execBad_of_forall fun _ => (by rintro ⟨⟩)
  rw [post_bind]
  refine post_of_forall fun pte y => ?_
  rw [post_bind]
  refine post_of_forall fun _ y => ?_
  rw [post_bind]
  refine post_of_forall fun _ y => ?_
  simp only [imageOps, post_bind, post_get, post_modify, post_pure, post_onPhys]
  exact post_of_forall fun _ _ => post_of_forall fun _ _ _ => hr'

theorem post_execImage_sz :
    Post (execImage file fuel path argv) (fun _ => True) (fun r y => r = 0 → y.sz < 4294967296)
      x := by
  have hbad : ∀ y : ExecState, (-1 : Int) = 0 → y.sz < 4294967296 := nofun
  unfold execImage exec
  rw [post_bind]
  refine post_of_forall fun ip y => ?_
  cases ip with
  | none => exact post_pure.mpr (hbad y)
  | some ip =>
      dsimp only
      rw [post_bind]
      refine post_of_forall fun _ y => ?_
      rw [post_bind]
      refine post_of_forall fun rd y => ?_
      split
      · exact post_execBad_of_forall hbad
      split
      · exact post_execBad_of_forall hbad
      rw [post_bind]
      refine post_of_forall fun pgdir y => ?_
      cases pgdir with
      | none => exact post_execBad_of_forall hbad
      | some pgdir =>
          dsimp only
          rw [post_bind]
          refine post_of_forall fun sz y => ?_
          cases sz with
          | none => exact post_execBad_of_forall hbad
          | some sz =>
              dsimp only
              rw [post_bind]
              exact post_of_forall fun _ y => post_execStack_sz

theorem segmentsFrom_va_lt {k off : Nat} {ph : Proghdr} (h : ph ∈ segmentsFrom content k off) :
    ph.va < 4294967296 := by
  induction k generalizing off with
  | zero => exact nomatch h
  | succ k ih =>
      rw [segmentsFrom] at h
      split at h
      · rcases List.mem_cons.mp h with rfl | hmem
        · exact le32_lt _ _
        · exact ih hmem
      · exact ih h

/-- **A segment that wraps around is not mapped.** -/
theorem Loads.noWrap {y : ExecState} (h : Loads content y) (hsz : y.sz < 4294967296) :
    NoWrap (segments content) := by
  intro ph hph
  by_cases hmem : ph.memsz = 0
  · rw [hmem]
    exact segmentsFrom_va_lt hph
  · have hlast := h.below ph hph (ph.memsz - 1) (by omega)
    omega

end Load

/-- **When `exec` loads the image it was given.** For an executable with pairwise disjoint segments
and a run of `exec` that returns 0: if the image is loaded, no segment wraps around the end of the
addresses; and if none does and the arguments fit on the stack page, the image is loaded. -/
theorem exec_loads_of_noWrap (x y : ExecState) (own : Nat → Owner) (fl : List Nat)
    (h : Owned x.phys own fl) (d₀ n₀ : Nat) (hpgdir : x.pgdir = d₀ * 4096) (hd₀ : own d₀ = .dir)
    (hb₀ : Bounded own d₀ n₀) (hn₀ : n₀ ≤ 524288) (content : List UInt8)
    (hcontent : content.length < 4294967296) (hdisj : DisjointSegments (segments content))
    (path : List UInt8) (argv : List (List UInt8)) (fuel : Nat)
    (hrun : execImage (some content) fuel path argv x = .ok (0, y)) :
    (Loads content y → NoWrap (segments content)) ∧
      (ArgsFit argv → NoWrap (segments content) → Loads content y) := by
  refine ⟨fun hloads => hloads.noWrap (post_execImage_sz.of_eq_ok hrun rfl), fun hfit hwrap => ?_⟩
  have hpost : Post (execImage (some content) (max fuel 1048577) path argv) (fun _ => True)
      (fun r y => r = 0 → Loads content y) x :=
    post_execImage_loads h (by omega) hcontent hdisj hwrap hfit hpgdir hd₀ hb₀ hn₀
  exact ((le_execImage (le_max_left fuel 1048577)).post trivial hpost).of_eq_ok hrun rfl

/-! ## Executables of one segment -/

/-- An executable with one segment, whose bytes follow the headers. -/
def segmentElf (va memsz : Nat) (data : List UInt8) : List UInt8 :=
  [0x7f, 0x45, 0x4c, 0x46] ++ List.replicate 20 0 ++ bytes32 va ++ bytes32 52 ++
    List.replicate 12 0 ++ bytes16 1 ++ List.replicate 6 0 ++ bytes32 ELF_PROG_LOAD ++ bytes32 84 ++
    bytes32 va ++ bytes32 va ++ bytes32 data.length ++ bytes32 memsz ++ List.replicate 8 0 ++ data

/-- The owners of a memory with an empty address space, whose directory is at page 256, and with the
free pages 258, 259, 257 and 260. -/
def loadOwner (p : Nat) : Owner :=
  if p = 256 then .dir else if 257 ≤ p ∧ p ≤ 260 then .free else .none

/-- A process in that memory that is about to call `exec`. -/
def loadState : ExecState where
  phys := ⟨put (put (put (fun _ => 0) (258 * 4096 + 4 * 0) (bytes32 (259 * 4096)))
    (259 * 4096 + 4 * 0) (bytes32 (257 * 4096))) (257 * 4096 + 4 * 0) (bytes32 (260 * 4096)),
    258 * 4096⟩
  ref := 1
  busy := false
  pgdir := 256 * 4096
  sz := 0
  name := []
  spc := 0
  sgr := 0

theorem entry_loadState (p i : Nat) (hi : i < 1024) :
    entry loadState.phys.mem p i =
      if i = 0 ∧ p = 257 then 260 * 4096 else if i = 0 ∧ p = 259 then 257 * 4096
      else if i = 0 ∧ p = 258 then 259 * 4096 else 0 := by
  have hzero : entry (fun _ => 0) p i = 0 := by simp [entry, le32, le16]
  simp only [loadState, entry_putWord _ _ _ _ _ _ (show 0 < 1024 by decide) hi
    (show 260 * 4096 < 4294967296 by decide), entry_putWord _ _ _ _ _ _ (show 0 < 1024 by decide) hi
    (show 257 * 4096 < 4294967296 by decide), entry_putWord _ _ _ _ _ _ (show 0 < 1024 by decide) hi
    (show 259 * 4096 < 4294967296 by decide), hzero]
  grind

theorem owned_loadState : Owned loadState.phys loadOwner [258, 259, 257, 260] := by
  have hchain : FreeChain loadState.phys.mem loadState.phys.freelist [258, 259, 257, 260] := by
    simp only [FreeChain, ← entry_zero, entry_loadState _ 0 (by decide)]
    decide
  have hentry := entry_loadState
  refine ⟨?_, hchain, ?_, by decide, ?_, ?_, ?_, ?_, ?_, ?_⟩ <;> unfold loadOwner <;> grind

theorem bounded_loadOwner : Bounded loadOwner 256 0 := by
  intro q v hq
  unfold loadOwner at hq
  grind

/-- `exec` without arguments of an executable for which there is memory returns 0. -/
theorem exec_loadState (file : List UInt8) {sz : Nat} (hplan : execPlan (some file) 4 = .loaded sz) :
    ∃ y, execImage (some file) 1048577 [] [] loadState = .ok (0, y) := by
  have hpost : Post (execImage (some file) 1048577 [] []) (fun _ => False) (fun r _ => r = 0)
      loadState := by
    refine post_execImage_plan owned_loadState (by decide) (fun _ _ => by unfold ArgsFit; decide) rfl
      rfl rfl bounded_loadOwner (Nat.zero_le _) (fun hd => ?_) (fun hd => ?_) (fun hf => ?_)
      fun _ _ _ _ _ _ _ _ _ _ _ _ _ _ _ => rfl
    · cases hd.symm.trans hplan
    · cases hd.symm.trans hplan
    · cases hf.symm.trans hplan
  obtain ⟨r, y, hok, rfl⟩ := hpost.exists_ok
  exact ⟨y, hok⟩

/-- Executables of one segment have nothing to be disjoint from. -/
theorem disjointSegments_of_length {segs : List Proghdr} (h : segs.length = 1) :
    DisjointSegments segs := by
  obtain ⟨ph, rfl⟩ := List.length_eq_one_iff.mp h
  exact List.pairwise_singleton _ _

/-- A segment of three bytes from the file and two zeros is loaded. -/
theorem exec_loads_hello :
    ∃ y, execImage (some (segmentElf 0 5 [104, 105, 33])) 1048577 [] [] loadState = .ok (0, y) ∧
      Loads (segmentElf 0 5 [104, 105, 33]) y := by
  have hplan : execPlan (some (segmentElf 0 5 [104, 105, 33])) 4 = .loaded 5 := by decide +kernel
  obtain ⟨y, hok⟩ := exec_loadState _ hplan
  refine ⟨y, hok, (exec_loads_of_noWrap loadState y loadOwner [258, 259, 257, 260] owned_loadState
    256 0 rfl rfl bounded_loadOwner (Nat.zero_le _) _ (by decide +kernel)
    (disjointSegments_of_length (by decide +kernel)) [] [] 1048577 hok).2 ?_ ?_⟩
  · unfold ArgsFit
    decide
  · unfold NoWrap
    decide +kernel

/-- The owners when the directory, the page of the segment and its table have been taken. -/
def segmentOwner : Nat → Owner :=
  update (update (update loadOwner 258 .dir) 257 (.tab 258 0)) 259
    (.page 258 0)

/-- The allocation of the page of the segment. -/
theorem post_segmentPage {s : Phys}
    (h : Owned s (update loadOwner 258 .dir) [259, 257, 260]) {fuel : Nat}
    (hfuel : 524288 < fuel) {E : Stop → Prop} {Q : Nat → Phys → Prop}
    (hQ : ∀ u, Owned u segmentOwner [260] → NewPage (update loadOwner 258 .dir) 258 259
      (fun _ => 0) s.mem u.mem → Q 4096 u) :
    Post (allocuvm fuel (258 * 4096) 0 4096) E Q s := by
  have hnotab : ¬ Tabbed (update loadOwner 258 .dir) 258 0 := by
    rintro ⟨t, ht⟩
    rw [update_apply] at ht
    unfold loadOwner at ht
    grind
  have hnopage : ∀ p, update loadOwner 258 .dir p ≠ .page 258 0 := by
    intro p hp
    obtain ⟨t, ht⟩ := h.pageTab p 258 0 hp
    exact hnotab ⟨t, ht⟩
  refine post_allocOne (n := 0) h rfl hnopage (by decide) hfuel (fun _ _ hfl => nomatch hfl)
    (fun _ _ _ _ htab => absurd htab hnotab) (fun q t fl' u hfl _ hu hpage => ?_)
    fun q u hfl => nomatch hfl
  simp only [List.cons.injEq] at hfl
  obtain ⟨rfl, rfl, rfl⟩ := hfl
  exact hQ u hu hpage

/-- The allocation of the stack page behind it. -/
theorem post_segmentStack {s : Phys} (h : Owned s segmentOwner [260]) {fuel : Nat}
    (hfuel : 524288 < fuel) {E : Stop → Prop} {Q : Nat → Phys → Prop}
    (hQ : ∀ u, Owned u (update segmentOwner 260 (.page 258 1)) [] → Q 8192 u) :
    Post (allocuvm fuel (258 * 4096) 4096 8192) E Q s := by
  have htab : Tabbed segmentOwner 258 1 := ⟨257, rfl⟩
  have hnopage : ∀ p, segmentOwner p ≠ .page 258 1 := by
    intro p hp
    unfold segmentOwner at hp
    simp only [update_apply] at hp
    unfold loadOwner at hp
    grind
  refine post_allocOne (n := 1) h rfl hnopage (by decide) hfuel (fun _ _ hfl => nomatch hfl)
    (fun q fl' u hfl _ hu _ => ?_) (fun q t fl' u _ hno => absurd htab hno)
    fun q u _ hno => absurd htab hno
  simp only [List.cons.injEq] at hfl
  obtain ⟨rfl, rfl⟩ := hfl
  exact hQ u hu

variable {a : List UInt8}

/-- The pointer to an argument that is as long as a page is stored on the page before the stack
page. -/
theorem applyStores_long (ha : a.length = 4096) (m : Nat → UInt8) :
    applyStores m (argStores (260 * 4096) 4096 8192 [a]) (259 * 4096 + 4084) = 255 := by
  rw [argStores_long ha 4096 (by decide), applyStores_cons, applyStores_cons, applyStores_cons]
  generalize put (put m _ _) _ _ = m'
  show put m' (260 * 4096 - 12) (bytes32 4095) (260 * 4096 - 12 + 0) = 255
  rw [put_of_mem _ _ _ (by decide) 0]
  decide

/-- The second half of `exec` with the long argument: the page before the stack page is that of the
segment. -/
theorem post_execStack_overwrites {x : ExecState} {file : Option (List UInt8)} {entry : Nat}
    (ha : a.length = 4096) (h : Owned x.phys segmentOwner [260])
    (hb : Building loadOwner segmentOwner [258, 259, 257, 260] 258 4096)
    (hpgdir : x.pgdir = 256 * 4096) :
    Post (execStack (imageOps file 1048577) (258 * 4096) () 4096 [] [a] entry) (fun _ => False)
      (fun r y => r = 0 ∧ readByte y.phys.mem (y.pgdir / 4096) 4084 = some 255) x := by
  rw [execStack]
  dsimp only
  rw [imageOps_allocuvm, post_bind, post_onPhys, show pgroundup 4096 = 4096 from rfl,
    show (4096 + PGSIZE) % 4294967296 = 8192 from rfl]
  refine post_segmentStack h (by decide) fun w hw => ?_
  have hbuilding : Building loadOwner (update segmentOwner 260 (.page 258 1))
      [258, 259, 257, 260] 258 8192 := by
    refine ⟨hb.built.update (by decide) (.inr rfl), rfl, fun q v hq => ?_, by decide⟩
    simp only [update_apply] at hq
    split at hq
    · obtain ⟨-, rfl⟩ := Owner.page.inj hq
      decide
    · exact lt_of_lt_of_le (hb.bounded q v hq) (by decide)
  have hharmless : ∀ v ∈ argStores (260 * 4096) 4096 8192 [a],
      Harmless (update segmentOwner 260 (.page 258 1)) v :=
    harmless_argStores_long ha (by decide) id id
  rw [if_neg (by decide), imageOps_pte, post_bind, post_onPhys,
    show pteAt (258 * 4096) 4096 = pteAt (258 * 4096) (1 * 4096) from rfl]
  refine post_pteAt hw rfl (by decide) (fun q hq => ?_) (fun hno _ => absurd rfl (hno 260))
    fun hno => absurd ⟨257, rfl⟩ hno
  obtain rfl : q = 260 := hw.pageInj q 260 258 1 hq rfl
  dsimp only [Option.map_some, Option.getD_some]
  rw [pteAddr_pteOf]
  refine post_execCommit (x := { x with phys := w }) file entry [] owned_loadState (by decide) hw
    hbuilding hpgdir rfl bounded_loadOwner (Nat.zero_le _) hharmless fun u fl' hu hkeep => ⟨rfl, ?_⟩
  have hlook : lookup u.mem 258 0 = some 259 := (hu.lookup_eq_some_iff rfl (by decide)).mpr rfl
  have htrans := translate_page hlook (show 4084 < 4096 by decide)
  rw [Nat.zero_mul, Nat.zero_add] at htrans
  show readByte u.mem (258 * 4096 / 4096) 4084 = some 255
  rw [readByte, Nat.mul_div_cancel _ (by decide), htrans, Option.map_some,
    hkeep _ (by decide) rfl, applyStores_long ha]

/-- `exec` of a segment of zeros with the long argument. -/
theorem post_execImage_overwrites (ha : a.length = 4096) :
    Post (execImage (some (segmentElf 0 4096 [])) 1048577 [] [a]) (fun _ => False)
      (fun r y => r = 0 ∧ readByte y.phys.mem (y.pgdir / 4096) 4084 = some 255) loadState := by
  obtain ⟨bytes, hread, hphnum, hphoff, hmagic⟩ : ∃ bytes,
      readAt (segmentElf 0 4096 []) 0 ELFHDR = (52, bytes) ∧ (elfhdrOf bytes).phnum = 1 ∧
      (elfhdrOf bytes).phoff = 52 ∧ (elfhdrOf bytes).magic = ELF_MAGIC :=
    ⟨_, rfl, by decide +kernel, by decide +kernel, by decide +kernel⟩
  obtain ⟨header, hheader, hph⟩ : ∃ header,
      readAt (segmentElf 0 4096 []) 52 PROGHDR = (32, header) ∧
      proghdrOf header = ⟨1, 84, 0, 0, 4096⟩ := ⟨_, rfl, rfl⟩
  generalize segmentElf 0 4096 [] = file at hread hheader
  unfold execImage exec
  rw [post_bind]
  refine post_bind.mpr (post_modify.mpr (post_pure.mpr ?_))
  dsimp only
  rw [show (imageOps (some file) 1048577).ilock () = lockInode from rfl, post_bind, lockInode,
    post_bind, post_get, if_neg (by decide), if_neg (by decide), post_modify, imageOps_readi,
    post_bind, post_pure, Option.getD_some, hread]
  dsimp only
  rw [if_neg (by decide), if_neg (not_not_intro hmagic), post_bind, hphnum, hphoff,
    show (imageOps (some file) 1048577).setupkvm = onPhys setupkvm from rfl, post_onPhys]
  refine post_setupkvm owned_loadState (fun hnil => by cases hnil)
    fun d fl' u hfl hu _ hbuilt _ => ?_
  simp only [List.cons.injEq] at hfl
  obtain ⟨rfl, rfl⟩ := hfl
  dsimp only
  -- the only program header, which asks for one page and no bytes of the file
  rw [post_bind, execLoad, imageOps_readi, post_bind, post_pure, Option.getD_some, hheader]
  dsimp only
  rw [hph, if_neg (by decide), if_neg (by decide), if_neg (by decide), imageOps_allocuvm, post_bind,
    post_onPhys]
  refine post_segmentPage hu (by decide) fun w hw _ => ?_
  rw [if_neg (by decide), post_bind, loaduvm, if_neg (by decide), loaduvmLoop, if_neg (by decide),
    post_pure, if_pos rfl, execLoad, post_pure]
  dsimp only
  rw [post_bind, show (imageOps (some file) 1048577).iunlockput () = unlockputInode from rfl,
    unlockputInode, post_bind, post_get, if_neg (by simp), post_modify]
  refine post_execStack_overwrites ha hw ⟨?_, rfl, fun q v hq => ?_, by decide⟩ rfl
  · exact (hbuilt.update (by decide) (.inr rfl)).update (by decide) (.inr rfl)
  · unfold segmentOwner at hq
    simp only [update_apply] at hq
    unfold loadOwner at hq
    have hv : v = 0 := by grind
    rw [hv]
    decide

/-- **Images that are not loaded**, although `exec` returns 0: a segment whose end wraps around to a
small address, and a segment of zeros on the page before the stack page, over which a long argument
is written. -/
theorem exec_not_loads :
    (∃ y, execImage (some (segmentElf 0xfffff000 0x1001 [])) 1048577 [] [] loadState = .ok (0, y) ∧
      DisjointSegments (segments (segmentElf 0xfffff000 0x1001 [])) ∧
      ¬ Loads (segmentElf 0xfffff000 0x1001 []) y) ∧
    ∃ y, execImage (some (segmentElf 0 4096 [])) 1048577 [] [List.replicate 4096 97] loadState =
        .ok (0, y) ∧
      DisjointSegments (segments (segmentElf 0 4096 [])) ∧
      NoWrap (segments (segmentElf 0 4096 [])) ∧ ¬ Loads (segmentElf 0 4096 []) y := by
  constructor
  · have hplan : execPlan (some (segmentElf 0xfffff000 0x1001 [])) 4 = .loaded 1 := by decide +kernel
    have hwraps : ¬ NoWrap (segments (segmentElf 0xfffff000 0x1001 [])) := by
      unfold NoWrap
      decide +kernel
    obtain ⟨y, hok⟩ := exec_loadState _ hplan
    refine ⟨y, hok, disjointSegments_of_length (by decide +kernel), fun hloads => ?_⟩
    exact hwraps (hloads.noWrap (post_execImage_sz.of_eq_ok hok rfl))
  · obtain ⟨r, y, hok, rfl, hbyte⟩ :=
      (post_execImage_overwrites (a := List.replicate 4096 97) List.length_replicate).exists_ok
    refine ⟨y, hok, disjointSegments_of_length (by decide +kernel), ?_, fun hloads => ?_⟩
    · unfold NoWrap
      decide +kernel
    · have hseg : segments (segmentElf 0 4096 []) = [⟨1, 84, 0, 0, 4096⟩] := by rfl
      have hzero := hloads.zero ⟨1, 84, 0, 0, 4096⟩ (by rw [hseg]; exact List.mem_cons_self ..) 4084
        (by decide) (by decide)
      rw [Nat.zero_add, hbyte] at hzero
      exact absurd hzero (by decide)

end Xv6.Vm
