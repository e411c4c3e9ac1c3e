import Xv6.Icache.Cache
import Xv6.Lib.Count
import Xv6.Lib.Exec

/-! # The locks of the inode cache

How often an inode is locked is counted over all processes, and so are the references to it. The
count is one while `I_BUSY` is set and zero otherwise: `ilock` and the first section of `iput` find
the flag clear when they raise it, and only who has raised it lowers it. An entry of the cache is
used for another inode only when nobody has a reference to it, so nobody has it locked and nobody
sleeps on it then. -/

namespace Xv6.Icache

open Lib

open Function (update_eq_self update_idem update_of_ne update_self)

section

variable {n m : Nat}

/-! ## Counting -/

/-- How often a process has the inode locked. -/
def Proc.count (place : Fin m → Option Slot) (x : Proc m) (ip : Slot) : Nat :=
  x.owned.countP (fun h => place h = some ip) + x.pc.truncating ip

theorem owns_iff {s : Sys n m} {p : Fin n} {ip : Slot} :
    Owns s p ip ↔ 1 ≤ (s.proc p).count s.place ip := by
  have hloc : (∃ h ∈ (s.proc p).owned, s.place h = some ip)
      ↔ 0 < (s.proc p).owned.countP fun h => s.place h = some ip := by
    simp [List.countP_pos_iff]
  have htr : (s.proc p).pc = .truncate ip ↔ 0 < (s.proc p).pc.truncating ip := by
    cases (s.proc p).pc with
    | truncate ip' => by_cases h : ip' = ip <;> simp [Pc.truncating, h]
    | _ => simp [Pc.truncating]
  rw [Owns, hloc, htr, Proc.count]
  omega

theorem owned_subset_used (x : Proc m) : ∀ h ∈ x.owned, h ∈ x.used := by
  intro h hh
  rw [Proc.owned, List.mem_append] at hh
  rw [Proc.used, List.mem_append]
  refine hh.imp_left fun hpc => ?_
  cases hx : x.pc <;> simp_all [Pc.owned, Pc.used]

/-- A place that a process does not use does not count. -/
theorem count_update {place : Fin m → Option Slot} {x : Proc m} {h : Fin m} (hh : h ∉ x.used)
    (o : Option Slot) (ip : Slot) :
    x.count (Function.update place h o) ip = x.count place ip := by
  refine congrArg (· + x.pc.truncating ip) (List.countP_congr fun h' hh' => ?_)
  have hne : h' ≠ h := fun heq => hh (heq ▸ owned_subset_used x h' hh')
  rw [update_of_ne hne]

/-- How often the inode is locked by all processes together. -/
def owners (s : Sys n m) (ip : Slot) : Nat := ∑ p, (s.proc p).count s.place ip

/-- The references to the inode that processes hold in `iput`. -/
def truncs (s : Sys n m) (ip : Slot) : Nat := ∑ p, (s.proc p).pc.truncating ip

/-! ## The invariant -/

/-- **The invariant of the cache**: references are counted, what is used is there, an inode is busy
exactly while it is locked, and the flags that `ilock` is going to store have `I_BUSY` set. -/
structure Core (s : Sys n m) : Prop where
  refs : ∀ ip, (s.inode ip).ref = occ s.place ip + truncs s ip
  used : ∀ p, ∀ h ∈ (s.proc p).used, s.place h ≠ none
  busy : ∀ ip, owners s ip = (s.inode ip).busy.toNat
  copy : ∀ p h b v, (s.proc p).pc = .store h b v → b = true

/-- **No wakeup is lost**: whoever sleeps on an inode is in `ilock`, and the inode is busy. -/
def NoLost (s : Sys n m) : Prop :=
  ∀ p ip, SleepsOn s p ip →
    (s.inode ip).busy = true ∧ ∃ h, (s.proc p).pc = .ilock h ∧ s.place h = some ip

/-! ## Changes -/

/-- A sum over the processes after one of them has changed. -/
theorem sum_setProc (s : Sys n m) (p : Fin n) (x : Proc m) (f : Proc m → Nat) :
    ∑ q, f ((s.setProc p x).proc q) + f (s.proc p) = ∑ q, f (s.proc q) + f x := by
  have hsum := sum_add_of_eq_off (f := fun q => f (s.proc q))
    (g := fun q => f ((s.setProc p x).proc q)) p fun q hq => congrArg f (s.setProc_of_ne x hq)
  rwa [s.setProc_self p x] at hsum

/-- `wakeup` changes no more than states. -/
theorem wakeup_proc (s : Sys n m) (c : Chan) (q : Fin n) :
    ((s.wakeup c).proc q).pc = (s.proc q).pc ∧ ((s.wakeup c).proc q).locks = (s.proc q).locks := by
  rw [Sys.wakeup]
  dsimp only
  split <;> exact ⟨rfl, rfl⟩

namespace Core

variable {s : Sys n m} {p : Fin n} {x : Proc m} {ip : Slot} {v : Inode} {h : Fin m}

section

variable (hc : Core s)

include hc

/-- A place that is empty is not used. -/
theorem not_used (hplace : s.place h = none) (q : Fin n) : h ∉ (s.proc q).used :=
  fun hmem => hc.used q h hmem hplace

/-- A process and an inode change. -/
theorem update
    (hown : x.count s.place ip + (s.inode ip).busy.toNat
      = (s.proc p).count s.place ip + v.busy.toNat)
    (hother : ∀ j, j ≠ ip → x.count s.place j = (s.proc p).count s.place j)
    (href : v.ref + (s.proc p).pc.truncating ip = (s.inode ip).ref + x.pc.truncating ip)
    (htr : ∀ j, j ≠ ip → x.pc.truncating j = (s.proc p).pc.truncating j)
    (hused : ∀ h ∈ x.used, s.place h ≠ none)
    (hcopy : ∀ h b v, x.pc = .store h b v → b = true) :
    Core ((s.setInode ip v).setProc p x) := by
  have howners (j : Slot) := sum_setProc (s.setInode ip v) p x fun y => y.count s.place j
  have htruncs (j : Slot) := sum_setProc (s.setInode ip v) p x fun y => y.pc.truncating j
  have hproc (q : Fin n) (hq : q ≠ p) : ((s.setInode ip v).setProc p x).proc q = s.proc q :=
    (s.setInode ip v).setProc_of_ne x hq
  have hself : ((s.setInode ip v).setProc p x).proc p = x := (s.setInode ip v).setProc_self p x
  refine ⟨fun j => ?_, fun q h hh => ?_, fun j => ?_, fun q h b w hq => ?_⟩
  · have hsum : truncs ((s.setInode ip v).setProc p x) j + (s.proc p).pc.truncating j
        = truncs s j + x.pc.truncating j := htruncs j
    have hold := hc.refs j
    by_cases hj : j = ip
    · subst hj
      have hinode : ((s.setInode j v).setProc p x).inode j = v := s.setInode_self j v
      rw [hinode]
      show v.ref = occ s.place j + _
      omega
    · have hinode : ((s.setInode ip v).setProc p x).inode j = s.inode j := s.setInode_of_ne v hj
      have := htr j hj
      rw [hinode]
      show (s.inode j).ref = occ s.place j + _
      omega
  · by_cases hq : q = p
    · subst hq
      rw [hself] at hh
      exact hused h hh
    · rw [hproc q hq] at hh
      exact hc.used q h hh
  · have hsum : owners ((s.setInode ip v).setProc p x) j + (s.proc p).count s.place j
        = owners s j + x.count s.place j := howners j
    have hold := hc.busy j
    by_cases hj : j = ip
    · subst hj
      have hinode : ((s.setInode j v).setProc p x).inode j = v := s.setInode_self j v
      rw [hinode]
      omega
    · have hinode : ((s.setInode ip v).setProc p x).inode j = s.inode j := s.setInode_of_ne v hj
      have := hother j hj
      rw [hinode]
      omega
  · by_cases hqp : q = p
    · subst hqp
      rw [hself] at hq
      exact hcopy h b w hq
    · rw [hproc q hqp] at hq
      exact hc.copy q h b w hq

/-- Only a process changes, and it has locked what it had locked before. -/
theorem setProc (hperm : x.owned.Perm (s.proc p).owned)
    (htr : x.pc.truncating = (s.proc p).pc.truncating) (hused : ∀ h ∈ x.used, s.place h ≠ none)
    (hcopy : ∀ h b v, x.pc = .store h b v → b = true) : Core (s.setProc p x) := by
  have hcount (j : Slot) : x.count s.place j = (s.proc p).count s.place j := by
    rw [Proc.count, Proc.count, hperm.countP_eq, htr]
  let first : Slot := ⟨0, by decide⟩
  have hsame : s.setInode first (s.inode first) = s := by
    rw [Sys.setInode, update_eq_self]
  have hnext : Core ((s.setInode first (s.inode first)).setProc p x) :=
    hc.update (by rw [hcount]) (fun j _ => hcount j) (by rw [htr]) (fun j _ => by rw [htr]) hused
      hcopy
  rwa [hsame] at hnext

theorem wakeup (c : Chan) : Core (s.wakeup c) := by
  have hpc (q : Fin n) := (wakeup_proc s c q).1
  have hlocks (q : Fin n) := (wakeup_proc s c q).2
  have hcount (q : Fin n) (j : Slot) : ((s.wakeup c).proc q).count s.place j
      = (s.proc q).count s.place j := by
    simp only [Proc.count, Proc.owned, hpc, hlocks]
  refine ⟨fun j => ?_, fun q h hh => ?_, fun j => ?_, fun q h b w hq => ?_⟩
  · refine (hc.refs j).trans (congrArg _ (Finset.sum_congr rfl fun q _ => ?_))
    rw [hpc]
  · rw [Proc.used, hpc, hlocks] at hh
    exact hc.used q h hh
  · refine Eq.trans (Finset.sum_congr rfl fun q _ => ?_) (hc.busy j)
    exact hcount q j
  · rw [hpc] at hq
    exact hc.copy q h b w hq

/-- What a place holds changes, and the number of references with it. -/
theorem setPlace {o : Option Slot} (hunused : ∀ q, h ∉ (s.proc q).used)
    (hbusy : v.busy = (s.inode ip).busy)
    (href : ∀ j, (Function.update s.inode ip v j).ref + occ s.place j
      = (s.inode j).ref + occ (Function.update s.place h o) j) :
    Core ((s.setInode ip v).setPlace h o) := by
  refine ⟨fun j => ?_, fun q h' hh => ?_, fun j => ?_, hc.copy⟩
  · have hold := hc.refs j
    have hnew := href j
    show (Function.update s.inode ip v j).ref = occ (Function.update s.place h o) j + truncs s j
    omega
  · have hne : h' ≠ h := fun heq => hunused q (heq ▸ hh)
    show Function.update s.place h o h' ≠ none
    rw [update_of_ne hne]
    exact hc.used q h' hh
  · have hsum : owners ((s.setInode ip v).setPlace h o) j = owners s j :=
      Finset.sum_congr rfl fun q _ => count_update (hunused q) o j
    have hflag : (((s.setInode ip v).setPlace h o).inode j).busy = (s.inode j).busy := by
      show (Function.update s.inode ip v j).busy = _
      by_cases hj : j = ip
      · subst hj
        rw [update_self, hbusy]
      · rw [update_of_ne hj]
    rw [hsum, hflag]
    exact hc.busy j

/-- A reference is put at an empty place. -/
theorem addRef (hplace : s.place h = none) (href : v.ref = (s.inode ip).ref + 1)
    (hbusy : v.busy = (s.inode ip).busy) : Core ((s.setInode ip v).setPlace h (some ip)) := by
  refine hc.setPlace (hc.not_used hplace) hbusy fun j => ?_
  rw [occ_set hplace]
  by_cases hj : j = ip
  · subst hj
    rw [update_self, href, if_pos rfl]
    omega
  · rw [update_of_ne hj, if_neg (Ne.symm hj)]
    omega

/-- A reference is given up. -/
theorem dropRef (hplace : s.place h = some ip) (hunused : ∀ q, h ∉ (s.proc q).used)
    (href : v.ref = (s.inode ip).ref - 1) (hbusy : v.busy = (s.inode ip).busy) :
    Core ((s.setInode ip v).setPlace h none) := by
  have hpos : 1 ≤ (s.inode ip).ref := by
    have hocc := one_le_occ hplace
    have hold := hc.refs ip
    omega
  refine hc.setPlace hunused hbusy fun j => ?_
  have hocc := occ_clear hplace j
  by_cases hj : j = ip
  · subst hj
    rw [if_pos rfl] at hocc
    rw [update_self, href]
    omega
  · rw [if_neg (Ne.symm hj)] at hocc
    rw [update_of_ne hj]
    omega

/-- An inode without references is not busy. -/
theorem not_busy_of_ref (href : (s.inode ip).ref = 0) : (s.inode ip).busy = false := by
  have hrefs := hc.refs ip
  have hfree : owners s ip = 0 := by
    refine Finset.sum_eq_zero fun q _ => ?_
    have htr := le_sum (fun r => (s.proc r).pc.truncating ip) q
    have hcount : (s.proc q).owned.countP (fun h => s.place h = some ip) = 0 := by
      rw [List.countP_eq_zero]
      intro h hh hplace
      have hocc := one_le_occ (of_decide_eq_true hplace)
      omega
    rw [truncs] at hrefs
    rw [Proc.count, hcount]
    omega
  have hb := hc.busy ip
  rw [hfree] at hb
  cases hbusy : (s.inode ip).busy with
  | false => rfl
  | true => rw [hbusy] at hb; exact nomatch hb

/-- `iput` begins to truncate: it takes the reference from its place and locks the inode. -/
theorem truncate (hplace : s.place h = some ip)
    (hunused : ∀ q, h ∉ (s.proc q).used) (hfree : (s.inode ip).busy = false)
    (hpc : (s.proc p).pc = .idle) :
    Core (((s.setInode ip { s.inode ip with busy := true }).setPlace h none).setProc p
      { s.proc p with pc := .truncate ip }) := by
  -- first the place, with one reference less, then the flag, with the reference back
  have hdrop := hc.dropRef (v := { s.inode ip with ref := (s.inode ip).ref - 1 }) hplace hunused
    rfl rfl
  have hpos : 1 ≤ (s.inode ip).ref := by
    have hocc := one_le_occ hplace
    have hold := hc.refs ip
    omega
  generalize ht :
    (s.setInode ip { s.inode ip with ref := (s.inode ip).ref - 1 }).setPlace h none = t at hdrop
  have hproc : t.proc = s.proc := by rw [← ht]; rfl
  have hinode : t.inode ip = { s.inode ip with ref := (s.inode ip).ref - 1 } := by
    rw [← ht]; exact s.setInode_self ip _
  have heq : (s.setInode ip { s.inode ip with busy := true }).setPlace h none
      = t.setInode ip { s.inode ip with busy := true } := by
    rw [← ht]
    simp only [Sys.setInode, Sys.setPlace, update_idem]
  rw [heq]
  refine hdrop.update ?_ ?_ ?_ ?_ ?_ fun _ _ _ hstore => by cases hstore
  · rw [hproc, hinode]
    simp [Proc.count, Proc.owned, Pc.owned, Pc.truncating, hpc, hfree]
  · intro j hj
    rw [hproc]
    simp [Proc.count, Proc.owned, Pc.owned, Pc.truncating, hpc, Ne.symm hj]
  · rw [hproc, hinode]
    simp [Pc.truncating, hpc]
    omega
  · intro j hj
    rw [hproc]
    simp [Pc.truncating, hpc, Ne.symm hj]
  · intro h' hh
    refine hdrop.used p h' ?_
    rw [hproc, Proc.used, hpc]
    exact hh

end

end Core

/-! ## Sleepers -/

namespace NoLost

variable {s : Sys n m} {p : Fin n} {x : Proc m} {ip : Slot} {v : Inode} {h : Fin m}

/-- A process changes that does not go to sleep on an inode, or only on a busy one. -/
theorem setProc (hl : NoLost s)
    (hx : ∀ j, x.state = .SLEEPING → x.chan = some (.inode j) →
      (s.inode j).busy = true ∧ ∃ h, x.pc = .ilock h ∧ s.place h = some j) :
    NoLost (s.setProc p x) := by
  rintro q j ⟨hstate, hchan⟩
  by_cases hq : q = p
  · subst hq
    rw [s.setProc_self q x] at hstate hchan ⊢
    exact hx j hstate hchan
  · rw [s.setProc_of_ne x hq] at hstate hchan ⊢
    exact hl q j ⟨hstate, hchan⟩

/-- A process that is awake does not lose a wakeup. -/
theorem setProc_awake (hl : NoLost s) (hx : x.state = .RUNNABLE) : NoLost (s.setProc p x) :=
  hl.setProc fun _ hstate => nomatch hx.symm.trans hstate

/-- An inode changes that stays busy if it was. -/
theorem setInode (hl : NoLost s) (hv : (s.inode ip).busy = true → v.busy = true) :
    NoLost (s.setInode ip v) := by
  intro q j hq
  obtain ⟨hbusy, hrest⟩ := hl q j hq
  refine ⟨?_, hrest⟩
  by_cases hj : j = ip
  · subst hj
    rw [s.setInode_self j v]
    exact hv hbusy
  · rw [s.setInode_of_ne v hj]
    exact hbusy

/-- What a place holds changes that nobody uses. -/
theorem setPlace {o : Option Slot} (hl : NoLost s) (hunused : ∀ q, h ∉ (s.proc q).used) :
    NoLost (s.setPlace h o) := by
  intro q j hq
  obtain ⟨hbusy, h', hpc, hplace⟩ := hl q j hq
  have hne : h' ≠ h := fun heq => hunused q (by rw [Proc.used, hpc]; simp [Pc.used, heq])
  exact ⟨hbusy, h', hpc, (s.setPlace_of_ne o hne).trans hplace⟩

theorem sleepsOn_of_wakeup {c : Chan} {q : Fin n} {j : Slot} (hq : SleepsOn (s.wakeup c) q j) :
    SleepsOn s q j ∧ c ≠ .inode j := by
  obtain ⟨hstate, hchan⟩ := hq
  simp only [Sys.wakeup] at hstate hchan
  split at hstate
  · exact nomatch hstate
  · rename_i hnot
    rw [if_neg hnot] at hchan
    exact ⟨⟨hstate, hchan⟩, fun hc => hnot ⟨hstate, hc ▸ hchan⟩⟩

/-- An inode is unlocked by a process that is awake: nobody sleeps on it after the `wakeup`. -/
theorem unlock (hl : NoLost s) (hx : x.state = .RUNNABLE) :
    NoLost (((s.setInode ip v).setProc p x).wakeup (.inode ip)) := by
  intro q j hq
  obtain ⟨hsleep, hne⟩ := sleepsOn_of_wakeup hq
  have hj : j ≠ ip := fun heq => hne (heq ▸ rfl)
  have hqp : q ≠ p := by
    rintro rfl
    have hstate := hsleep.1
    rw [(s.setInode ip v).setProc_self q x, hx] at hstate
    exact nomatch hstate
  have hproc : ((s.setInode ip v).setProc p x).proc q = s.proc q :=
    (s.setInode ip v).setProc_of_ne x hqp
  rw [SleepsOn, hproc] at hsleep
  obtain ⟨hbusy, h, hpc, hplace⟩ := hl q j hsleep
  refine ⟨?_, h, ?_, hplace⟩
  · exact (congrArg Inode.busy (s.setInode_of_ne v hj)).trans hbusy
  · rw [(wakeup_proc _ _ q).1, hproc]
    exact hpc

end NoLost

/-! ## Steps keep the invariant -/

/-- The invariant. -/
structure Inv (s : Sys n m) : Prop where
  core : Core s
  noLost : NoLost s

theorem igetLoop_eq {inode : Slot → Inode} {dev inum : Nat} {ips : List Slot}
    {empty : Option Slot} {r : Slot × Bool} (h : igetLoop inode dev inum empty ips = some r)
    (hempty : ∀ ip, empty = some ip → (inode ip).ref = 0) :
    r.2 = false → (inode r.1).ref = 0 := by
  induction ips generalizing empty with
  | nil =>
      rw [igetLoop] at h
      obtain ⟨ip, hip, rfl⟩ := Option.map_eq_some_iff.mp h
      exact fun _ => hempty ip hip
  | cons ip ips ih =>
      rw [igetLoop] at h
      split at h
      · obtain rfl := Option.some.inj h
        exact nofun
      · refine ih h fun ip' hip' => ?_
        split at hip'
        · rename_i hfree
          obtain rfl := Option.some.inj hip'
          exact hfree.2
        · exact hempty ip' hip'

/-- `iget` counts the reference, and resets the flags only of an entry that is not used. -/
theorem iget_eq {inode : Slot → Inode} {dev inum : Nat} {ip : Slot} {v : Inode}
    (h : iget inode dev inum = some (ip, v)) :
    v.ref = (inode ip).ref + 1 ∧
      (v.busy = (inode ip).busy ∨ (inode ip).ref = 0 ∧ v.busy = false) := by
  obtain ⟨⟨j, found⟩, hloop, heq⟩ := Option.map_eq_some_iff.mp h
  cases found with
  | true =>
      obtain ⟨rfl, rfl⟩ := Prod.mk.inj heq
      exact ⟨rfl, .inl rfl⟩
  | false =>
      obtain ⟨rfl, rfl⟩ := Prod.mk.inj heq
      have hfree : (inode j).ref = 0 := igetLoop_eq hloop (fun _ h => nomatch h) rfl
      exact ⟨by rw [hfree], .inr ⟨hfree, rfl⟩⟩

namespace Inv

variable {s t : Sys n m} {p : Fin n} {ip : Slot} {h : Fin m}

/-- Only the place of a process changes. -/
theorem setPc (hi : Inv s) (hrun : (s.proc p).state = .RUNNABLE) {pc : Pc m}
    {locks : List (Fin m)} (hperm : (pc.owned ++ locks).Perm (s.proc p).owned)
    (htr : pc.truncating = (s.proc p).pc.truncating)
    (hused : ∀ h ∈ pc.used ++ locks, s.place h ≠ none)
    (hcopy : ∀ h b v, pc = .store h b v → b = true) :
    Inv (s.setProc p { s.proc p with pc := pc, locks := locks }) :=
  ⟨hi.core.setProc hperm htr hused hcopy, hi.noLost.setProc_awake hrun⟩

/-- A process that has an inode locked finds it busy. -/
theorem busy_of_owned (hi : Inv s) (hown : h ∈ (s.proc p).owned) (hplace : s.place h = some ip) :
    (s.inode ip).busy = true := by
  have hone : 1 ≤ (s.proc p).count s.place ip := owns_iff.mp (.inl ⟨h, hown, hplace⟩)
  have hle := le_sum (fun q => (s.proc q).count s.place ip) p
  have hbusy := hi.core.busy ip
  rw [owners] at hbusy
  cases hb : (s.inode ip).busy with
  | true => rfl
  | false =>
      rw [hb] at hbusy
      simp only [Bool.toNat_false] at hbusy
      omega

/-- A reference is put at an empty place. -/
theorem addRef (hi : Inv s) {v : Inode} (hplace : s.place h = none)
    (href : v.ref = (s.inode ip).ref + 1) (hbusy : v.busy = (s.inode ip).busy) :
    Inv ((s.setInode ip v).setPlace h (some ip)) :=
  ⟨hi.core.addRef hplace href hbusy,
    (hi.noLost.setInode fun hb => hbusy.trans hb).setPlace (hi.core.not_used hplace)⟩

/-- The loop of `ilock` ends: the process has locked the inode. -/
theorem take (hi : Inv s) (hrun : (s.proc p).state = .RUNNABLE) (hpc : (s.proc p).pc = .ilock h)
    (hplace : s.place h = some ip) (hfree : (s.inode ip).busy = false) :
    Inv ((s.setInode ip { s.inode ip with busy := true }).setProc p
      { (s.proc p).resume with pc := .test h }) := by
  refine ⟨hi.core.update ?_ ?_ ?_ ?_ ?_ ?_,
    (hi.noLost.setInode fun _ => rfl).setProc_awake hrun⟩
  · simp [Proc.count, Proc.owned, Proc.resume, Pc.owned, Pc.truncating, hpc, hplace, hfree]
  · intro j hj
    simp [Proc.count, Proc.owned, Proc.resume, Pc.owned, Pc.truncating, hpc, hplace, Ne.symm hj]
  · simp [Pc.truncating, hpc]
  · intro j _
    simp [Pc.truncating, hpc]
  · intro h' hh
    refine hi.core.used p h' ?_
    simpa [Proc.used, Proc.resume, Pc.used, hpc] using hh
  · exact nofun

/-- The section of `iunlock`. -/
theorem clear (hi : Inv s) (hrun : (s.proc p).state = .RUNNABLE)
    (hpc : (s.proc p).pc = .iunlock h) (hplace : s.place h = some ip) :
    Inv (((s.setInode ip { s.inode ip with busy := false }).setProc p
      { s.proc p with pc := .idle }).wakeup (.inode ip)) := by
  have hbusy := hi.busy_of_owned (p := p) (h := h) (by simp [Proc.owned, hpc, Pc.owned]) hplace
  refine ⟨(hi.core.update ?_ ?_ ?_ ?_ ?_ ?_).wakeup _, hi.noLost.unlock hrun⟩
  · simp [Proc.count, Proc.owned, Pc.owned, Pc.truncating, hpc, hplace, hbusy]
  · intro j hj
    simp [Proc.count, Proc.owned, Pc.owned, Pc.truncating, hpc, hplace, Ne.symm hj]
  · simp [Pc.truncating, hpc]
  · intro j _
    simp [Pc.truncating, hpc]
  · intro h' hh
    refine hi.core.used p h' ?_
    rw [Proc.used, List.mem_append] at hh ⊢
    exact hh.imp_left fun hmem => absurd hmem List.not_mem_nil
  · exact nofun

/-- The second section of `iput`. -/
theorem truncated (hi : Inv s) (hrun : (s.proc p).state = .RUNNABLE)
    (hpc : (s.proc p).pc = .truncate ip) :
    Inv (((s.setInode ip
      { s.inode ip with ref := (s.inode ip).ref - 1, busy := false, valid := false }).setProc p
        { s.proc p with pc := .idle }).wakeup (.inode ip)) := by
  have hone : 1 ≤ (s.proc p).count s.place ip := owns_iff.mp (.inr hpc)
  have hle := le_sum (fun q => (s.proc q).count s.place ip) p
  have hself : (s.proc p).pc.truncating ip = 1 := by simp [hpc, Pc.truncating]
  have htr : 1 ≤ truncs s ip := hself ▸ le_sum (fun q => (s.proc q).pc.truncating ip) p
  have hbusy := hi.core.busy ip
  have hrefs := hi.core.refs ip
  rw [owners] at hbusy
  have hbusy' : (s.inode ip).busy = true := by
    cases hb : (s.inode ip).busy with
    | true => rfl
    | false =>
        rw [hb] at hbusy
        simp only [Bool.toNat_false] at hbusy
        omega
  refine ⟨(hi.core.update ?_ ?_ ?_ ?_ ?_ ?_).wakeup _, hi.noLost.unlock hrun⟩
  · simp [Proc.count, Proc.owned, Pc.owned, Pc.truncating, hpc, hbusy']
  · intro j hj
    simp [Proc.count, Proc.owned, Pc.owned, Pc.truncating, hpc, Ne.symm hj]
  · rw [hself]
    show (s.inode ip).ref - 1 + 1 = (s.inode ip).ref + 0
    omega
  · intro j hj
    simp [Pc.truncating, hpc, Ne.symm hj]
  · intro h' hh
    refine hi.core.used p h' ?_
    rw [Proc.used, List.mem_append] at hh ⊢
    exact hh.imp_left fun hmem => absurd hmem List.not_mem_nil
  · exact nofun

/-- **Every step keeps the invariant.** -/
theorem step {e : Event n m} (hi : Inv s) (hstep : Step s e t) : Inv t := by
  have hpanic (msg : Option String) : Inv { s with panicked := msg } :=
    ⟨⟨hi.core.refs, hi.core.used, hi.core.busy, hi.core.copy⟩, hi.noLost⟩
  cases hstep with
  | @iget p h dev inum ip v hgo hrun hpc hplace hget =>
      obtain ⟨href, hbusy⟩ := iget_eq hget
      refine hi.addRef hplace href ?_
      rcases hbusy with hsame | ⟨hfree, hclear⟩
      · exact hsame
      · rw [hclear, hi.core.not_busy_of_ref hfree]
  | igetPanic => exact hpanic _
  | idup hgo hrun hpc hfrom hto => exact hi.addRef hto rfl rfl
  | @ilock p h ip hgo hrun hpc hplace =>
      split
      · exact hpanic _
      · refine hi.setPc hrun ?_ ?_ ?_ nofun
        · rw [Proc.owned, hpc]; rfl
        · rw [hpc]; rfl
        · intro h' hh
          rcases List.mem_append.mp hh with hnew | hold
          · obtain rfl := List.mem_singleton.mp hnew
            rw [hplace]; exact nofun
          · exact hi.core.used p h' (List.mem_append_right _ hold)
  | @take p h ip hgo hrun hpc hplace =>
      split
      · rename_i hbusy
        refine ⟨hi.core.setProc (.refl _) rfl (hi.core.used p) (hi.core.copy p), ?_⟩
        refine hi.noLost.setProc fun j _ hchan => ?_
        obtain rfl : ip = j := by simpa using hchan
        exact ⟨hbusy, h, hpc, hplace⟩
      · rename_i hbusy
        exact hi.take hrun hpc hplace (by simpa using hbusy)
  | @test p h ip hgo hrun hpc hplace =>
      split
      · refine hi.setPc hrun ?_ ?_ ?_ nofun
        · rw [Proc.owned, hpc]; exact .refl _
        · rw [hpc]; rfl
        · intro h' hh
          exact hi.core.used p h' (by rw [Proc.used, hpc]; exact hh)
      · refine hi.setPc hrun ?_ ?_ ?_ nofun
        · rw [Proc.owned, hpc]; exact .refl _
        · rw [hpc]; rfl
        · intro h' hh
          exact hi.core.used p h' (by rw [Proc.used, hpc]; exact hh)
  | @load p h ip hgo hrun hpc hplace =>
      have hbusy := hi.busy_of_owned (p := p) (h := h) (by simp [Proc.owned, hpc, Pc.owned]) hplace
      refine hi.setPc hrun ?_ ?_ ?_ fun h' b v heq => ?_
      · rw [Proc.owned, hpc]; exact .refl _
      · rw [hpc]; rfl
      · intro h' hh
        exact hi.core.used p h' (by rw [Proc.used, hpc]; exact hh)
      · obtain ⟨-, rfl, -⟩ := Pc.store.inj heq
        exact hbusy
  | @store p h ip busy valid ok hgo hrun hpc hplace =>
      obtain rfl := hi.core.copy p h busy valid hpc
      have hbusy := hi.busy_of_owned (p := p) (h := h) (by simp [Proc.owned, hpc, Pc.owned]) hplace
      have hcore : Core ((s.setInode ip { s.inode ip with busy := true, valid := true }).setProc p
          { s.proc p with pc := .idle, locks := h :: (s.proc p).locks }) := by
        refine hi.core.update ?_ ?_ ?_ ?_ ?_ nofun
        · simp [Proc.count, Proc.owned, Pc.owned, Pc.truncating, hpc, hbusy]
        · intro j _
          simp [Proc.count, Proc.owned, Pc.owned, Pc.truncating, hpc]
        · simp [Pc.truncating, hpc]
        · intro j _
          simp [Pc.truncating, hpc]
        · intro h' hh
          exact hi.core.used p h' (by rw [Proc.used, hpc]; exact hh)
      have hlost : NoLost ((s.setInode ip { s.inode ip with busy := true, valid := true }).setProc p
          { s.proc p with pc := .idle, locks := h :: (s.proc p).locks }) :=
        (hi.noLost.setInode fun _ => rfl).setProc_awake hrun
      exact ⟨⟨hcore.refs, hcore.used, hcore.busy, hcore.copy⟩, hlost⟩
  | @iunlock p h ip hgo hrun hpc hlock hplace =>
      split
      · exact hpanic _
      · refine hi.setPc hrun ?_ ?_ ?_ nofun
        · rw [Proc.owned, hpc]
          exact (List.perm_cons_erase hlock).symm
        · rw [hpc]; rfl
        · intro h' hh
          refine hi.core.used p h' (List.mem_append_right _ ?_)
          exact (List.perm_cons_erase hlock).mem_iff.mpr hh
  | clear hgo hrun hpc hplace => exact hi.clear hrun hpc hplace
  | @iput p h ip unlinked hgo hrun hpc hplace hunused =>
      split
      · split
        · exact hpanic _
        · rename_i hbusy
          refine ⟨hi.core.truncate hplace hunused (by simpa using hbusy) hpc, ?_⟩
          exact ((hi.noLost.setInode fun _ => rfl).setPlace hunused).setProc_awake hrun
      · refine ⟨hi.core.dropRef hplace hunused rfl rfl, ?_⟩
        exact (hi.noLost.setInode (v := { s.inode ip with ref := (s.inode ip).ref - 1 })
          fun hb => hb).setPlace hunused
  | truncated hgo hrun hpc => exact hi.truncated hrun hpc
  | @sleep p a hgo hrun =>
      refine ⟨hi.core.setProc (.refl _) rfl (hi.core.used p) (hi.core.copy p), ?_⟩
      exact hi.noLost.setProc fun j _ hchan => by simp at hchan
  | wakeup hgo =>
      refine ⟨hi.core.wakeup _, fun q j hq => ?_⟩
      obtain ⟨hbusy, h, hpc, hplace⟩ := hi.noLost q j (NoLost.sleepsOn_of_wakeup hq).1
      exact ⟨hbusy, h, (wakeup_proc _ _ q).1.trans hpc, hplace⟩
  | @kill p hgo =>
      refine ⟨hi.core.setProc (.refl _) rfl (hi.core.used p) (hi.core.copy p), ?_⟩
      refine hi.noLost.setProc fun j hstate _ => ?_
      dsimp only at hstate
      split at hstate
      · exact nomatch hstate
      · exact absurd hstate ‹_›

end Inv

theorem inv_boot : Inv (boot : Sys n m) := by
  refine ⟨⟨fun ip => ?_, fun p h hh => absurd hh List.not_mem_nil, fun ip => ?_, nofun⟩, ?_⟩
  · have htr : truncs (boot : Sys n m) ip = 0 := Finset.sum_eq_zero fun _ _ => rfl
    have hocc : occ (fun _ : Fin m => none) ip = 0 := occ_none ip
    rw [htr]
    exact hocc.symm
  · exact Finset.sum_eq_zero fun _ _ => rfl
  · rintro p ip ⟨hstate, -⟩
    exact nomatch hstate

/-! ## Every run -/

/-- **Inode locks are exclusive and lose no wakeup**: at most one process has an inode locked, the
flag `I_BUSY` is set exactly then, and whoever sleeps on an inode sleeps on a busy one. -/
structure Exclusive (s : Sys n m) : Prop where
  atMostOne : ∀ ip p q, Owns s p ip → Owns s q ip → p = q
  busy : ∀ ip, (s.inode ip).busy = true ↔ ∃ p, Owns s p ip
  wakeup : ∀ p ip, SleepsOn s p ip → (s.inode ip).busy = true

theorem Inv.exclusive {s : Sys n m} (hi : Inv s) : Exclusive s := by
  have hsum (ip : Slot) : ∑ p, (s.proc p).count s.place ip = (s.inode ip).busy.toNat :=
    hi.core.busy ip
  refine ⟨fun ip p q hp hq => ?_, fun ip => ⟨fun hb => ?_, ?_⟩,
    fun p ip hp => (hi.noLost p ip hp).1⟩
  · by_contra hne
    have htwo := add_le_sum (fun r => (s.proc r).count s.place ip) hne
    have hone := Bool.toNat_le (s.inode ip).busy
    rw [owns_iff] at hp hq
    rw [hsum] at htwo
    omega
  · by_contra hnone
    have hzero : ∑ p, (s.proc p).count s.place ip = 0 := by
      refine Finset.sum_eq_zero fun p _ => ?_
      have hp := mt owns_iff.mpr fun hown => hnone ⟨p, hown⟩
      omega
    rw [hsum, hb] at hzero
    exact nomatch hzero
  · rintro ⟨p, hp⟩
    have hle := le_sum (fun r => (s.proc r).count s.place ip) p
    rw [owns_iff] at hp
    rw [hsum] at hle
    cases hb : (s.inode ip).busy with
    | true => rfl
    | false =>
        rw [hb] at hle
        simp only [Bool.toNat_false] at hle
        omega

/-- **In every run** of any number of processes that follow the discipline, in every state. -/
theorem inodeLocks_exclusive {tr : List (Sys n m × Event n m)} {s : Sys n m}
    (hrun : Exec Step boot tr s) : Exclusive s :=
  (hrun.invariant (P := Inv) (fun _ _ _ hi hstep => hi.step hstep) inv_boot).exclusive

/-! ## What the entries cache -/

/-- The inode that an entry caches. -/
def Inode.key (x : Inode) : Nat × Nat := (x.dev, x.inum)

/-- No two entries in use cache the same inode. -/
def CachedOnce (f : Slot → Inode) : Prop :=
  ∀ ip jp, 0 < (f ip).ref → 0 < (f jp).ref → (f ip).key = (f jp).key → ip = jp

/-- An entry in use was in use for the same inode, or it is new and no other one caches its inode. -/
def Recache (f g : Slot → Inode) : Prop :=
  ∀ ip, 0 < (g ip).ref → 0 < (f ip).ref ∧ (g ip).key = (f ip).key ∨
    (f ip).ref = 0 ∧ ∀ jp, 0 < (g jp).ref → (g jp).key = (g ip).key → jp = ip

theorem CachedOnce.recache {f g : Slot → Inode} (h : CachedOnce f) (hg : Recache f g) :
    CachedOnce g := by
  intro ip jp hip hjp hkey
  rcases hg ip hip with ⟨hpos, hold⟩ | ⟨-, hnew⟩
  · rcases hg jp hjp with ⟨hpos', hold'⟩ | ⟨-, hnew'⟩
    · exact h ip jp hpos hpos' (hold.symm.trans (hkey.trans hold'))
    · exact hnew' ip hip hkey
  · exact (hnew jp hjp hkey.symm).symm

variable {f : Slot → Inode} {dev inum : Nat} {ip : Slot} {v : Inode}

theorem Recache.set (hkey : v.key = (f ip).key) (href : 0 < v.ref → 0 < (f ip).ref) :
    Recache f (Function.update f ip v) := by
  intro jp hpos
  by_cases hj : jp = ip
  · subst hj
    rw [update_self] at hpos ⊢
    exact .inl ⟨href hpos, hkey⟩
  · rw [update_of_ne hj] at hpos ⊢
    exact .inl ⟨hpos, rfl⟩

/-- The loop of `iget` finds the entry in use for the inode if there is one. -/
theorem igetLoop_found {ips : List Slot} {empty : Option Slot} {r : Slot × Bool}
    (h : igetLoop f dev inum empty ips = some r) :
    if r.2 then 0 < (f r.1).ref else ∀ jp ∈ ips, 0 < (f jp).ref → (f jp).key ≠ (dev, inum) := by
  induction ips generalizing empty with
  | nil =>
      obtain ⟨ip, -, rfl⟩ := Option.map_eq_some_iff.mp h
      exact nofun
  | cons ip ips ih =>
      rw [igetLoop] at h
      split at h
      · rename_i hcached
        obtain rfl := Option.some.inj h
        exact hcached.1
      · rename_i hno
        have hrest := ih h
        split at hrest
        · exact (if_pos ‹_›).mpr hrest
        · rw [if_neg ‹_›, List.forall_mem_cons]
          exact ⟨fun hpos hkey => hno ⟨hpos, Prod.mk.inj hkey⟩, hrest⟩

theorem recache_iget (h : iget f dev inum = some (ip, v)) : Recache f (Function.update f ip v) := by
  obtain ⟨⟨j, found⟩, hloop, heq⟩ := Option.map_eq_some_iff.mp h
  have hfound := igetLoop_found hloop
  cases found with
  | true =>
      obtain ⟨rfl, rfl⟩ := Prod.mk.inj heq
      exact .set rfl fun _ => hfound
  | false =>
      obtain ⟨rfl, rfl⟩ := Prod.mk.inj heq
      have hfree : (f j).ref = 0 := igetLoop_eq hloop (fun _ h => nomatch h) rfl
      -- the entry is new, and the others are as they were
      intro jp hpos
      by_cases hj : jp = j
      · subst hj
        refine .inr ⟨hfree, fun kp hkp hkey => ?_⟩
        by_contra hne
        rw [update_of_ne hne] at hkp hkey
        rw [update_self] at hkey
        exact hfound kp (List.mem_finRange kp) hkp hkey
      · rw [update_of_ne hj] at hpos ⊢
        exact .inl ⟨hpos, rfl⟩

/-- What a step does to the entries. -/
theorem Inv.recache {s t : Sys n m} {e : Event n m} (hi : Inv s) (hstep : Step s e t) :
    Recache s.inode t.inode := by
  have hsame : Recache s.inode s.inode := fun _ hpos => .inl ⟨hpos, rfl⟩
  cases hstep with
  | iget _ _ _ _ hget => exact recache_iget hget
  | @idup _ _ _ ip _ _ _ hfrom =>
      have hpos := one_le_occ hfrom
      have hrefs := hi.core.refs ip
      exact .set rfl fun _ => by omega
  | ilock | test | iunlock => split <;> exact hsame
  | take =>
      split
      · exact hsame
      · exact .set rfl id
  | store | clear => exact .set rfl id
  | iput =>
      split
      · split
        · exact hsame
        · exact .set rfl id
      · exact .set rfl fun hpos => Nat.lt_of_lt_of_le hpos (Nat.sub_le ..)
  | truncated => exact .set rfl fun hpos => Nat.lt_of_lt_of_le hpos (Nat.sub_le ..)
  | igetPanic | load | sleep | wakeup | kill => exact hsame

/-- **The inode cache counts its references and caches no inode twice**, in every run; and no step
gives an entry to another inode while it is in use. -/
theorem icache_exact {tr : List (Sys n m × Event n m)} {s : Sys n m} (hrun : Exec Step boot tr s) :
    (∀ ip, (s.inode ip).ref = occ s.place ip + truncs s ip) ∧ CachedOnce s.inode ∧
      ∀ e t, Step s e t → ∀ ip, 0 < (s.inode ip).ref → 0 < (t.inode ip).ref →
        (t.inode ip).key = (s.inode ip).key := by
  have hinv := hrun.invariant (P := fun s => Inv s ∧ CachedOnce s.inode)
    (fun _ _ _ h hstep => ⟨h.1.step hstep, h.2.recache (h.1.recache hstep)⟩) ⟨inv_boot, nofun⟩
  refine ⟨hinv.1.core.refs, hinv.2, fun e t hstep ip hpos hpos' => ?_⟩
  rcases hinv.1.recache hstep ip hpos' with ⟨-, hkey⟩ | ⟨hfree, -⟩
  · exact hkey
  · omega

end

/-- Two processes lock an inode through one reference, and the second one has to wait. -/
theorem inodeLocks_exclusive_two :
    ∃ (tr : List (Sys 2 1 × Event 2 1)) (s : Sys 2 1),
      Exec Step boot tr s ∧ SleepsOn s 1 ⟨0, by decide⟩ ∧ Exclusive s := by
  have hget : iget (boot : Sys 2 1).inode 1 7
      = some (⟨0, by decide⟩, ⟨1, 7, 1, false, false⟩) := by decide +kernel
  have h1 : Exec Step (boot : Sys 2 1) _ _ :=
    .snoc (e := .iget 0 0 1 7) (.nil boot) (.iget rfl rfl rfl rfl hget)
  have h2 := h1.snoc (e := .ilock 0 0) (.ilock rfl rfl rfl rfl)
  have h3 := h2.snoc (e := .take 0) (.take rfl rfl rfl rfl)
  have h4 := h3.snoc (e := .ilock 1 0) (.ilock rfl rfl rfl rfl)
  have h5 := h4.snoc (e := .take 1) (.take rfl rfl rfl rfl)
  exact ⟨_, _, h5, ⟨rfl, rfl⟩, inodeLocks_exclusive h5⟩

/-- One `iget`. -/
theorem icache_exact_one :
    ∃ (tr : List (Sys 1 1 × Event 1 1)) (s : Sys 1 1), Exec Step boot tr s ∧
      s.place 0 = some ⟨0, by decide⟩ ∧ CachedOnce s.inode := by
  have hget : iget (boot : Sys 1 1).inode 1 7
      = some (⟨0, by decide⟩, ⟨1, 7, 1, false, false⟩) := by decide +kernel
  have hrun : Exec Step (boot : Sys 1 1) _ _ :=
    .snoc (e := .iget 0 0 1 7) (.nil boot) (.iget rfl rfl rfl rfl hget)
  exact ⟨_, _, hrun, rfl, (icache_exact hrun).2.1⟩

end Xv6.Icache
