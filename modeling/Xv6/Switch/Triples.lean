import Xv6.Switch.Rules

/-! # Triples for the code

One triple for each function: which locks it wants held, and which it leaves held. -/

namespace Xv6.Switch

open Lib

variable {c : Option Pid} {α β : Type} {P P' : St → Prop} {R R' : Rest} {n : Nat} {L : List Lock}
  {l : Lock} {p : Pid}

/-! ## `pushcli` and `popcli` -/

variable {s : St} {x : ProcState} {q : Pid} {ch : Option Chan} {l : Lock} {L : List Lock}

theorem Cli.setCpu {n' : Nat} {cpu : Cpu} (h : Cli R n L s) (hncli : cpu.ncli = n')
    (hblocked : n' ≠ 0 → cpu.blocked = true) : Cli R n' L { s with cpu := cpu } :=
  ⟨h.lock, hncli, hblocked, h.rest⟩

/-- `pushcli` blocks interrupts and counts. -/
theorem triple_pushcli (h : n = 0 → R = Here c ∧ L = []) :
    Triple c (Cli R n L) pushcli fun _ => Cli R (n + 1) L := by
  have hstable : Stable c (Cli R n L) := stable_cli h
  refine .bind (M := fun _ => Cli R n L) ?_ fun sr => ?_
  · exact triple_instr hstable (fun _ _ => nofun) (fun _ _ => trivial)
      fun s b t hs hdoes => hdoes.2 ▸ hs
  refine .bind (M := fun _ s => Cli R n L s ∧ s.cpu.blocked = true) ?_ fun _ => ?_
  · refine triple_instr hstable (fun _ _ => nofun) (fun _ _ => trivial) fun s b t hs hdoes => ?_
    obtain rfl : t = _ := hdoes
    exact ⟨hs.setCpu hs.ncli fun _ => Cpu.blocked_cli _, Cpu.blocked_cli _⟩
  -- from here on the context runs alone
  rintro s ⟨hs, hb⟩
  refine spec_of_blocked hb trivial ?_
  rintro _ s ⟨rfl, rfl⟩
  refine spec_of_blocked hb trivial ?_
  rintro _ _ rfl
  have hnext : Cli R (n + 1) L { s with cpu := { s.cpu with ncli := s.cpu.ncli + 1 } } :=
    hs.setCpu (congrArg (· + 1) hs.ncli) fun _ => hb
  show wpc c (if s.cpu.ncli = 0 then _ else _) _ _
  split
  · refine spec_of_blocked (hnext.blocked n.succ_ne_zero) trivial ?_
    rintro _ _ rfl
    exact hnext.setCpu hnext.ncli fun _ => hnext.blocked n.succ_ne_zero
  · exact hnext

/-- `popcli` counts back, and enables interrupts at depth zero. -/
theorem triple_popcli : Triple c (Cli R (n + 1) L) popcli fun _ => Cli R n L := by
  intro s hs
  have hb := hs.blocked n.succ_ne_zero
  have hsr : s.cpu.sr &&& SR_BL_MASK ≠ 0#32 := by simpa [Cpu.blocked] using hb
  have hncli : s.cpu.ncli - 1 = n := by rw [hs.ncli, Nat.add_sub_cancel]
  refine spec_of_blocked hb trivial ?_
  rintro _ s ⟨rfl, rfl⟩
  show wpc c (if _ then _ else _) _ _
  rw [if_neg hsr]
  refine spec_of_blocked hb trivial ?_
  rintro _ s ⟨rfl, rfl⟩
  show wpc c (if _ then _ else _) _ _
  rw [if_neg (by rw [hs.ncli]; exact n.succ_ne_zero)]
  refine spec_of_blocked hb trivial ?_
  rintro _ _ rfl
  have hnext : Cli R n L { s with cpu := { s.cpu with ncli := s.cpu.ncli - 1 } } :=
    hs.setCpu hncli fun _ => hb
  refine spec_of_blocked hb trivial ?_
  rintro _ s ⟨rfl, rfl⟩
  show wpc c (if _ then _ else _) _ _
  split
  · rename_i hzero
    refine spec_of_blocked hb trivial ?_
    rintro _ _ rfl
    exact hnext.setCpu hncli fun hn => absurd (hncli.symm.trans hzero.1) hn
  · exact hnext

/-! ## `acquire` and `release` -/

theorem Cli.holding_iff (h : Cli R n L s) : holding (s.lock l) = true ↔ l ∈ L := by
  rw [h.lock]
  split <;> simp_all [holding]

/-- Taking a lock. -/
theorem Cli.cons (h : Cli R n L s) : Cli R n (l :: L) (s.setLock l ⟨true, some cpuId⟩) := by
  refine ⟨fun l' => ?_, h.ncli, h.blocked, h.rest⟩
  show Function.update s.lock l _ l' = _
  by_cases hl : l' = l
  · subst hl
    rw [Function.update_self, if_pos (.head _)]
  · rw [Function.update_of_ne hl, h.lock]
    simp [hl]

/-- Giving a lock up. -/
theorem Cli.tail (h : Cli R n (l :: L) s) (hl : l ∉ L) : Cli R n L (s.setLock l ⟨false, none⟩) := by
  refine ⟨fun l' => ?_, h.ncli, h.blocked, h.rest⟩
  show Function.update s.lock l _ l' = _
  by_cases hl' : l' = l
  · subst hl'
    rw [Function.update_self, if_neg hl]
  · rw [Function.update_of_ne hl', h.lock]
    simp [hl']

/-- **`acquire`** of a lock that is not held. -/
theorem triple_acquire (h : n = 0 → R = Here c ∧ L = []) (hl : l ∉ L) :
    Triple c (Cli R n L) (acquire l) fun _ => Cli R (n + 1) (l :: L) := by
  refine .bind (triple_pushcli h) fun _ s hs => ?_
  have hb := hs.blocked n.succ_ne_zero
  have hfree : s.lock l = ⟨false, none⟩ := by rw [hs.lock, if_neg hl]
  refine spec_of_blocked hb trivial ?_
  rintro _ s ⟨rfl, rfl⟩
  show wpc c (if _ then _ else _) _ _
  rw [if_neg (mt hs.holding_iff.mp hl)]
  refine spec_of_blocked hb (by rw [Guard, hfree]) ?_
  rintro _ s ⟨-, rfl⟩
  refine spec_of_blocked hb (by rw [Guard, hfree]; rfl) ?_
  rintro _ _ rfl
  exact hs.cons

/-- **`release`** of the lock that was taken last. -/
theorem triple_release (hl : l ∉ L) :
    Triple c (Cli R (n + 1) (l :: L)) (release l) fun _ => Cli R n L := by
  intro s hs
  have hb := hs.blocked n.succ_ne_zero
  have hheld : s.lock l = ⟨true, some cpuId⟩ := by rw [hs.lock, if_pos (.head _)]
  refine spec_of_blocked hb trivial ?_
  rintro _ s ⟨rfl, rfl⟩
  show wpc c (if _ then _ else _) _ _
  rw [if_neg (by rw [hheld]; decide)]
  refine spec_of_blocked hb (by rw [Guard, hheld]; rfl) ?_
  rintro _ _ rfl
  exact triple_popcli _ (hs.tail hl)

/-- `acquire` in the code of the context. -/
theorem triple_acquire_at (hl : l ∉ L) : Triple c (At c L) (acquire l) fun _ => At c (l :: L) :=
  triple_acquire (fun h => ⟨rfl, List.eq_nil_of_length_eq_zero h⟩) hl

/-- The order in which locks were taken does not matter. -/
theorem Cli.swap {l' : Lock} (h : Cli R n [l, l'] s) : Cli R n [l', l] s :=
  ⟨fun k => by rw [h.lock]; simp [or_comm], h.ncli, h.blocked, h.rest⟩

/-- A section of a lock, in which the code keeps the state as it is. -/
theorem triple_section {m : Code Unit} (hl : l ∉ L)
    (hm : Triple c (At c (l :: L)) m fun _ => At c (l :: L)) :
    Triple c (At c L) (do acquire l; m; release l) fun _ => At c L := by
  refine .bind (triple_acquire_at hl) fun _ => ?_
  exact .bind hm fun _ => triple_release hl

/-! ## Switching -/

/-- `proc`, where it is known. -/
theorem triple_curproc (hP : Stable c P) (hproc : ∀ s, P s → s.proc = some p) :
    Triple c P curproc fun q s => P s ∧ q = p := by
  refine .bind (M := fun o s => P s ∧ o = some p) ?_ fun o => ?_
  · refine (triple_read .getProc hP (fun _ _ => nofun) (fun _ _ _ h => h.2) fun _ => trivial).conseq
      (fun _ h => h) fun o s h => ⟨h.1, h.2.1.trans (hproc s h.1)⟩
  · refine Triple.of_pre (fun s h => h.2) fun ho => ?_
    subst ho
    exact .pure fun s h => ⟨h.1, rfl⟩

/-- What a process has to see to before `sched`: it has given up `RUNNING`. -/
abbrev Leaving (p : Pid) (x : ProcState) : St → Prop :=
  Handed fun proc state => proc = some p ∧ state p = x

/-- **`sched`** passes its tests, hands the lock over, and comes back with it unless the process is
a zombie. -/
theorem triple_sched (hx : x ≠ .RUNNING) :
    Triple (some p) (Leaving p x) sched fun _ s => live x = true ∧ At (some p) [.ptable] s := by
  intro s hs
  have hb := hs.blocked Nat.one_ne_zero
  have hsr : s.cpu.sr &&& SR_BL_MASK ≠ 0#32 := by simpa [Cpu.blocked] using hb
  refine spec_of_blocked hb trivial ?_
  rintro _ s ⟨rfl, rfl⟩
  show wpc _ (if _ then _ else _) _ _
  rw [if_neg (by rw [hs.holding_iff.mpr (.head _)]; decide)]
  refine spec_of_blocked hb trivial ?_
  rintro _ s ⟨rfl, rfl⟩
  show wpc _ (if _ then _ else _) _ _
  rw [if_neg (not_not_intro hs.ncli)]
  refine Triple.bind (triple_curproc (stable_blocked fun _ h => h.blocked Nat.one_ne_zero)
    fun _ h => h.rest.1) (fun q => ?_) s hs
  rintro s ⟨hs, rfl⟩
  have hb := hs.blocked Nat.one_ne_zero
  have hsr : s.cpu.sr &&& SR_BL_MASK ≠ 0#32 := by simpa [Cpu.blocked] using hb
  refine spec_of_blocked hb trivial ?_
  rintro _ s ⟨rfl, rfl⟩
  show wpc _ (if _ then _ else _) _ _
  rw [if_neg (by rw [hs.rest.2]; exact hx)]
  refine spec_of_blocked hb trivial ?_
  rintro _ s ⟨rfl, rfl⟩
  show wpc _ (if _ then _ else _) _ _
  rw [if_neg hsr]
  refine spec_of_blocked hb trivial ?_
  rintro _ s ⟨rfl, rfl⟩
  refine spec_of_blocked hb ⟨rfl, rfl, hs.lock, hs.ncli, hs.blocked, trivial⟩ ?_
  intro hlive t ht
  refine spec_of_blocked (ht.blocked Nat.one_ne_zero) trivial ?_
  rintro _ _ rfl
  exact ⟨hs.rest.2 ▸ hlive q rfl, ht.setCpu ht.ncli ht.blocked⟩

/-- The state of the own process changes while the lock is held. -/
theorem triple_leave :
    Triple (some p) (At (some p) [.ptable]) (instr (.setState p x)) fun _ => Leaving p x := by
  refine triple_instr (stable_at _ _) (fun _ _ => nofun) (fun _ _ => .inl rfl) ?_
  rintro s _ _ hs rfl
  exact ⟨hs.lock, hs.ncli, hs.blocked, hs.rest.1, Function.update_self ..⟩

theorem proc_of_at (h : At c L s) : s.proc = c := h.rest.1

/-- `proc` in a process's own code. -/
theorem triple_curproc_at :
    Triple (some p) (At (some p) L) curproc fun q s => At (some p) L s ∧ q = p :=
  triple_curproc (stable_at _ _) fun _ => proc_of_at

/-- Taking a first lock. -/
theorem triple_acquire_first : Triple c (At c []) (acquire l) fun _ => At c [l] :=
  triple_acquire_at List.not_mem_nil

/-- Giving the only lock up. -/
theorem triple_release_last : Triple c (At c [l]) (release l) fun _ => At c [] :=
  triple_release List.not_mem_nil

/-- **`yield`.** -/
theorem triple_yield : Triple (some p) (At (some p) []) yield fun _ => At (some p) [] := by
  refine .bind triple_acquire_first fun _ => ?_
  refine .bind triple_curproc_at fun q => ?_
  refine Triple.of_pre (fun s h => h.2) fun hq => ?_
  subst hq
  refine .bind (triple_leave.pre fun s h => h.1) fun _ => ?_
  refine .bind (triple_sched (by decide)) fun _ => ?_
  exact triple_release_last.pre fun s h => h.2

/-- Instructions on fields that no assertion mentions. -/
theorem triple_setChan : Triple c (At c L) (instr (.setChan q ch)) fun _ => At c L := by
  refine triple_instr (stable_at _ _) (fun _ _ => nofun) (fun _ _ => trivial) ?_
  rintro s _ _ hs rfl
  exact ⟨hs.lock, hs.ncli, hs.blocked, hs.rest⟩

theorem triple_gotoSleep {ch : Chan} :
    Triple (some p) (At (some p) [.ptable]) (gotoSleep p ch) fun _ => At (some p) [.ptable] := by
  refine .bind triple_setChan fun _ => ?_
  refine .bind triple_leave fun _ => ?_
  refine .bind (triple_sched (by decide)) fun _ => ?_
  refine .bind (triple_curproc_at.pre fun s h => h.2) fun q => ?_
  exact triple_setChan.pre fun s h => h.1

/-- The head of `sleep`: `proc` is not null. -/
theorem triple_getProc : Triple c (At c L) (instr .getProc) fun o s => At c L s ∧ o = c :=
  (triple_read .getProc (stable_at _ _) (fun _ _ => nofun) (fun _ _ _ h => h.2)
    fun _ => trivial).conseq (fun _ h => h) fun _ _ h => ⟨h.1, h.2.1.trans (proc_of_at h.1)⟩

/-- **`sleep`** with another lock, which is given up and taken again. -/
theorem triple_sleep {ch : Chan} (hl : l ≠ .ptable) :
    Triple (some p) (At (some p) [l]) (sleep ch l) fun _ => At (some p) [l] := by
  refine .bind triple_getProc fun o => Triple.of_pre (fun s h => h.2) fun ho => ?_
  subst ho
  refine .bind (M := fun _ => At (some p) [.ptable]) ?_ fun _ =>
    .bind triple_gotoSleep fun _ => ?_
  · rw [if_pos hl]
    have hmem : Lock.ptable ∉ [l] := by simpa using Ne.symm hl
    have hmem' : l ∉ [Lock.ptable] := by simpa using hl
    refine .bind ((triple_acquire_at hmem).pre fun s h => h.1) fun _ => ?_
    exact (triple_release hmem').pre fun s h => h.swap
  · rw [if_pos hl]
    exact .bind triple_release_last fun _ => triple_acquire_first

/-- **`sleep`** with `ptable.lock` itself. -/
theorem triple_sleep_ptable {ch : Chan} :
    Triple (some p) (At (some p) [.ptable]) (sleep ch .ptable) fun _ => At (some p) [.ptable] := by
  refine .bind triple_getProc fun o => Triple.of_pre (fun s h => h.2) fun ho => ?_
  subst ho
  refine .bind (M := fun _ => At (some p) [.ptable]) ?_ fun _ =>
    .bind triple_gotoSleep fun _ => ?_
  · rw [if_neg (not_not_intro rfl)]
    exact .pure fun s h => h.1
  · rw [if_neg (not_not_intro rfl)]
    exact .pure fun s h => h

/-! ## Other processes -/

/-- The state of a process changes that is not the one that runs. -/
theorem At.setState (h : At c L s) (hq : c ≠ some q) : At c L (s.setState q x) := by
  refine ⟨h.lock, h.ncli, h.blocked, h.rest.1, fun p hp => ?_⟩
  have hne : p ≠ q := fun heq => hq (heq ▸ hp)
  exact (Function.update_of_ne hne ..).trans (h.rest.2 p hp)

/-- A process that sleeps, is a zombie or is not used is not the one that runs. -/
theorem At.ne_of_state (h : At c L s) (hq : s.state q ≠ .RUNNING) : c ≠ some q :=
  fun heq => hq (h.rest.2 q heq)

/-- Reading the state of a process while a lock is held. -/
theorem triple_getState :
    Triple c (At c L) (instr (.getState q)) fun b s => At c L s ∧ b = s.state q :=
  (triple_read (.getState q) (stable_at _ _) (fun _ _ => nofun) (fun _ _ _ h => h.2)
    fun _ => trivial).conseq (fun _ h => h) fun _ _ h => ⟨h.1, h.2.1⟩

/-- Reading a field that no assertion mentions. -/
theorem triple_getKilled : Triple c (At c L) (instr (.getKilled q)) fun _ => At c L :=
  (triple_read (.getKilled q) (stable_at _ _) (fun _ _ => nofun) (fun _ _ _ h => h.2)
    fun _ => trivial).conseq (fun _ h => h) fun _ _ h => h.1

theorem triple_getParent : Triple c (At c L) (instr (.getParent q)) fun _ => At c L :=
  (triple_read (.getParent q) (stable_at _ _) (fun _ _ => nofun) (fun _ _ _ h => h.2)
    fun _ => trivial).conseq (fun _ h => h) fun _ _ h => h.1

theorem triple_ask {q : Query} : Triple c (At c L) (instr (.ask q)) fun _ => At c L :=
  (triple_read (.ask q) (stable_at _ _) (fun _ _ => nofun) (fun _ _ _ h => h)
    fun _ => trivial).conseq (fun _ h => h) fun _ _ h => h.1

theorem triple_setParent {o : Option Pid} :
    Triple c (At c L) (instr (.setParent q o)) fun _ => At c L := by
  refine triple_instr (stable_at _ _) (fun _ _ => nofun) (fun _ _ => trivial) ?_
  rintro s _ _ hs rfl
  exact ⟨hs.lock, hs.ncli, hs.blocked, hs.rest⟩

theorem triple_setKilled {b : Bool} :
    Triple c (At c L) (instr (.setKilled q b)) fun _ => At c L := by
  refine triple_instr (stable_at _ _) (fun _ _ => nofun) (fun _ _ => trivial) ?_
  rintro s _ _ hs rfl
  exact ⟨hs.lock, hs.ncli, hs.blocked, hs.rest⟩

/-- Setting the state of another process, to one in which it is not switched to. -/
theorem triple_setState_dead (hq : c ≠ some q) (hx : live x = false) :
    Triple c (At c L) (instr (.setState q x)) fun _ => At c L := by
  refine triple_instr (stable_at _ _) (fun _ _ => nofun)
    (fun _ _ => .inr fun h => absurd (hx.symm.trans h) Bool.false_ne_true) ?_
  rintro s _ _ hs rfl
  exact hs.setState hq

/-- Making a sleeping process runnable while a lock is held. -/
theorem triple_setState_wake :
    Triple c (fun s => At c (l :: L) s ∧ s.state q = .SLEEPING) (instr (.setState q .RUNNABLE))
      fun _ => At c (l :: L) := by
  refine triple_instr (stable_blocked fun s h => h.1.blocked (Nat.succ_ne_zero _))
    (fun _ _ => nofun) (fun s h => .inr fun _ => by rw [h.2]; rfl) ?_
  rintro s _ _ ⟨hs, hstate⟩ rfl
  exact hs.setState (hs.ne_of_state (by rw [hstate]; decide))

/-- Reading the channel of a process that sleeps. -/
theorem triple_getChan :
    Triple c (fun s => At c (l :: L) s ∧ s.state q = x) (instr (.getChan q))
      fun _ s => At c (l :: L) s ∧ s.state q = x :=
  (triple_read (.getChan q) (stable_blocked fun _ h => h.1.blocked (Nat.succ_ne_zero _))
    (fun _ _ => nofun) (fun _ _ _ h => h.2) fun _ => trivial).conseq (fun _ h => h)
    fun _ _ h => h.1

/-- The loop of `wakeup1`. -/
theorem triple_wakeup1Loop (ps : List Pid) :
    Triple c (At c (l :: L)) (wakeup1Loop ch ps) fun _ => At c (l :: L) := by
  induction ps with
  | nil => exact .pure fun s h => h
  | cons q ps ih =>
      refine .bind triple_getState fun st => .bind ?_ fun _ => ih
      refine Triple.ite (fun hst => ?_) fun _ => .pure fun s h => h.1
      subst hst
      refine .bind (triple_getChan.pre fun s h => ⟨h.1, h.2.symm⟩) fun pc => ?_
      refine Triple.ite (fun _ => ?_) fun _ => .pure fun s h => h.1
      exact triple_setState_wake

/-- **`wakeup1`.** -/
theorem triple_wakeup1 : Triple c (At c (l :: L)) (wakeup1 ch) fun _ => At c (l :: L) :=
  triple_wakeup1Loop table

/-- **`wakeup`.** -/
theorem triple_wakeup {ch : Chan} (hL : Lock.ptable ∉ L) :
    Triple c (At c L) (wakeup ch) fun _ => At c L :=
  triple_section hL triple_wakeup1

/-! ## The other locks -/

theorem triple_leafSection {l : Leaf} (hl : Lock.leaf l ∉ L) :
    Triple c (At c L) (leafSection l) fun _ => At c L := by
  refine .bind (triple_acquire_at hl) fun _ => ?_
  exact triple_release hl

theorem triple_leafSections {l : Leaf} (hl : Lock.leaf l ∉ L) (k : Nat) :
    Triple c (At c L) (leafSections l k) fun _ => At c L := by
  induction k with
  | zero => exact .pure fun s h => h
  | succ k ih => exact .bind (triple_leafSection hl) fun _ => ih

/-- `switchuvm`. -/
theorem triple_switchuvm (h : n = 0 → R = Here c ∧ L = []) :
    Triple c (Cli R n L) switchuvm fun _ => Cli R n L :=
  .bind (triple_pushcli h) fun _ => triple_popcli

/-- What stands under a lock of the first class. -/
theorem triple_item {l : Outer} (i : Item) :
    Triple (some p) (At (some p) [.outer l]) (i.code l) fun _ => At (some p) [.outer l] := by
  cases i with
  | wakeup ch => exact triple_wakeup (by simp)
  | sleep ch => exact triple_sleep (by simp)
  | cprintf => exact triple_leafSection (by simp)

theorem triple_itemsCode {l : Outer} (is : List Item) :
    Triple (some p) (At (some p) [.outer l]) (itemsCode l is) fun _ => At (some p) [.outer l] := by
  induction is with
  | nil => exact .pure fun s h => h
  | cons i is ih => exact .bind (triple_item i) fun _ => ih

/-- A section of another lock. -/
theorem triple_workCode (w : Work) :
    Triple (some p) (At (some p) []) w.code fun _ => At (some p) [] := by
  cases w with
  | «section» l is => exact triple_section List.not_mem_nil (triple_itemsCode is)
  | leaf l => exact triple_leafSection List.not_mem_nil
  | switchuvm => exact triple_switchuvm fun _ => ⟨rfl, rfl⟩

theorem triple_worksCode (ws : List Work) :
    Triple (some p) (At (some p) []) (worksCode ws) fun _ => At (some p) [] := by
  induction ws with
  | nil => exact .pure fun s h => h
  | cons w ws ih => exact .bind (triple_workCode w) fun _ => ih

/-- Any function of another part of the kernel. -/
theorem triple_work : Triple (some p) (At (some p) []) work fun _ => At (some p) [] :=
  .bind triple_ask fun ws => triple_worksCode ws

/-! ## Processes -/

theorem triple_exitLoop (ps : List Pid) :
    Triple c (At c (l :: L)) (exitLoop q ps) fun _ => At c (l :: L) := by
  induction ps with
  | nil => exact .pure fun s h => h
  | cons r ps ih =>
      refine .bind triple_getParent fun parent => .bind ?_ fun _ => ih
      refine Triple.ite (fun _ => ?_) fun _ => .pure fun s h => h
      refine .bind triple_setParent fun _ => .bind triple_getState fun st => ?_
      refine Triple.ite (fun _ => ?_) fun _ => .pure fun s h => h.1
      exact triple_wakeup1.pre fun s h => h.1

/-- The only panic that can be reached, with no lock held. -/
theorem triple_initExiting {Q : α → St → Prop} :
    Triple c (At c []) (panic "init exiting" : Code α) Q := by
  intro s hs
  have hpanic : Triple c (At c []) (instr (.panic "init exiting")) fun _ _ => True :=
    triple_instr (stable_at _ _) (fun _ _ => nofun)
      (fun s hs => ⟨rfl, by rw [hs.lock, if_neg List.not_mem_nil]⟩) fun _ b => nomatch b
  exact monotone_spec c _ _ _ _ (fun e => nomatch e) (hpanic s hs)

/-- **`exit`** does not return. -/
theorem triple_exit {Q : Unit → St → Prop} : Triple (some p) (At (some p) []) exit Q := by
  refine .bind triple_getProc fun o => ?_
  refine Triple.ite (fun _ => triple_initExiting.pre fun s h => h.1) fun _ => ?_
  refine .bind (triple_work.pre fun s h => h.1) fun _ => ?_
  refine .bind triple_acquire_first fun _ => .bind triple_curproc_at fun q => ?_
  refine Triple.of_pre (fun s h => h.2) fun hq => ?_
  subst hq
  refine .bind (triple_getParent.pre fun s h => h.1) fun parent => ?_
  refine .bind triple_wakeup1 fun _ => .bind (triple_exitLoop table) fun _ => ?_
  refine .bind triple_leave fun _ => .bind (triple_sched (by decide)) fun _ => ?_
  exact triple_panic fun s h => absurd h.1 (by decide)

/-- The scan of `wait`. -/
theorem triple_waitScan (ps : List Pid) (havekids : Bool) :
    Triple (some p) (At (some p) [.ptable]) (waitScan q ps havekids)
      fun _ => At (some p) [.ptable] := by
  induction ps generalizing havekids with
  | nil => exact .pure fun s h => h
  | cons r ps ih =>
      refine .bind triple_getParent fun parent => ?_
      refine Triple.ite (fun _ => ih _) fun _ => ?_
      refine .bind triple_getState fun st => ?_
      refine Triple.ite (fun hst => ?_) fun _ => (ih _).pre fun s h => h.1
      refine Triple.of_pre (fun s h => h.1.ne_of_state (by rw [← h.2, hst]; decide)) fun hne => ?_
      refine .bind (triple_ask.pre fun s h => h.1) fun k => ?_
      refine .bind (triple_leafSections (by simp) k) fun _ => ?_
      refine .bind (triple_setState_dead hne rfl) fun _ => ?_
      refine .bind triple_setParent fun _ => .bind triple_setKilled fun _ => ?_
      exact .pure fun s h => h

theorem triple_waitLoop (k : Nat) :
    Triple (some p) (At (some p) [.ptable]) (waitLoop k) fun _ => At (some p) [] := by
  induction k with
  | zero => exact triple_release_last
  | succ k ih =>
      refine .bind triple_curproc_at fun q => ?_
      refine .bind ((triple_waitScan table false).pre fun s h => h.1) fun r => ?_
      refine Triple.ite (fun _ => triple_release_last) fun _ => ?_
      refine .bind triple_getKilled fun killed => ?_
      refine Triple.ite (fun _ => triple_release_last) fun _ => ?_
      exact .bind triple_sleep_ptable fun _ => ih

/-- **`wait`.** -/
theorem triple_wait : Triple (some p) (At (some p) []) wait fun _ => At (some p) [] :=
  .bind triple_acquire_first fun _ => .bind triple_ask fun k => triple_waitLoop k

/-- The search of `allocproc` ends at another process. -/
theorem triple_findUnused (ps : List Pid) :
    Triple c (At c L) (findUnused ps) fun o s => At c L s ∧ ∀ q, o = some q → c ≠ some q := by
  induction ps with
  | nil => exact .pure fun s h => ⟨h, fun q hq => by cases hq⟩
  | cons r ps ih =>
      refine .bind triple_getState fun st => ?_
      refine Triple.ite (fun hst => ?_) fun _ => ih.pre fun s h => h.1
      refine .pure fun s h => ⟨h.1, fun q hq => ?_⟩
      obtain rfl : r = q := Option.some.inj hq
      exact h.1.ne_of_state (by rw [← h.2, hst]; decide)

theorem triple_allocproc :
    Triple (some p) (At (some p) []) allocproc
      fun o s => At (some p) [] s ∧ ∀ q, o = some q → some p ≠ some q := by
  refine .bind triple_acquire_first fun _ => .bind (triple_findUnused table) fun o => ?_
  refine Triple.of_pre (fun s h => h.2) fun ho => ?_
  cases o with
  | none =>
      refine .bind (triple_release_last.pre fun s h => h.1) fun _ => ?_
      exact .pure fun s h => ⟨h, fun q hq => by cases hq⟩
  | some q =>
      have hne : some p ≠ some q := ho q rfl
      refine .bind ((triple_setState_dead hne rfl).pre fun s h => h.1) fun _ => ?_
      refine .bind triple_release_last fun _ => ?_
      refine .bind (triple_leafSection (by simp)) fun _ => .bind triple_ask fun ok => ?_
      refine Triple.ite (fun _ => .pure fun s h => ⟨h, ho⟩) fun _ => ?_
      refine .bind (triple_setState_dead hne rfl) fun _ => ?_
      exact .pure fun s h => ⟨h, fun q hq => by cases hq⟩

/-- **`fork`.** -/
theorem triple_fork : Triple (some p) (At (some p) []) fork fun _ => At (some p) [] := by
  refine .bind triple_allocproc fun o => Triple.of_pre (fun s h => h.2) fun ho => ?_
  cases o with
  | none => exact .pure fun s h => h.1
  | some q =>
      have hne : some p ≠ some q := ho q rfl
      refine .bind (triple_work.pre fun s h => h.1) fun _ => .bind triple_ask fun ok => ?_
      refine Triple.ite (fun _ => ?_) fun _ => ?_
      · refine .bind triple_getProc fun r => ?_
        refine .bind (triple_setParent.pre fun s h => h.1) fun _ => ?_
        refine .bind triple_work fun _ => ?_
        refine triple_instr (stable_at _ _) (fun _ _ => nofun) (fun _ _ => hne) ?_
        rintro s _ _ hs rfl
        exact hs.setState hne
      · exact .bind (triple_leafSection (by simp)) fun _ => triple_setState_dead hne rfl

/-- **`kill`.** -/
theorem triple_kill : Triple (some p) (At (some p) []) kill fun _ => At (some p) [] := by
  refine .bind triple_acquire_first fun _ => .bind triple_ask fun o => ?_
  cases o with
  | none => exact triple_release_last
  | some q =>
      refine .bind triple_setKilled fun _ => .bind triple_getState fun st => ?_
      refine .bind ?_ fun _ => triple_release_last
      refine Triple.ite (fun hst => ?_) fun _ => .pure fun s h => h.1
      exact triple_setState_wake.pre fun s h => ⟨h.1, h.2.symm.trans hst⟩

/-- A system call. -/
theorem triple_taskCode (t : Task) :
    Triple (some p) (At (some p) []) t.code fun _ => At (some p) [] := by
  cases t with
  | work w => exact triple_workCode w
  | fork => exact triple_fork
  | wait => exact triple_wait
  | kill => exact triple_kill
  | yield => exact triple_yield
  | exit => exact triple_exit

theorem triple_tasksCode (ts : List Task) :
    Triple (some p) (At (some p) []) (tasksCode ts) fun _ => At (some p) [] := by
  induction ts with
  | nil => exact .pure fun s h => h
  | cons t ts ih => exact .bind (triple_taskCode t) fun _ => ih

/-! ## Handlers -/

theorem triple_timerKilled : Triple c (At c []) timerKilled fun _ => At c [] := by
  refine .bind triple_getProc fun o => Triple.of_pre (fun s h => h.2) fun ho => ?_
  subst ho
  cases o with
  | none => exact .pure fun s h => h.1
  | some p =>
      refine .bind (triple_getKilled.pre fun s h => h.1) fun killed => ?_
      exact Triple.ite (fun _ => triple_exit) fun _ => .pure fun s h => h

/-- **`do_timer`**, in any context. -/
theorem triple_doTimer : Triple c (At c []) doTimer fun _ => At c [] := by
  refine .bind triple_acquire_first fun _ => .bind (triple_wakeup (by simp)) fun _ => ?_
  refine .bind triple_release_last fun _ => .bind triple_timerKilled fun _ => ?_
  refine .bind triple_getProc fun o => Triple.of_pre (fun s h => h.2) fun ho => ?_
  subst ho
  refine .bind (M := fun _ => At o []) ?_ fun _ => triple_timerKilled
  cases o with
  | none => exact .pure fun s h => h.1
  | some p =>
      refine .bind (triple_getState.pre fun s h => h.1) fun st => ?_
      refine Triple.ite (fun _ => ?_) fun _ => .pure fun s h => h.1
      exact triple_yield.pre fun s h => h.1

theorem triple_keyCode (k : Key) :
    Triple c (At c [.outer .input]) k.code fun _ => At c [.outer .input] := by
  cases k with
  | procdump k => exact triple_leafSections (by simp) k
  | line => exact triple_wakeup (by simp)
  | other => exact .pure fun s h => h

theorem triple_keysCode (ks : List Key) :
    Triple c (At c [.outer .input]) (keysCode ks) fun _ => At c [.outer .input] := by
  induction ks with
  | nil => exact .pure fun s h => h
  | cons k ks ih => exact .bind (triple_keyCode k) fun _ => ih

/-- **`consoleintr`**, in any context. -/
theorem triple_consoleintr : Triple c (At c []) consoleintr fun _ => At c [] := by
  refine .bind triple_acquire_first fun _ => .bind triple_ask fun ks => ?_
  exact .bind (triple_keysCode ks) fun _ => triple_release_last

/-- Every handler, in any context. -/
theorem triple_handler (i : Irq) : Triple c (At c []) i.handler fun _ => At c [] := by
  cases i with
  | timer => exact triple_doTimer
  | scif => exact triple_consoleintr

/-- The return to a point at which interrupts were enabled. -/
theorem triple_rte {sr : BitVec 32} (hsr : sr &&& SR_BL_MASK = 0#32) :
    Triple c (At c []) (instr (.rte sr)) fun _ => Open c := by
  refine triple_instr (stable_at _ _) (fun _ _ => nofun) (fun _ _ => trivial) ?_
  rintro s _ _ hs rfl
  exact ⟨by simp [St.setSr, Cpu.blocked, hsr], hs.lock, hs.ncli, fun h => absurd rfl h, hs.rest⟩

/-! ## The scheduler and the first return of a process -/

/-- **`forkret`.** -/
theorem triple_forkret : Triple (some p) (At (some p) [.ptable]) forkret fun _ => Open (some p) := by
  refine .bind triple_release_last fun _ => .bind triple_ask fun sr => ?_
  exact triple_rte sr.2

/-- The loop of `scheduler`. -/
theorem triple_schedulerLoop (ps : List Pid) :
    Triple none (At none [.ptable]) (schedulerLoop ps) fun _ => At none [.ptable] := by
  induction ps with
  | nil => exact .pure fun s h => h
  | cons q ps ih =>
      refine .bind triple_getState fun st => .bind ?_ fun _ => ih
      refine Triple.ite (fun hst => ?_) fun _ => .pure fun s h => h.1
      -- the scheduler chooses the process `q`
      refine .bind (M := fun _ => Handed fun proc state => proc = some q ∧
        live (state q) = true) ?_ fun _ => ?_
      · refine triple_instr (stable_blocked fun s h => h.1.blocked Nat.one_ne_zero)
          (fun _ _ => (by rintro ⟨⟩)) (fun _ _ => trivial) ?_
        rintro s _ _ ⟨hs, hstate⟩ rfl
        exact ⟨hs.lock, hs.ncli, hs.blocked, rfl, by rw [← hstate, hst]; rfl⟩
      refine .bind (triple_switchuvm fun h => by cases h) fun _ => ?_
      refine .bind (M := fun _ => Handed (Here (some q))) ?_ fun _ => ?_
      · refine triple_instr (stable_blocked fun s h => h.blocked Nat.one_ne_zero)
          (fun _ _ => (by rintro ⟨⟩)) (fun s h => .inr fun _ => h.rest.2) ?_
        rintro s _ _ hs rfl
        refine ⟨hs.lock, hs.ncli, hs.blocked, hs.rest.1, fun p hp => ?_⟩
        obtain rfl : q = p := Option.some.inj hp
        exact Function.update_self ..
      -- the hand-over
      refine .bind (M := fun _ => Handed fun _ _ => True) ?_ fun _ => ?_
      · intro s hs
        refine spec_of_blocked (hs.blocked Nat.one_ne_zero) ⟨rfl, q, rfl, hs⟩ ?_
        exact fun _ t ht => ht
      · refine triple_instr (stable_blocked fun s h => h.blocked Nat.one_ne_zero)
          (fun _ _ => (by rintro ⟨⟩)) (fun _ _ => trivial) ?_
        rintro s _ _ hs rfl
        exact ⟨hs.lock, hs.ncli, hs.blocked, rfl, fun p hp => by cases hp⟩

/-- **One round of `scheduler`.** -/
theorem triple_scheduler : Triple none (At none []) scheduler fun _ => At none [] := by
  refine .bind (M := fun _ => At none []) ?_ fun _ => ?_
  · refine triple_instr (stable_at _ _) (fun _ _ => nofun) (fun _ _ => trivial) ?_
    rintro s _ _ hs rfl
    exact hs.setCpu hs.ncli fun h => absurd rfl h
  refine .bind triple_acquire_first fun _ => .bind (triple_schedulerLoop table) fun _ => ?_
  exact triple_release_last

end Xv6.Switch
