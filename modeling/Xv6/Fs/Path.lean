import Xv6.Fs.Dir
import Xv6.Fs.State
import Mathlib.Data.List.DropRight

/-! # Paths and what they name

The abstract side of path names. A path is a list of elements, a directory is a list of entries, and
a path names what is found by looking its elements up one after the other. The first half relates
the elements to `skipelem`; the second half says what a state of the file system holds under a
path, with no mention of the steps by which the kernel finds it. -/

namespace Xv6

namespace Fs

open Lib

/-! ## Path elements -/

/-- **The elements of a path**: the pieces between its slashes that are not empty, each cut to the
length of a name in a directory. -/
def elements (path : List UInt8) : List (List UInt8) :=
  ((path.splitOn slash).filter (· ≠ [])).map (·.take DIRSIZ)

@[simp] theorem elements_nil : elements [] = [] := by
  simp [elements]

/-- A slash in front adds no element. -/
theorem elements_slash_cons (path : List UInt8) : elements (slash :: path) = elements path := by
  have hsplit : ([] ++ slash :: path).splitOn slash = [] :: path.splitOn slash :=
    List.splitOn_append_cons_self_of_not_mem (List.not_mem_nil) path
  rw [List.nil_append] at hsplit
  rw [elements, hsplit]
  rfl

/-- Nor do several slashes. -/
theorem elements_dropWhile (path : List UInt8) :
    elements (path.dropWhile (· = slash)) = elements path := by
  induction path with
  | nil => rfl
  | cons c path ih =>
      by_cases hc : c = slash
      · subst hc
        rw [List.dropWhile_cons_of_pos (by simp), elements_slash_cons, ih]
      · rw [List.dropWhile_cons_of_neg (by simpa using hc)]

variable {name : List UInt8}

/-- A name that a slash or the end of the path follows is an element. -/
theorem elements_append (hne : name ≠ []) (hname : slash ∉ name) {rest : List UInt8}
    (hrest : rest = [] ∨ rest.head? = some slash) :
    elements (name ++ rest) = name.take DIRSIZ :: elements rest := by
  cases rest with
  | nil =>
      rw [List.append_nil, elements, List.splitOn_eq_singleton hname]
      simp [hne]
  | cons c rest =>
      have hc : c = slash := by simpa using hrest
      subst hc
      rw [elements_slash_cons, elements, List.splitOn_append_cons_self_of_not_mem hname]
      simp [hne, elements]

/-- What `dropWhile` leaves does not begin with a character it drops. -/
theorem ne_of_dropWhile_eq {path cs : List UInt8} {c : UInt8}
    (h : path.dropWhile (· = slash) = c :: cs) : c ≠ slash := by
  have hne : path.dropWhile (· = slash) ≠ [] := by simp [h]
  have hhead := List.head_dropWhile_not (p := fun x => decide (x = slash)) (l := path) hne
  simpa [h] using hhead

/-- **One call of `skipelem`** takes off the first element. -/
theorem elements_eq (path : List UInt8) :
    elements path = match skipelem path with
      | none => []
      | some (name, rest) => name :: elements rest := by
  unfold skipelem
  cases hdrop : path.dropWhile (· = slash) with
  | nil => rw [← elements_dropWhile, hdrop, elements_nil]
  | cons c cs =>
      have hc : c ≠ slash := ne_of_dropWhile_eq hdrop
      have hne : (c :: cs).takeWhile (· ≠ slash) ≠ [] := by
        rw [List.takeWhile_cons_of_pos (by simpa using hc)]
        exact List.cons_ne_nil _ _
      have hname : slash ∉ (c :: cs).takeWhile (· ≠ slash) := fun hmem => by
        simpa using List.mem_takeWhile_imp hmem
      have hrest : (c :: cs).dropWhile (· ≠ slash) = [] ∨
          ((c :: cs).dropWhile (· ≠ slash)).head? = some slash := by
        cases hd : (c :: cs).dropWhile (· ≠ slash) with
        | nil => exact .inl rfl
        | cons e es =>
            have hhead := List.head_dropWhile_not (p := fun x => decide (x ≠ slash))
              (l := c :: cs) (by rw [hd]; exact List.cons_ne_nil _ _)
            simp only [hd, List.head_cons, decide_eq_false_iff_not, not_not] at hhead
            exact .inr (congrArg some hhead)
      have hsplit := elements_append hne hname hrest
      rw [List.takeWhile_append_dropWhile] at hsplit
      rw [← elements_dropWhile, hdrop, hsplit]
      simp only [elements_dropWhile]

theorem elements_of_none {path : List UInt8} (h : skipelem path = none) : elements path = [] := by
  rw [elements_eq, h]

theorem elements_of_some {path name rest : List UInt8} (h : skipelem path = some (name, rest)) :
    elements path = name :: elements rest := by
  rw [elements_eq, h]

/-- What `skipelem` leaves is empty only if no element is left. -/
theorem elements_rest_eq_nil_iff {path name rest : List UInt8}
    (h : skipelem path = some (name, rest)) : elements rest = [] ↔ rest = [] := by
  refine ⟨fun hnil => ?_, fun hrest => by rw [hrest, elements_nil]⟩
  have hstable : rest.dropWhile (· = slash) = rest := by
    unfold skipelem at h
    split at h
    · cases h
    · cases h
      exact List.dropWhile_idempotent _ _
  cases rest with
  | nil => rfl
  | cons c cs =>
      rw [elements_eq, skipelem, hstable] at hnil
      cases hnil

/-- An element has no more characters than a name in a directory, and only those of the path. -/
theorem skipelem_name {path name rest : List UInt8} (h : skipelem path = some (name, rest)) :
    name.length ≤ DIRSIZ ∧ name ⊆ path ∧ rest ⊆ path := by
  unfold skipelem at h
  split at h
  · cases h
  · next c cs hpath =>
      have hsub : (c :: cs) ⊆ path := hpath ▸ (List.dropWhile_sublist _).subset
      cases h
      refine ⟨List.length_take_le _ _, fun x hx => hsub ?_, fun x hx => hsub ?_⟩
      · exact (List.takeWhile_sublist _).subset (List.take_subset _ _ hx)
      · exact (List.dropWhile_sublist _).subset ((List.dropWhile_sublist _).subset hx)

/-- `skipelem`, called until no element is left. -/
def skipelems (path : List UInt8) : List (List UInt8) :=
  match _h : skipelem path with
  | none => []
  | some (name, rest) => name :: skipelems rest
termination_by path.length
decreasing_by exact length_skipelem _h

/-- **Repeated calls of `skipelem`** yield the elements of the path in order. -/
theorem skipelems_eq (path : List UInt8) : skipelems path = elements path := by
  induction hn : path.length using Nat.strongRecOn generalizing path with
  | ind n ih =>
      rw [skipelems, elements_eq]
      split
      · next h => rw [h]
      · next name rest h =>
          rw [h]
          exact congrArg (name :: ·) (ih rest.length (hn ▸ length_skipelem h) rest rfl)

/-! ## Names -/

/-- Strings that differ in their first character differ. -/
theorem strncmp_of_ne {a b : List UInt8} (h : a.headD 0 ≠ b.headD 0) (n : Nat) :
    strncmp a b (n + 1) ≠ 0 := by
  have hval : (a.headD 0).toNat ≠ (b.headD 0).toNat := fun heq => h (UInt8.toNat_inj.mp heq)
  rw [strncmp, if_neg fun heq => h heq.2]
  omega

/-- `strncmp` compares the first `n` characters. -/
theorem strncmp_eq_zero_iff {a b : List UInt8} {n : Nat} (ha : 0 ∉ a) (hb : 0 ∉ b) :
    strncmp a b n = 0 ↔ a.take n = b.take n := by
  induction n generalizing a b with
  | zero => simp [strncmp]
  | succ n ih =>
      cases a with
      | nil =>
          cases b with
          | nil => simp [strncmp]
          | cons d b =>
              have hd : (0 : UInt8) ≠ d := List.ne_of_not_mem_cons hb
              exact iff_of_false (strncmp_of_ne (a := []) (b := d :: b) hd n) (by simp)
      | cons c a =>
          obtain ⟨hc, ha⟩ := List.ne_and_not_mem_of_not_mem_cons ha
          cases b with
          | nil => exact iff_of_false (strncmp_of_ne (a := c :: a) (b := []) hc.symm n) (by simp)
          | cons d b =>
              have htail : 0 ∉ b := List.not_mem_of_not_mem_cons hb
              by_cases hcd : c = d
              · subst hcd
                have hstep : strncmp (c :: a) (c :: b) (n + 1) = strncmp a b n :=
                  if_pos ⟨hc.symm, rfl⟩
                rw [hstep, ih ha htail, List.take_succ_cons, List.take_succ_cons]
                exact ⟨fun h => congrArg (c :: ·) h, fun h => (List.cons.inj h).2⟩
              · refine iff_of_false (strncmp_of_ne (a := c :: a) (b := d :: b) hcd n) fun h => hcd ?_
                rw [List.take_succ_cons, List.take_succ_cons] at h
                exact (List.cons.inj h).1

/-- The name in an entry has no zero character and at most `DIRSIZ` characters. -/
theorem nameOf_spec (bs : List UInt8) : 0 ∉ nameOf bs ∧ (nameOf bs).length ≤ DIRSIZ := by
  constructor
  · intro hmem
    simpa using List.mem_takeWhile_imp hmem
  · exact (List.takeWhile_sublist _).length_le.trans (List.length_take_le _ _)

/-- **`namecmp`** tells whether a path element is the name in an entry. -/
theorem namecmp_eq_zero_iff (h0 : 0 ∉ name) (hlen : name.length ≤ DIRSIZ) (b : Block) (k : Nat) :
    namecmp name (direntAt b k).name = 0 ↔ (direntAt b k).name = name := by
  obtain ⟨hb, hblen⟩ := nameOf_spec ((slice b.byte (DIRENT * k) DIRENT).drop 2)
  have hname : (direntAt b k).name = nameOf ((slice b.byte (DIRENT * k) DIRENT).drop 2) := rfl
  rw [hname, namecmp, strncmp_eq_zero_iff h0 hb, List.take_of_length_le hlen,
    List.take_of_length_le hblen]
  exact eq_comm

/-- A name that was filled up with zeros. -/
theorem takeWhile_takeD {l : List UInt8} {n : Nat} (h0 : 0 ∉ l) (hlen : l.length ≤ n) :
    ((l.takeD n 0).take n).takeWhile (· ≠ 0) = l := by
  induction n generalizing l with
  | zero => exact (List.eq_nil_of_length_eq_zero (Nat.le_zero.mp hlen)).symm
  | succ n ih =>
      cases l with
      | nil => rfl
      | cons c l =>
          obtain ⟨hc, hl⟩ := List.ne_and_not_mem_of_not_mem_cons h0
          simpa [hc.symm] using ih hl (Nat.le_of_succ_le_succ hlen)

/-- **`dirlookup` finds what `dirlink` has written** under exactly the names with the same first
`DIRSIZ` characters, with the low 16 bits of the number. -/
theorem dirent_roundtrip {a b : List UInt8} (ha : 0 ∉ a) (hb : 0 ∉ b) (i : Nat) :
    (direntOf (direntBytes ⟨i, b⟩)).inum = i % 65536 ∧
      (namecmp a (direntOf (direntBytes ⟨i, b⟩)).name = 0 ↔ a.take DIRSIZ = b.take DIRSIZ) := by
  obtain ⟨h0, hlen⟩ := nameOf_spec b
  have hfull : nameOf b = b.take DIRSIZ :=
    List.takeWhile_eq_self_iff.mpr fun c hc => by
      simpa using ne_of_mem_of_not_mem (List.mem_of_mem_take hc) hb
  have hname : (direntOf (direntBytes ⟨i, b⟩)).name = nameOf b := takeWhile_takeD h0 hlen
  refine ⟨le16_bytes16_append _ _, ?_⟩
  rw [hname, namecmp, strncmp_eq_zero_iff ha h0, hfull, List.take_take, Nat.min_self]

theorem dirent_roundtrip_a : namecmp [97] (direntOf (direntBytes ⟨65537, [97]⟩)).name = 0 :=
  (dirent_roundtrip (by decide) (by decide) 65537).2.mpr rfl

/-! ## Directories -/

/-- The number of blocks that `dirlookup` reads. -/
def dirBlocks (d : Dinode) : Nat := (d.size.toNat + (BSIZE - 1)) / BSIZE

/-- The entries in a directory block. -/
def blockEntries (b : Block) : List Dirent := (List.range (BSIZE / DIRENT)).map (direntAt b)

/-- The entries of a directory from block `bn` on. -/
def entriesFrom (disk : Disk) (d : Dinode) (n bn : Nat) : List Dirent :=
  (List.range' bn n).flatMap fun k => blockEntries (disk (blockNo disk d k))

/-- **The entries of a directory**, in use or not. -/
def entries (disk : Disk) (d : Dinode) : List Dirent := entriesFrom disk d (dirBlocks d) 0

/-- An entry in use with a given name. -/
def Dirent.Named (name : List UInt8) (e : Dirent) : Prop := e.inum ≠ 0 ∧ e.name = name

instance (name : List UInt8) : DecidablePred (Dirent.Named name) :=
  fun _ => inferInstanceAs (Decidable (_ ∧ _))

/-- The inode number under a name in a list of entries. -/
def numberIn (name : List UInt8) (es : List Dirent) : Option Nat :=
  (es.find? fun e => decide (e.Named name)).map Dirent.inum

theorem numberIn_append (name : List UInt8) (es es' : List Dirent) :
    numberIn name (es ++ es') = (numberIn name es).or (numberIn name es') := by
  rw [numberIn, List.find?_append, Option.map_or]
  rfl

/-- A number found is that of an entry in use. -/
theorem mem_of_numberIn {es : List Dirent} {j : Nat} (h : numberIn name es = some j) :
    ∃ e ∈ es, e.inum = j ∧ j ≠ 0 := by
  obtain ⟨e, hfind, rfl⟩ := Option.map_eq_some_iff.mp h
  have hnamed : e.Named name := by simpa using List.find?_some hfind
  exact ⟨e, List.mem_of_find?_eq_some hfind, rfl, hnamed.1⟩

/-- **The inner loop of `dirlookup`** finds the entry with the name. -/
theorem findEntry_eq (h0 : 0 ∉ name) (hlen : name.length ≤ DIRSIZ) (b : Block) (n k : Nat) :
    findEntry b name n k = (List.range' k n).find? fun i => decide ((direntAt b i).Named name) := by
  induction n generalizing k with
  | zero => rfl
  | succ n ih =>
      have hiff : (direntAt b k).inum ≠ 0 ∧ namecmp name (direntAt b k).name = 0 ↔
          (direntAt b k).Named name := and_congr_right' (namecmp_eq_zero_iff h0 hlen b k)
      rw [findEntry, List.range'_succ, List.find?_cons]
      by_cases hk : (direntAt b k).Named name
      · rw [if_pos (hiff.mpr hk), decide_eq_true hk]
      · rw [if_neg (hiff.not.mpr hk), decide_eq_false hk]
        exact ih (k + 1)

theorem numberIn_blockEntries (h0 : 0 ∉ name) (hlen : name.length ≤ DIRSIZ) (b : Block) :
    numberIn name (blockEntries b) =
      (findEntry b name (BSIZE / DIRENT) 0).map fun k => (direntAt b k).inum := by
  rw [findEntry_eq h0 hlen, numberIn, blockEntries, List.find?_map, List.range_eq_range',
    Option.map_map]
  rfl

end Fs

/-! ## Names in a state of the file system -/

open Lib Fs

/-- The inode that a slot of the cache stands for. -/
def Inode.contents (disk : Disk) (x : Inode) : Dinode :=
  if x.valid then x.d else dinodeAt (disk (IBLOCK x.inum)) x.inum

namespace FsState

/-- **The inode of a number**: the copy in the cache, if there is a valid one, or that on the
disk. -/
def inodeOf (s : FsState) (i : Nat) : Dinode :=
  match s.cached i with
  | some ip => Inode.contents s.disk (s.icache ip)
  | none => dinodeAt (s.disk (IBLOCK i)) i

/-- Whether an inode is a directory. -/
def IsDir (s : FsState) (i : Nat) : Prop := (s.inodeOf i).type = T_DIR

instance (s : FsState) : DecidablePred s.IsDir := fun _ => inferInstanceAs (Decidable (_ = _))

/-- **Directory lookup**: the inode under a name in a directory. -/
def lookup (s : FsState) (i : Nat) (name : List UInt8) : Option Nat :=
  if s.IsDir i then numberIn name (entries s.disk (s.inodeOf i)) else none

/-- **What a list of path elements names**: the left fold of directory lookup. -/
def resolve (s : FsState) (start : Nat) (names : List (List UInt8)) : Option Nat :=
  names.foldlM s.lookup start

/-- **The parent of what a list of path elements names**: all elements but the last lead to a
directory, and the last one is kept. -/
def resolveParent (s : FsState) (start : Nat) (names : List (List UInt8)) :
    Option (Nat × List UInt8) :=
  names.getLast?.bind fun name =>
    (s.resolve start names.dropLast).bind fun i => if s.IsDir i then some (i, name) else none

variable (s : FsState) (i : Nat) (name : List UInt8) (names : List (List UInt8))

theorem resolve_cons :
    s.resolve i (name :: names) = (s.lookup i name).bind fun j => s.resolve j names :=
  List.foldlM_cons ..

theorem resolve_append (names' : List (List UInt8)) :
    s.resolve i (names ++ names') = (s.resolve i names).bind fun j => s.resolve j names' :=
  List.foldlM_append ..

theorem resolveParent_single :
    s.resolveParent i [name] = if s.IsDir i then some (i, name) else none := rfl

theorem resolveParent_cons (hne : names ≠ []) :
    s.resolveParent i (name :: names) =
      (s.lookup i name).bind fun j => s.resolveParent j names := by
  obtain ⟨names, last, rfl⟩ := List.eq_nil_or_concat' names |>.resolve_left hne
  have hcons : name :: (names ++ [last]) = (name :: names) ++ [last] := rfl
  simp only [resolveParent, hcons, List.getLast?_concat, List.dropLast_concat, Option.bind_some,
    resolve_cons, Option.bind_assoc]

variable {s i}

/-- In what is no directory there is nothing. -/
theorem lookup_of_not_isDir (h : ¬ s.IsDir i) : s.lookup i name = none := if_neg h

theorem lookup_of_isDir (h : s.IsDir i) :
    s.lookup i name = numberIn name (entries s.disk (s.inodeOf i)) := if_pos h

/-- **The two modes agree**: a path with an element names what its last element names in the
parent. -/
theorem resolve_eq_lookup_parent {names : List (List UInt8)} (hne : names ≠ []) :
    s.resolve i names = (s.resolveParent i names).bind fun x => s.lookup x.1 x.2 := by
  obtain ⟨names, last, rfl⟩ := List.eq_nil_or_concat' names |>.resolve_left hne
  rw [resolve_append, resolveParent, List.getLast?_concat, List.dropLast_concat, Option.bind_some,
    Option.bind_assoc]
  refine congrArg (Option.bind (s.resolve i names)) (funext fun j => ?_)
  have hlast : s.resolve j [last] = s.lookup j last := by
    rw [resolve_cons]
    exact Option.bind_fun_some _
  rw [hlast]
  by_cases hj : s.IsDir j
  · rw [if_pos hj]
    rfl
  · rw [if_neg hj, lookup_of_not_isDir last hj]
    rfl

/-- **When a path names nothing**: some prefix of it leads to what is no directory, or to a
directory without the next element. -/
theorem resolve_eq_none_iff {names : List (List UInt8)} :
    s.resolve i names = none ↔ ∃ before name after j, names = before ++ name :: after ∧
      s.resolve i before = some j ∧
        (¬ s.IsDir j ∨ numberIn name (entries s.disk (s.inodeOf j)) = none) := by
  have hlookup (j : Nat) (name : List UInt8) : s.lookup j name = none ↔
      ¬ s.IsDir j ∨ numberIn name (entries s.disk (s.inodeOf j)) = none := by
    by_cases hj : s.IsDir j
    · rw [lookup_of_isDir name hj]
      exact (or_iff_right (not_not_intro hj)).symm
    · exact iff_of_true (lookup_of_not_isDir name hj) (.inl hj)
  constructor
  · intro h
    induction names generalizing i with
    | nil => cases h
    | cons name names ih =>
        rw [resolve_cons] at h
        cases hj : s.lookup i name with
        | none => exact ⟨[], name, names, i, rfl, rfl, (hlookup i name).mp hj⟩
        | some j =>
            rw [hj] at h
            obtain ⟨before, name', after, k, hnames, hk, hfail⟩ := ih h
            refine ⟨name :: before, name', after, k, by rw [hnames]; rfl, ?_, hfail⟩
            rw [resolve_cons, hj]
            exact hk
  · rintro ⟨before, name, after, j, rfl, hj, hfail⟩
    rw [resolve_append, hj, Option.bind_some, resolve_cons, (hlookup j name).mpr hfail]
    rfl

end FsState

end Xv6
