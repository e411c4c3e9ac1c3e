import Mathlib.Data.List.Basic
import Mathlib.Tactic.Common

/-! # The regular expressions of `grep`

`match`, `matchhere` and `matchstar` of `grep.c`. A C string is the list of its bytes, so that the
empty list stands for a pointer to the terminator. The meaning of a pattern is given apart from the
matcher: the pattern is read into items, and the items say which strings they spell. -/

namespace Xv6.Grep

/-- The character `^`. -/
def CARET : UInt8 := 94

/-- The character `.`. -/
def DOT : UInt8 := 46

/-- The character `*`. -/
def STAR : UInt8 := 42

/-- The character `$`. -/
def DOLLAR : UInt8 := 36

/-! ## The matcher -/

/-- **`matchstar`**: search for `c*re` at the beginning of the text. Its calls of `matchhere` are all
for the pattern `re` behind the star, which `here` searches for. -/
def matchstar (here : List UInt8 → Bool) (c : UInt8) : List UInt8 → Bool
  | [] => here []
  | t :: text =>
    if here (t :: text) then true
    else if t = c ∨ c = DOT then matchstar here c text
    else false

/-- The last test of `matchhere`, where `here` searches for the pattern behind the character. -/
def oneChar (here : List UInt8 → Bool) (c : UInt8) : List UInt8 → Bool
  | [] => false
  | t :: text => if c = DOT ∨ c = t then here text else false

/-- **`matchhere`**: search for `re` at the beginning of `text`. -/
def matchhere : List UInt8 → List UInt8 → Bool
  | [], _ => true
  | [c], text => if c = DOLLAR then text.isEmpty else oneChar (matchhere []) c text
  | c :: d :: re, text =>
    if d = STAR then matchstar (matchhere re) c text else oneChar (matchhere (d :: re)) c text

/-- The loop of `match`: try every position of the text, its end among them. -/
def matchLoop (re : List UInt8) : List UInt8 → Bool
  | [] => matchhere re []
  | t :: text => if matchhere re (t :: text) then true else matchLoop re text

/-- **`match`**: search for `re` anywhere in `text`, after a `^` at its beginning only. -/
def matchRe (re text : List UInt8) : Bool :=
  match re with
  | [] => matchLoop [] text
  | c :: re' => if c = CARET then matchhere re' text else matchLoop (c :: re') text

/-! ## The meaning of a pattern -/

/-- **An item of a pattern**. -/
inductive Item where
  /-- `x*`: any number of characters `x`, of any characters if `x` is the dot. -/
  | many (x : UInt8)
  /-- `$` at the end of the pattern. -/
  | last
  /-- `.` -/
  | any
  /-- Any other character. -/
  | lit (x : UInt8)
  deriving DecidableEq

/-- One item from a character that no star follows and that is not a `$` at the end. -/
def single (c : UInt8) : Item := if c = DOT then .any else .lit c

/-- **The items of a pattern**, read from left to right. -/
def items : List UInt8 → List Item
  | [] => []
  | [c] => if c = DOLLAR then [.last] else [single c]
  | c :: d :: re => if d = STAR then .many c :: items re else single c :: items (d :: re)

/-- **The language of a list of items**: the strings that it spells where `after` follows. -/
def Spells : List Item → List UInt8 → List UInt8 → Prop
  | [], s, _ => s = []
  | .many x :: is, s, after =>
    ∃ u v, s = u ++ v ∧ (∀ c ∈ u, c = x ∨ x = DOT) ∧ Spells is v after
  | .last :: is, s, after => s ++ after = [] ∧ Spells is s after
  | .any :: is, s, after => ∃ c v, s = c :: v ∧ Spells is v after
  | .lit x :: is, s, after => ∃ v, s = x :: v ∧ Spells is v after

/-- A string that the items spell starts at the beginning of `text`. -/
def StartsAt (is : List Item) (text : List UInt8) : Prop :=
  ∃ s after, text = s ++ after ∧ Spells is s after

/-- **The meaning of a pattern**: a text has a position, its end among them, where a string of the
pattern's language starts; after a leading `^` this is the first position. -/
def Matches (re text : List UInt8) : Prop :=
  match re with
  | [] => ∃ before here, text = before ++ here ∧ StartsAt (items []) here
  | c :: re' =>
    if c = CARET then StartsAt (items re') text
    else ∃ before here, text = before ++ here ∧ StartsAt (items (c :: re')) here

/-! ## How the items of a pattern start in a text -/

/-- No item is left. -/
theorem startsAt_nil (text : List UInt8) : StartsAt [] text :=
  ⟨[], text, rfl, rfl⟩

variable {text : List UInt8}

/-- A `$` at the end of the pattern. -/
theorem startsAt_last_iff : StartsAt [.last] text ↔ text = [] := by
  constructor
  · rintro ⟨s, after, rfl, h, -⟩
    exact h
  · rintro rfl
    exact ⟨[], [], rfl, rfl, rfl⟩

/-- A character that stands for itself or for any one. -/
theorem startsAt_single_iff {c : UInt8} {is : List Item} :
    StartsAt (single c :: is) text ↔
      ∃ t rest, text = t :: rest ∧ (c = DOT ∨ c = t) ∧ StartsAt is rest := by
  unfold single
  split
  · next hc =>
    constructor
    · rintro ⟨_, after, rfl, t, v, rfl, h⟩
      exact ⟨t, v ++ after, rfl, .inl hc, v, after, rfl, h⟩
    · rintro ⟨t, _, rfl, -, v, after, rfl, h⟩
      exact ⟨t :: v, after, rfl, t, v, rfl, h⟩
  · next hc =>
    constructor
    · rintro ⟨_, after, rfl, v, rfl, h⟩
      exact ⟨c, v ++ after, rfl, .inr rfl, v, after, rfl, h⟩
    · rintro ⟨t, _, rfl, ht, v, after, rfl, h⟩
      obtain rfl : c = t := ht.resolve_left hc
      exact ⟨c :: v, after, rfl, v, rfl, h⟩

/-- A starred character: the rest of the pattern starts behind some number of characters. -/
theorem startsAt_many_iff {x : UInt8} {is : List Item} :
    StartsAt (.many x :: is) text ↔
      ∃ u rest, text = u ++ rest ∧ (∀ c ∈ u, c = x ∨ x = DOT) ∧ StartsAt is rest := by
  constructor
  · rintro ⟨_, after, rfl, u, v, rfl, hu, h⟩
    exact ⟨u, v ++ after, List.append_assoc .., hu, v, after, rfl, h⟩
  · rintro ⟨u, _, rfl, hu, v, after, rfl, h⟩
    exact ⟨u ++ v, after, (List.append_assoc ..).symm, u, v, rfl, hu, h⟩

/-! ## The matcher decides the meaning -/

/-- **`matchstar` tries every number of characters**, the smallest first. -/
theorem matchstar_iff {here : List UInt8 → Bool} {c : UInt8} :
    matchstar here c text = true ↔
      ∃ u rest, text = u ++ rest ∧ (∀ t ∈ u, t = c ∨ c = DOT) ∧ here rest = true := by
  induction text with
  | nil =>
      constructor
      · intro h
        exact ⟨[], [], rfl, fun _ ht => absurd ht List.not_mem_nil, h⟩
      · rintro ⟨u, rest, h, -, hr⟩
        obtain ⟨rfl, rfl⟩ := List.append_eq_nil_iff.mp h.symm
        exact hr
  | cons t text ih =>
      rw [matchstar]
      by_cases h : here (t :: text) = true
      · rw [if_pos h]
        exact ⟨fun _ => ⟨[], t :: text, rfl, fun _ ht => absurd ht List.not_mem_nil, h⟩,
          fun _ => rfl⟩
      -- the rest of the pattern does not start here, so that the first character is taken
      rw [if_neg h]
      constructor
      · intro hs
        split at hs
        · next ht =>
          obtain ⟨u, rest, rfl, hu, hr⟩ := ih.mp hs
          exact ⟨t :: u, rest, rfl, List.forall_mem_cons.mpr ⟨ht, hu⟩, hr⟩
        · cases hs
      · rintro ⟨u, rest, hut, hu, hr⟩
        cases u with
        | nil =>
            rw [List.nil_append] at hut
            exact absurd (hut ▸ hr) h
        | cons a u =>
            obtain ⟨rfl, rfl⟩ := List.cons.inj hut
            obtain ⟨ha, hu⟩ := List.forall_mem_cons.mp hu
            rw [if_pos ha]
            exact ih.mpr ⟨u, rest, rfl, hu, hr⟩

/-- A character that stands for itself or for any one takes one character of the text. -/
theorem oneChar_iff {here : List UInt8 → Bool} {c : UInt8} :
    oneChar here c text = true ↔
      ∃ t rest, text = t :: rest ∧ (c = DOT ∨ c = t) ∧ here rest = true := by
  cases text with
  | nil => simp [oneChar]
  | cons t text =>
      rw [oneChar]
      constructor
      · intro h
        split at h
        · next hc => exact ⟨t, text, rfl, hc, h⟩
        · cases h
      · rintro ⟨_, _, ht, hc, h⟩
        obtain ⟨rfl, rfl⟩ := List.cons.inj ht
        rwa [if_pos hc]

/-- **`matchhere` decides** whether the pattern starts at the beginning of the text. -/
theorem matchhere_iff (re text : List UInt8) :
    matchhere re text = true ↔ StartsAt (items re) text := by
  -- the recursion of `matchhere` is the one that reads the items
  induction re using items.induct generalizing text with
  | case1 => exact ⟨fun _ => startsAt_nil text, fun _ => by rw [matchhere]⟩
  | case2 =>
      rw [matchhere, items, if_pos rfl, if_pos rfl, startsAt_last_iff, List.isEmpty_iff]
  | case3 c hc =>
      rw [matchhere, items, if_neg hc, if_neg hc, oneChar_iff, startsAt_single_iff]
      simp only [matchhere, startsAt_nil]
  | case4 c re ih =>
      rw [matchhere, items, if_pos rfl, if_pos rfl, matchstar_iff, startsAt_many_iff]
      simp only [ih]
  | case5 c d re hd ih =>
      rw [matchhere, items, if_neg hd, if_neg hd, oneChar_iff, startsAt_single_iff]
      simp only [ih]

/-- **The loop of `match` tries every position**. -/
theorem matchLoop_iff (re text : List UInt8) :
    matchLoop re text = true ↔
      ∃ before here, text = before ++ here ∧ StartsAt (items re) here := by
  induction text with
  | nil =>
      rw [matchLoop, matchhere_iff]
      constructor
      · intro h
        exact ⟨[], [], rfl, h⟩
      · rintro ⟨before, here, hbh, h⟩
        obtain ⟨rfl, rfl⟩ := List.append_eq_nil_iff.mp hbh.symm
        exact h
  | cons t text ih =>
      rw [matchLoop]
      constructor
      · intro h
        split at h
        · next ht => exact ⟨[], t :: text, rfl, (matchhere_iff ..).mp ht⟩
        · obtain ⟨before, here, rfl, hh⟩ := ih.mp h
          exact ⟨t :: before, here, rfl, hh⟩
      · rintro ⟨before, here, hbh, h⟩
        cases before with
        | nil =>
            rw [List.nil_append] at hbh
            rw [if_pos ((matchhere_iff ..).mpr (hbh ▸ h))]
        | cons b before =>
            obtain ⟨rfl, rfl⟩ := List.cons.inj hbh
            rw [ih.mpr ⟨before, here, rfl, h⟩, ite_self]

/-- **The matcher is sound and complete**: `match` returns 1 on a text if a position of it starts a
string of the pattern's language, and 0 otherwise. -/
theorem matchRe_correct (re text : List UInt8) : matchRe re text = true ↔ Matches re text := by
  unfold matchRe Matches
  cases re with
  | nil => exact matchLoop_iff [] text
  | cons c re =>
      by_cases hc : c = CARET
      · simp only [if_pos hc]
        exact matchhere_iff re text
      · simp only [if_neg hc]
        exact matchLoop_iff (c :: re) text

end Xv6.Grep
