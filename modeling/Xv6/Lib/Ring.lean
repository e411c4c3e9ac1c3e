import Mathlib.Data.Nat.ModEq
import Mathlib.Data.List.Basic

/-! # Ring buffers with wrapping counters

A ring of `N` places with two counters of `w` bits: the number of elements ever taken out and the
number ever put in, both modulo `2 ^ w`. An element lies at its number modulo `N`. If `N` divides
`2 ^ w` and is smaller, the counters may wrap around: what the ring holds is still told from them. -/

namespace Xv6.Lib

/-- **A ring** of `N` places. -/
structure Ring (α : Type) (w N : Nat) where
  data : Nat → α
  /-- The number of elements taken out. -/
  nread : BitVec w
  /-- The number of elements put in. -/
  nwrite : BitVec w

namespace Ring

variable {α : Type} {w N : Nat}

/-- All elements have been taken out. -/
def Empty (r : Ring α w N) : Prop := r.nread = r.nwrite

/-- All places are taken. -/
def Full (r : Ring α w N) : Prop := r.nwrite = r.nread + BitVec.ofNat w N

instance (r : Ring α w N) : Decidable r.Empty := inferInstanceAs (Decidable (_ = _))

instance (r : Ring α w N) : Decidable r.Full := inferInstanceAs (Decidable (_ = _))

/-- Put an element in. -/
def push (r : Ring α w N) (x : α) : Ring α w N :=
  { r with data := Function.update r.data (r.nwrite.toNat % N) x, nwrite := r.nwrite + 1#w }

/-- The element to be taken out next. -/
def front (r : Ring α w N) : α := r.data (r.nread.toNat % N)

/-- Take an element out. -/
def pop (r : Ring α w N) : Ring α w N := { r with nread := r.nread + 1#w }

/-- The number of elements. -/
def count (r : Ring α w N) : Nat := (r.nwrite - r.nread).toNat

/-- **The elements** in the order in which they were put in. -/
def content (r : Ring α w N) : List α :=
  (List.range r.count).map fun k => r.data ((r.nread.toNat + k) % N)

@[simp] theorem length_content (r : Ring α w N) : r.content.length = r.count := by
  simp [content]

variable {r : Ring α w N} {data : Nat → α} {a b c : BitVec w}

theorem empty_iff : r.Empty ↔ r.count = 0 := by
  unfold Empty count
  rw [BitVec.toNat_eq, BitVec.toNat_sub]
  have hr := r.nread.isLt
  have hw := r.nwrite.isLt
  by_cases hle : r.nread.toNat ≤ r.nwrite.toNat
  · rw [show 2 ^ w - r.nread.toNat + r.nwrite.toNat =
      2 ^ w + (r.nwrite.toNat - r.nread.toNat) by omega, Nat.add_mod_left, Nat.mod_eq_of_lt (by omega)]
    omega
  · rw [Nat.mod_eq_of_lt (by omega)]
    omega

/-- The counter of elements put in is ahead by the number of elements. -/
theorem nwrite_eq (r : Ring α w N) : r.nwrite.toNat = (r.nread.toNat + r.count) % 2 ^ w := by
  unfold count
  rw [← BitVec.toNat_add]
  congr 1
  rw [BitVec.add_comm, BitVec.sub_add_cancel]

theorem full_iff (hN : N < 2 ^ w) : r.Full ↔ r.count = N := by
  unfold Full count
  constructor
  · intro h
    rw [h, BitVec.add_comm, BitVec.add_sub_cancel, BitVec.toNat_ofNat, Nat.mod_eq_of_lt hN]
  · intro h
    have hsub : BitVec.ofNat w N = r.nwrite - r.nread := by
      rw [BitVec.toNat_eq, BitVec.toNat_ofNat, Nat.mod_eq_of_lt hN, h]
    rw [hsub, BitVec.add_comm, BitVec.sub_add_cancel]

theorem count_push {x : α} (h : r.count + 1 < 2 ^ w) : (r.push x).count = r.count + 1 := by
  have hone : (1#w).toNat = 1 := by
    rw [BitVec.toNat_ofNat, Nat.mod_eq_of_lt (by omega)]
  have hsub : r.nwrite + 1#w - r.nread = r.nwrite - r.nread + 1#w := by
    rw [BitVec.sub_eq_add_neg, BitVec.sub_eq_add_neg, BitVec.add_assoc, BitVec.add_comm 1#w,
      BitVec.add_assoc]
  show (r.nwrite + 1#w - r.nread).toNat = _
  rw [hsub, BitVec.toNat_add, hone]
  exact Nat.mod_eq_of_lt h

theorem count_pop (h : ¬ r.Empty) : (r.pop).count + 1 = r.count := by
  have hpos : 0 < r.count := Nat.pos_of_ne_zero fun h0 => h (empty_iff.mpr h0)
  have hlt : r.count < 2 ^ w := (r.nwrite - r.nread).isLt
  have hone : (1#w).toNat = 1 := by
    rw [BitVec.toNat_ofNat, Nat.mod_eq_of_lt (by omega)]
  have hsub : r.nwrite - (r.nread + 1#w) = r.nwrite - r.nread - 1#w := by
    rw [BitVec.sub_eq_add_neg, BitVec.sub_eq_add_neg, BitVec.sub_eq_add_neg, BitVec.neg_add,
      BitVec.sub_eq_add_neg, BitVec.add_assoc]
  have hcount : (r.pop).count = (r.nwrite - r.nread - 1#w).toNat := by
    rw [← hsub]
    rfl
  rw [hcount, BitVec.toNat_sub, hone]
  unfold count at hpos hlt ⊢
  rw [show 2 ^ w - 1 + (r.nwrite - r.nread).toNat = 2 ^ w + ((r.nwrite - r.nread).toNat - 1) by omega,
    Nat.add_mod_left, Nat.mod_eq_of_lt (by omega)]
  omega

/-- Two places of one ring are different. -/
theorem place_ne {a k c : Nat} (hk : k < c) (hc : c < N) : (a + k) % N ≠ (a + c) % N := by
  intro h
  have hdvd : N ∣ (a + c) - (a + k) := (Nat.modEq_iff_dvd' (by omega)).mp h
  have := Nat.le_of_dvd (by omega) hdvd
  omega

/-- **Putting in.** -/
theorem content_push (hdvd : N ∣ 2 ^ w) (hN : N < 2 ^ w) (hle : r.count ≤ N) (h : ¬ r.Full)
    (x : α) : (r.push x).content = r.content ++ [x] := by
  have hlt : r.count < N := lt_of_le_of_ne hle fun heq => h ((full_iff hN).mpr heq)
  have hplace : r.nwrite.toNat % N = (r.nread.toNat + r.count) % N := by
    rw [nwrite_eq, Nat.mod_mod_of_dvd _ hdvd]
  unfold content
  rw [count_push (by omega), List.range_succ, List.map_append, List.map_singleton]
  congr 1
  · refine List.map_congr_left fun k hk => ?_
    show Function.update r.data _ x _ = _
    rw [hplace]
    exact Function.update_of_ne (place_ne (List.mem_range.mp hk) hlt) ..
  · show [Function.update r.data _ x _] = _
    rw [hplace]
    exact congrArg (fun y => [y]) (Function.update_self ..)

/-- **Taking out.** -/
theorem content_pop (hdvd : N ∣ 2 ^ w) (h : ¬ r.Empty) :
    r.content = r.front :: (r.pop).content := by
  have hplace : ∀ k, ((r.nread + 1#w).toNat + k) % N = (r.nread.toNat + (k + 1)) % N := by
    intro k
    have hone : (r.nread + 1#w).toNat % N = (r.nread.toNat + 1) % N := by
      rw [BitVec.toNat_add, Nat.mod_mod_of_dvd _ hdvd, BitVec.toNat_ofNat, Nat.add_mod,
        Nat.mod_mod_of_dvd _ hdvd, ← Nat.add_mod]
    rw [Nat.add_mod, hone, ← Nat.add_mod]
    congr 1
    omega
  unfold content
  rw [← count_pop h, List.range_succ_eq_map, List.map_cons, List.map_map]
  congr 1
  refine List.map_congr_left fun k _ => ?_
  show r.data _ = r.data _
  rw [show ((r.pop).nread.toNat + k) % N = ((r.nread + 1#w).toNat + k) % N from rfl, hplace]

/-! ## Cutting a ring in two -/

/-- Take back the element put in last. -/
def unpush (r : Ring α w N) : Ring α w N := { r with nwrite := r.nwrite - 1#w }

theorem count_cut (hle : (b - a).toNat ≤ (c - a).toNat) :
    (⟨data, a, c⟩ : Ring α w N).count =
      (⟨data, a, b⟩ : Ring α w N).count + (⟨data, b, c⟩ : Ring α w N).count := by
  have hsub : c - b = (c - a) - (b - a) := by grind
  unfold count
  rw [hsub, BitVec.toNat_sub_of_le (BitVec.le_def.mpr hle), Nat.add_sub_cancel' hle]

/-- **A ring falls into two** at a counter between its own. -/
theorem content_cut (hdvd : N ∣ 2 ^ w) (hle : (b - a).toNat ≤ (c - a).toNat) :
    (⟨data, a, c⟩ : Ring α w N).content =
      (⟨data, a, b⟩ : Ring α w N).content ++ (⟨data, b, c⟩ : Ring α w N).content := by
  have hplace : ∀ k, (b.toNat + k) % N =
      (a.toNat + ((⟨data, a, b⟩ : Ring α w N).count + k)) % N := by
    intro k
    have hb := (⟨data, a, b⟩ : Ring α w N).nwrite_eq
    rw [← Nat.add_assoc, Nat.add_mod, show b.toNat = _ from hb, Nat.mod_mod_of_dvd _ hdvd,
      ← Nat.add_mod]
  unfold content
  rw [count_cut hle, List.range_add, List.map_append, List.map_map]
  congr 1
  refine List.map_congr_left fun k _ => ?_
  show data _ = data _
  rw [← hplace]

/-- Storing an element behind a ring leaves its contents. -/
theorem content_store (hdvd : N ∣ 2 ^ w) (hle : (b - a).toNat ≤ (c - a).toNat)
    (hlt : (c - a).toNat < N) (x : α) :
    (⟨Function.update data (c.toNat % N) x, a, b⟩ : Ring α w N).content =
      (⟨data, a, b⟩ : Ring α w N).content := by
  have hc : c.toNat % N = (a.toNat + (c - a).toNat) % N := by
    have h := (⟨data, a, c⟩ : Ring α w N).nwrite_eq
    rw [show c.toNat = _ from h, Nat.mod_mod_of_dvd _ hdvd]
    rfl
  refine List.map_congr_left fun k hk => ?_
  have hk' : k < (c - a).toNat := lt_of_lt_of_le (List.mem_range.mp hk) hle
  show Function.update data _ x _ = data _
  rw [hc]
  exact Function.update_of_ne (place_ne hk' hlt) ..

theorem count_unpush (h : ¬ r.Empty) : (r.unpush).count + 1 = r.count := by
  have hlt : r.count < 2 ^ w := (r.nwrite - r.nread).isLt
  have hpos : 0 < r.count := Nat.pos_of_ne_zero fun h0 => h (empty_iff.mpr h0)
  have hsub : r.nwrite - 1#w - r.nread = r.nwrite - r.nread - 1#w := by grind
  have hone : (1#w).toNat = 1 := by
    rw [BitVec.toNat_ofNat, Nat.mod_eq_of_lt (by omega)]
  show (r.nwrite - 1#w - r.nread).toNat + 1 = _
  rw [hsub, BitVec.toNat_sub_of_le (by rw [BitVec.le_def, hone]; exact hpos), hone]
  exact Nat.sub_add_cancel hpos

/-- **Taking back.** -/
theorem content_unpush (h : ¬ r.Empty) : (r.unpush).content = r.content.dropLast := by
  have hcount := count_unpush h
  unfold content
  rw [← hcount, List.range_succ, List.map_append, List.map_singleton, List.dropLast_concat]
  rfl

/-- The element that taking back would remove. -/
theorem last_mem_content (hdvd : N ∣ 2 ^ w) (h : ¬ r.Empty) :
    r.data ((r.nwrite - 1#w).toNat % N) ∈ r.content := by
  have hcount := count_unpush h
  refine List.mem_map.mpr ⟨(r.unpush).count, List.mem_range.mpr (by omega), ?_⟩
  have hlast := (r.unpush).nwrite_eq
  rw [show r.nwrite - 1#w = (r.unpush).nwrite from rfl, hlast, Nat.mod_mod_of_dvd _ hdvd]
  rfl

end Ring

end Xv6.Lib
