import Mathlib.Data.Finset.Card
import Mathlib.Data.Finset.Range
import Mathlib.Data.Nat.ModEq

/-!
# Probe distances around a table

A table of `n` slots that is probed cyclically. `dist` is one plus the distance of an entry from
its home, and zero at an empty slot. Robin Hood hashing keeps it from growing by more than one from
a slot to the next.

* `steps` — the way around the table from one index to another;
* `Ordered` — the order on neighbours, and what it says about the whole way of a probe;
* `le_card_occupied` — a probe over occupied slots is no longer than there are entries.
-/

namespace RobinHood

variable {n a b d e i : ℕ}

/-! ### Going around -/

/-- The steps from index `a` to index `b`, going up and around. -/
def steps (n a b : ℕ) : ℕ := (b + n - a) % n

theorem steps_lt (hn : 0 < n) : steps n a b < n := Nat.mod_lt _ hn

/-- The number of steps leads from `a` to `b`, and no other one below `n` does. -/
theorem steps_eq_iff (ha : a < n) (hb : b < n) (hd : d < n) :
    steps n a b = d ↔ (a + d) % n = b := by
  have hcases : ∀ m < 2 * n, m % n = if m < n then m else m - n := by
    intro m hm
    split_ifs with h
    · exact Nat.mod_eq_of_lt h
    · rw [Nat.mod_eq_sub_mod (Nat.le_of_not_lt h), Nat.mod_eq_of_lt (by omega)]
  rw [steps, hcases _ (by omega), hcases _ (by omega)]
  split_ifs <;> omega

/-- A step brings the target nearer. -/
theorem steps_succ (ha : a < n) (hb : b < n) (hne : a ≠ b) :
    steps n ((a + 1) % n) b + 1 = steps n a b := by
  have hpos : 0 < steps n a b := by
    by_contra hzero
    have heq := (steps_eq_iff ha hb (by omega)).mp (Nat.eq_zero_of_not_pos hzero)
    rw [Nat.add_zero, Nat.mod_eq_of_lt ha] at heq
    exact hne heq
  have hlt : steps n a b < n := steps_lt (by omega)
  have hreach := (steps_eq_iff ha hb hlt).mp rfl
  have hnext : steps n ((a + 1) % n) b = steps n a b - 1 := by
    have hsum : a + 1 + (steps n a b - 1) = a + steps n a b := by omega
    rw [steps_eq_iff (Nat.mod_lt _ (by omega)) hb (by omega), Nat.mod_add_mod, hsum, hreach]
  omega

/-! ### The order -/

/-- The distance grows by one at most from a slot to the next. -/
def Ordered (n : ℕ) (dist : ℕ → ℕ) : Prop := ∀ i, dist ((i + 1) % n) ≤ dist (i % n) + 1

/-- The indices of the entries. -/
def occupied (n : ℕ) (dist : ℕ → ℕ) : Finset ℕ := (Finset.range n).filter (0 < dist ·)

section Order

variable {dist : ℕ → ℕ} {home : ℕ}

theorem Ordered.add (h : Ordered n dist) (i j : ℕ) : dist ((i + j) % n) ≤ dist (i % n) + j := by
  induction j with
  | zero => exact le_rfl
  | succ j ih => exact (h (i + j)).trans (Nat.add_le_add_right ih 1)

/-- The slots on the way to an entry have at least the distance the probe has there. -/
theorem Ordered.le_of_probe (h : Ordered n dist) {D : ℕ} (hD : dist ((home + (D - 1)) % n) = D)
    (hpos : 1 ≤ d) (hle : d ≤ D) : d ≤ dist ((home + (d - 1)) % n) := by
  have hway := h.add (home + (d - 1)) (D - d)
  have hsum : home + (d - 1) + (D - d) = home + (D - 1) := by omega
  rw [hsum, hD] at hway
  omega

/-- A probe over occupied slots has not passed more of them than there are. -/
theorem le_card_occupied (hn : 0 < n) (hd : d ≤ n) (h : ∀ j < d, 0 < dist ((i + j) % n)) :
    d ≤ (occupied n dist).card := by
  have hinj : Set.InjOn (fun j => (i + j) % n) (Finset.range d) := by
    intro j hj k hk heq
    have hj' := Finset.mem_range.mp (Finset.mem_coe.mp hj)
    have hk' := Finset.mem_range.mp (Finset.mem_coe.mp hk)
    have hmod : j % n = k % n := Nat.ModEq.add_left_cancel' i heq
    rwa [Nat.mod_eq_of_lt (by omega), Nat.mod_eq_of_lt (by omega)] at hmod
  calc d = (Finset.range d).card := (Finset.card_range d).symm
    _ = ((Finset.range d).image fun j => (i + j) % n).card := (Finset.card_image_of_injOn hinj).symm
    _ ≤ (occupied n dist).card := by
      refine Finset.card_le_card fun x hx => ?_
      obtain ⟨j, hj, rfl⟩ := Finset.mem_image.mp hx
      exact Finset.mem_filter.mpr
        ⟨Finset.mem_range.mpr (Nat.mod_lt _ hn), h j (Finset.mem_range.mp hj)⟩

theorem card_occupied_le : (occupied n dist).card ≤ n := by
  calc (occupied n dist).card ≤ (Finset.range n).card := Finset.card_filter_le _ _
    _ = n := Finset.card_range n

/-- No entry is farther from its home than there are entries. -/
theorem Ordered.dist_le_card (h : Ordered n dist) (hn : 0 < n) (home : ℕ) {D : ℕ}
    (hD : dist ((home + (D - 1)) % n) = D) (hle : D ≤ n) : D ≤ (occupied n dist).card := by
  refine le_card_occupied (i := home) hn hle fun j hj => ?_
  have hway := h.le_of_probe hD (d := j + 1) (Nat.le_add_left _ _) hj
  rw [Nat.add_sub_cancel] at hway
  omega

end Order

end RobinHood
