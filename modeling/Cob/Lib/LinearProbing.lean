import Mathlib.Data.Nat.ModEq

/-!
# Linear probing

A cyclic table of `n` slots in which the probe for a key begins at its home and looks at one slot
after the other. Entries are never removed.

* `Passed` — the probe has met entries with other keys so far;
* `Passed.lt` — while a slot is free, a probe that only met other keys has not gone around;
* `Clustered` — every entry lies where the probe for its key gets to;
* `Clustered.not_mem`, `Clustered.unique` — what a probe that ends at a free slot, or at an entry,
  says about the whole table;
* `Clustered.update` — filling the free slot where a probe ends keeps the table clustered.
-/

namespace LinearProbing

variable {κ β : Type*} {n : ℕ} {home : κ → ℕ} {slot : ℕ → Option (κ × β)} {k : κ} {v v' : β}
  {i j s t : ℕ}

/-- The slot that the probe for a key looks at after `t` steps. -/
def probe (n : ℕ) (home : κ → ℕ) (k : κ) (t : ℕ) : ℕ := (home k + t) % n

theorem probe_lt (hn : 0 < n) : probe n home k t < n := Nat.mod_lt _ hn

theorem probe_succ : probe n home k (t + 1) = (probe n home k t + 1) % n := by
  rw [probe, probe, Nat.mod_add_mod, Nat.add_assoc]

/-- A probe gets to every slot in less than `n` steps. -/
theorem exists_probe_eq (home : κ → ℕ) (k : κ) (hi : i < n) : ∃ t < n, probe n home k t = i := by
  have hn : 0 < n := Nat.zero_lt_of_lt hi
  refine ⟨(i + (n - home k % n)) % n, Nat.mod_lt _ hn, ?_⟩
  have hlt := Nat.mod_lt (home k) hn
  rw [probe, Nat.add_mod_mod, ← Nat.mod_add_mod]
  have hsum : home k % n + (i + (n - home k % n)) = i + n := by omega
  rw [hsum, Nat.add_mod_right, Nat.mod_eq_of_lt hi]

/-- The probe for a key has met entries with other keys in its first `t` steps. -/
def Passed (n : ℕ) (home : κ → ℕ) (slot : ℕ → Option (κ × β)) (k : κ) (t : ℕ) : Prop :=
  ∀ s < t, ∃ e, slot (probe n home k s) = some e ∧ e.1 ≠ k

theorem passed_zero : Passed n home slot k 0 := fun _ h => absurd h (Nat.not_lt_zero _)

/-- One more entry with another key. -/
theorem Passed.succ (h : Passed n home slot k t) {e : κ × β}
    (he : slot (probe n home k t) = some e) (hne : e.1 ≠ k) : Passed n home slot k (t + 1) := by
  intro s hs
  rcases Nat.lt_succ_iff_lt_or_eq.mp hs with hs | rfl
  · exact h s hs
  · exact ⟨e, he, hne⟩

/-- While a slot is free, the probe has not gone around. -/
theorem Passed.lt (h : Passed n home slot k t) (hfree : ∃ i < n, slot i = none) : t < n := by
  obtain ⟨i, hi, hnone⟩ := hfree
  obtain ⟨s, hs, rfl⟩ := exists_probe_eq home k hi
  by_contra hle
  obtain ⟨e, he, _⟩ := h s (by omega)
  rw [hnone] at he
  cases he

/-- Every entry lies where the probe for its key gets to, past entries with other keys. -/
def Clustered (n : ℕ) (home : κ → ℕ) (slot : ℕ → Option (κ × β)) : Prop :=
  ∀ i < n, ∀ e, slot i = some e → ∃ t, probe n home e.1 t = i ∧ Passed n home slot e.1 t

theorem clustered_none : Clustered n home fun _ => (none : Option (κ × β)) :=
  fun _ _ _ h => nomatch h

/-- Two probes for a key that have met other keys only, and end at a free slot or at the key, end at
the same slot. -/
theorem Passed.eq (hs : Passed n home slot k s) (ht : Passed n home slot k t)
    (hends : ∀ e, slot (probe n home k s) = some e → e.1 = k)
    (hendt : ∀ e, slot (probe n home k t) = some e → e.1 = k) : s = t := by
  rcases Nat.lt_trichotomy s t with hlt | rfl | hlt
  · obtain ⟨e, he, hne⟩ := ht s hlt
    exact absurd (hends e he) hne
  · rfl
  · obtain ⟨e, he, hne⟩ := hs t hlt
    exact absurd (hendt e he) hne

/-- A probe that ends at a free slot shows that the key is in no slot. -/
theorem Clustered.not_mem (hc : Clustered n home slot) (h : Passed n home slot k t)
    (hnone : slot (probe n home k t) = none) (hi : i < n) : slot i ≠ some (k, v) := by
  intro hmem
  obtain ⟨s, rfl, hs⟩ := hc i hi _ hmem
  have heq := hs.eq h (by simp [hmem]) (by simp [hnone])
  rw [heq, hnone] at hmem
  cases hmem

/-- A key is in one slot at most. -/
theorem Clustered.unique (hc : Clustered n home slot) (hi : i < n) (hj : j < n)
    (hk : slot i = some (k, v)) (hk' : slot j = some (k, v')) : i = j := by
  obtain ⟨s, rfl, hs⟩ := hc i hi _ hk
  obtain ⟨t, rfl, ht⟩ := hc j hj _ hk'
  rw [hs.eq ht (by simp [hk]) (by simp [hk'])]

/-- Filling the free slot where the probe for a key ends keeps the table clustered. -/
theorem Clustered.update (hc : Clustered n home slot) (h : Passed n home slot k t)
    (hnone : slot (probe n home k t) = none) :
    Clustered n home (Function.update slot (probe n home k t) (some (k, v))) := by
  -- the free slot is on no probe that has met entries only
  have hkeep : ∀ {k' s'}, Passed n home slot k' s' →
      Passed n home (Function.update slot (probe n home k t) (some (k, v))) k' s' := by
    intro k' s' hpassed s hs
    obtain ⟨e, he, hne⟩ := hpassed s hs
    refine ⟨e, ?_, hne⟩
    rw [Function.update_of_ne, he]
    intro heq
    rw [heq, hnone] at he
    cases he
  intro i hi e he
  by_cases heq : i = probe n home k t
  · subst heq
    rw [Function.update_self, Option.some.injEq] at he
    subst he
    exact ⟨t, rfl, hkeep h⟩
  · rw [Function.update_of_ne heq] at he
    obtain ⟨s, hs, hpassed⟩ := hc i hi e he
    exact ⟨s, hs, hkeep hpassed⟩

end LinearProbing
