import Cob.Lib.Machine
import Mathlib.Algebra.Group.Nat.Defs
import Mathlib.Order.Monotone.Basic

/-!
# Potentials of a machine

A potential is a number that no step increases. If every step of some kind decreases it, a run
makes no more steps of that kind than the potential it starts with, and an endless run makes none
from some point on.

The module introduces:

* `Run.countP_add_le` — how many steps of a kind a run can make;
* `Endless` — the runs that go on forever, with the moves made;
* `FairTo`, `Fair` — one participant, or each, is not passed over forever while it can move;
* `Endless.eventually_not` — the steps of a kind come to an end;
* `Endless.elim` — a potential that every late step decreases rules an endless run out;
* `FairTo.elim` — so does one that every late step of a participant decreases that can always move,
  if the others do not increase it.
-/

namespace Machine

variable {σ α ι : Type*} {M : Machine σ α} {Φ : σ → ℕ} {p : σ × α → Bool}

/-- The number of steps of a kind is bounded by the potential used up. -/
theorem Run.countP_add_le
    (next : ∀ s a s', M.Reachable s → M.step s a = some s' →
      Φ s' + (if p (s, a) then 1 else 0) ≤ Φ s)
    {tr : List (σ × α)} {s : σ} (h : M.Run tr s) :
    ∃ s₀, M.init s₀ ∧ tr.countP p + Φ s ≤ Φ s₀ := by
  induction h with
  | @start s h0 => exact ⟨s, h0, by simp⟩
  | @move tr s s' a hr hs ih =>
    obtain ⟨s₀, hinit, hle⟩ := ih
    have hstep := next s a s' hr.reachable hs
    refine ⟨s₀, hinit, ?_⟩
    rw [List.countP_cons]
    omega

/-- A run that goes on forever: the states it passes through and the moves made in them. -/
structure Endless (M : Machine σ α) (f : ℕ → σ × α) : Prop where
  init : M.init (f 0).1
  step : ∀ n, M.step (f n).1 (f n).2 = some (f (n + 1)).1

/-- The participant `i` is not passed over forever while it can move: at some later point it
moves, or it cannot. `actor` says whose move an action is. -/
def FairTo (M : Machine σ α) (actor : α → ι) (i : ι) (f : ℕ → σ × α) : Prop :=
  ∀ n, ∃ m, n ≤ m ∧ (actor (f m).2 = i ∨ ∀ a, actor a = i → M.step (f m).1 a = none)

/-- No participant that can move is passed over forever. -/
def Fair (M : Machine σ α) (actor : α → ι) (f : ℕ → σ × α) : Prop := ∀ i, M.FairTo actor i f

namespace Endless

variable {f : ℕ → σ × α}

/-- The states of an endless run are reachable. -/
theorem reachable (h : M.Endless f) (n : ℕ) : M.Reachable (f n).1 := by
  induction n with
  | zero => exact .init h.init
  | succ n ih => exact ih.step (h.step n)

/-- No step of an endless run increases a potential. -/
theorem antitone
    (next : ∀ s a s', M.Reachable s → M.step s a = some s' →
      Φ s' + (if p (s, a) then 1 else 0) ≤ Φ s)
    (h : M.Endless f) : Antitone fun n => Φ (f n).1 := by
  refine antitone_nat_of_succ_le fun n => ?_
  have hstep := next _ _ _ (h.reachable n) (h.step n)
  omega

/-- The steps that decrease a potential come to an end. -/
theorem eventually_not
    (next : ∀ s a s', M.Reachable s → M.step s a = some s' →
      Φ s' + (if p (s, a) then 1 else 0) ≤ Φ s)
    (h : M.Endless f) : ∃ n, ∀ m, n ≤ m → p (f m) = false := by
  suffices hfrom : ∀ k n, Φ (f n).1 = k → ∃ n, ∀ m, n ≤ m → p (f m) = false from
    hfrom _ 0 rfl
  intro k
  induction k using Nat.strong_induction_on with
  | h k ih =>
    intro n hn
    by_cases hmore : ∃ m, n ≤ m ∧ p (f m) = true
    · -- another such step uses up some of the potential
      obtain ⟨m, hnm, hp⟩ := hmore
      have hstep := next _ _ _ (h.reachable m) (h.step m)
      have hle : Φ (f m).1 ≤ Φ (f n).1 := h.antitone next hnm
      rw [if_pos hp] at hstep
      exact ih (Φ (f (m + 1)).1) (by omega) (m + 1) rfl
    · refine ⟨n, fun m hnm => ?_⟩
      by_contra hp
      exact hmore ⟨m, hnm, by simpa using hp⟩

/-- No endless run decreases a potential forever. -/
theorem elim (n : ℕ) (h : ∀ m, n ≤ m → Φ (f (m + 1)).1 < Φ (f m).1) : False := by
  have hle : ∀ k, Φ (f (n + k)).1 + k ≤ Φ (f n).1 := by
    intro k
    induction k with
    | zero => simp
    | succ k ih =>
      have hlt := h (n + k) (Nat.le_add_right n k)
      show Φ (f (n + k + 1)).1 + (k + 1) ≤ _
      omega
  have hlast := hle (Φ (f n).1 + 1)
  omega

end Endless

section FairTo

variable {actor : α → ι} {i : ι} {f : ℕ → σ × α}

/-- Who can move from some point on moves. -/
theorem FairTo.exists_move (h : M.FairTo actor i f) {n : ℕ}
    (hmay : ∀ m, n ≤ m → ∃ a, actor a = i ∧ M.step (f m).1 a ≠ none) :
    ∃ m, n ≤ m ∧ actor (f m).2 = i := by
  obtain ⟨m, hnm, hmove | hstuck⟩ := h n
  · exact ⟨m, hnm, hmove⟩
  · obtain ⟨a, ha, hstep⟩ := hmay m hnm
    exact absurd (hstuck a ha) hstep

/-- Who can move from some point on does not come closer to something with each of its moves, if
the others take it no further away. -/
theorem FairTo.elim (h : M.FairTo actor i f) (n : ℕ)
    (hmay : ∀ m, n ≤ m → ∃ a, actor a = i ∧ M.step (f m).1 a ≠ none)
    (hother : ∀ m, n ≤ m → actor (f m).2 ≠ i → Φ (f (m + 1)).1 ≤ Φ (f m).1)
    (hmove : ∀ m, n ≤ m → actor (f m).2 = i → Φ (f (m + 1)).1 < Φ (f m).1) : False := by
  have hmono : ∀ m, n ≤ m → ∀ k, m ≤ k → Φ (f k).1 ≤ Φ (f m).1 := by
    intro m hnm k hmk
    induction k, hmk using Nat.le_induction with
    | base => exact le_rfl
    | succ k hmk ih =>
      by_cases hi : actor (f k).2 = i
      · exact (hmove k (hnm.trans hmk) hi).le.trans ih
      · exact (hother k (hnm.trans hmk) hi).trans ih
  suffices hfrom : ∀ r m, n ≤ m → Φ (f m).1 ≠ r from hfrom _ n le_rfl rfl
  intro r
  induction r using Nat.strong_induction_on with
  | h r ih =>
    rintro m hnm rfl
    -- the next move of its own comes closer
    obtain ⟨k, hmk, hi⟩ := h.exists_move fun k hmk => hmay k (hnm.trans hmk)
    have hnk : n ≤ k := hnm.trans hmk
    have hcloser := (hmove k hnk hi).trans_le (hmono m hnm k hmk)
    exact ih _ hcloser (k + 1) (Nat.le_succ_of_le hnk) rfl

end FairTo

end Machine
