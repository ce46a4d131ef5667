import Mathlib.Data.List.Basic

/-!
# Interleavings

What several threads have done, as one list of items with the number of the thread that each
comes from.

* `part` — the items of a thread;
* `exists_lift` — items that are images of others come from an interleaving of those;
* `exists_select` — the same for the items that are picked out of what each thread has done.
-/

namespace Interleaving

variable {α β γ : Type}

/-- The items of a thread, in their order. -/
def part (i : ℕ) (c : List (ℕ × α)) : List α := (c.filter fun x => x.1 = i).map Prod.snd

section Part

variable {i j : ℕ} {a : α} {c : List (ℕ × α)}

@[simp]
theorem part_nil : part i ([] : List (ℕ × α)) = [] := rfl

@[simp]
theorem part_cons_self : part i ((i, a) :: c) = a :: part i c := by simp [part]

theorem part_cons_of_ne (h : j ≠ i) : part i ((j, a) :: c) = part i c := by simp [part, h]

theorem mem_part : a ∈ part i c ↔ (i, a) ∈ c := by simp [part]

theorem part_map (f : α → β) (c : List (ℕ × α)) :
    part i (c.map (Prod.map id f)) = (part i c).map f := by
  induction c with
  | nil => rfl
  | cons x c ih =>
    obtain ⟨j, a⟩ := x
    rcases eq_or_ne j i with rfl | hne
    · simp [ih]
    · simpa [part_cons_of_ne hne] using ih

theorem part_filter (p : α → Bool) (c : List (ℕ × α)) :
    part i (c.filter fun x => p x.2) = (part i c).filter p := by
  induction c with
  | nil => rfl
  | cons x c ih =>
    obtain ⟨j, a⟩ := x
    rcases eq_or_ne j i with rfl | hne
    · cases hp : p a <;> simp [hp, ih]
    · cases hp : p a <;> simp [hp, ih, part_cons_of_ne hne]

end Part

/-- Items that are images of those of `l` come from an interleaving of the latter. -/
theorem exists_lift (f : α → β) {c : List (ℕ × β)} {l : ℕ → List α}
    (h : ∀ i, part i c <+: (l i).map f) :
    ∃ c' : List (ℕ × α), c'.map (Prod.map id f) = c ∧ ∀ i, part i c' <+: l i := by
  induction c generalizing l with
  | nil => exact ⟨[], rfl, fun _ => List.nil_prefix⟩
  | cons x c ih =>
    obtain ⟨j, b⟩ := x
    -- the thread of the first item has an item for it
    have hj := h j
    rw [part_cons_self] at hj
    cases hl : l j with
    | nil =>
      rw [hl] at hj
      exact absurd (List.prefix_nil.mp hj) (by simp)
    | cons a rest =>
      rw [hl, List.map_cons, List.cons_prefix_cons] at hj
      obtain ⟨rfl, hrest⟩ := hj
      obtain ⟨c', hc', hpart⟩ := ih (l := Function.update l j rest) fun i => by
        rcases eq_or_ne i j with rfl | hne
        · simpa using hrest
        · have hi := h i
          rw [part_cons_of_ne hne.symm] at hi
          simpa [hne] using hi
      refine ⟨(j, a) :: c', by simp [hc'], fun i => ?_⟩
      have hi := hpart i
      rcases eq_or_ne i j with rfl | hne
      · rw [part_cons_self, hl, List.cons_prefix_cons]
        exact ⟨rfl, by simpa using hi⟩
      · rw [part_cons_of_ne hne.symm]
        simpa [hne] using hi

section Select

variable {items : α → List β} {pick : β → Bool} {picked : α → Bool} {item : α → β}

/-- Each of `steps` has one item that is picked, or none. -/
theorem filter_flatMap (h : ∀ a, (items a).filter pick = if picked a then [item a] else [])
    (steps : List α) : (steps.flatMap items).filter pick = (steps.filter picked).map item := by
  induction steps with
  | nil => rfl
  | cons a steps ih =>
    rw [List.flatMap_cons, List.filter_append, h, ih]
    cases hp : picked a <;> simp [hp]

/-- What is picked out of an interleaving of items is an interleaving of their steps; it has all of
them when the interleaving has. -/
theorem exists_select (h : ∀ a, (items a).filter pick = if picked a then [item a] else [])
    {c : List (ℕ × β)} {steps : ℕ → List α} (hc : ∀ i, part i c <+: (steps i).flatMap items) :
    ∃ order : List (ℕ × α),
      order.map (Prod.map id item) = c.filter (fun x => pick x.2) ∧
      (∀ i, part i order <+: (steps i).filter picked) ∧
      ((∀ i, part i c = (steps i).flatMap items) →
        ∀ i, part i order = (steps i).filter picked) := by
  have hpart : ∀ i, part i (c.filter fun x => pick x.2) <+: ((steps i).filter picked).map item := by
    intro i
    rw [part_filter, ← filter_flatMap h]
    exact (hc i).filter _
  obtain ⟨order, horder, hbegins⟩ := exists_lift item hpart
  refine ⟨order, horder, hbegins, fun hall i => (hbegins i).eq_of_length ?_⟩
  have hlength := congrArg List.length (part_map item order (i := i))
  rw [horder, part_filter, hall, filter_flatMap h] at hlength
  simpa using hlength.symm

/-- What is not picked says nothing. -/
theorem flatMap_filter {channel : β → List γ} (h : ∀ b, pick b = false → channel b = [])
    (c : List (ℕ × β)) : ((c.filter fun x => pick x.2).flatMap fun x => channel x.2) =
      c.flatMap fun x => channel x.2 := by
  induction c with
  | nil => rfl
  | cons x c ih =>
    cases hx : pick x.2 with
    | true => simp [hx, ih]
    | false => simp [hx, h _ hx, ih]

end Select

end Interleaving
