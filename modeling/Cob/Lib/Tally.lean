import Mathlib.Algebra.BigOperators.Group.List.Basic
import Mathlib.Algebra.GroupWithZero.Nat
import Mathlib.Algebra.Order.BigOperators.Group.List
import Mathlib.Algebra.Order.Group.Nat
import Mathlib.Data.List.Nodup

/-!
# Tallies over a list of participants

`tally f l` adds up what each participant in `l` contributes. A step that replaces one
participant changes the tally by the difference of the two contributions (`tally_set`), which
is how a counter shared by the participants is related to their local states.
-/

/-- The sum of the contributions `f` of the members of `l`. -/
def tally {α : Type*} (f : α → ℕ) (l : List α) : ℕ := (l.map f).sum

section Tally

variable {α : Type*} (f : α → ℕ)

@[simp]
theorem tally_nil : tally f [] = 0 := rfl

@[simp]
theorem tally_cons (a : α) (l : List α) : tally f (a :: l) = f a + tally f l := by
  simp [tally]

@[simp]
theorem tally_append (l l' : List α) : tally f (l ++ l') = tally f l + tally f l' := by
  simp [tally]

/-- Replacing one participant exchanges its contribution. -/
theorem tally_set {l : List α} {i : ℕ} {a : α} (h : l[i]? = some a) (b : α) :
    tally f (l.set i b) + f a = tally f l + f b := by
  induction l generalizing i with
  | nil => simp at h
  | cons c l ih =>
    cases i with
    | zero =>
      obtain rfl : c = a := by simpa using h
      simp only [List.set_cons_zero, tally_cons]
      omega
    | succ i =>
      have hi := ih (by simpa using h)
      simp only [List.set_cons_succ, tally_cons]
      omega

theorem tally_map {β : Type*} (h : β → α) (l : List β) :
    tally f (l.map h) = tally (fun b => f (h b)) l := by
  simp [tally, Function.comp_def]

/-- A tally over the positions of a list. -/
theorem tally_range_getElem? (f : Option α → ℕ) (l : List α) :
    tally (fun i => f l[i]?) (List.range l.length) = tally (fun a => f (some a)) l := by
  induction l with
  | nil => rfl
  | cons a l ih => simpa [List.range_succ_eq_map, tally_map] using ih

variable {f}

/-- Equal contributions have equal tallies. -/
theorem tally_congr {f' : α → ℕ} {l : List α} (h : ∀ a ∈ l, f' a = f a) :
    tally f' l = tally f l := by
  rw [tally, tally, List.map_congr_left h]

/-- Changing the contribution of one participant exchanges its contribution. -/
theorem tally_update [DecidableEq α] {f' : α → ℕ} {l : List α} {a : α} (ha : l.count a = 1)
    (h : ∀ b ∈ l, b ≠ a → f' b = f b) : tally f' l + f a = tally f l + f' a := by
  induction l with
  | nil => simp at ha
  | cons c l ih =>
    simp only [tally_cons]
    by_cases hc : c = a
    · subst hc
      have hnot : c ∉ l := by
        rw [List.count_cons_self] at ha
        exact List.count_eq_zero.mp (by omega)
      have hrest : tally f' l = tally f l :=
        tally_congr fun b hb => h b (List.mem_cons_of_mem _ hb) fun hbc => hnot (hbc ▸ hb)
      omega
    · have hrest := ih (by simpa [hc] using ha) fun b hb => h b (List.mem_cons_of_mem _ hb)
      have hhead := h c List.mem_cons_self hc
      omega

/-- One participant contributes at most the tally. -/
theorem le_tally_of_mem {l : List α} {a : α} (h : a ∈ l) : f a ≤ tally f l :=
  List.single_le_sum (by simp) _ (List.mem_map_of_mem h)

/-- The tally is zero exactly when nobody contributes. -/
theorem tally_eq_zero_iff {l : List α} : tally f l = 0 ↔ ∀ a ∈ l, f a = 0 := by
  simp [tally, List.sum_eq_zero_iff]

/-- Larger contributions have larger tallies. -/
theorem tally_mono {f' : α → ℕ} {l : List α} (h : ∀ a ∈ l, f a ≤ f' a) : tally f l ≤ tally f' l :=
  List.sum_le_sum h

theorem tally_add (f f' : α → ℕ) (l : List α) :
    tally (fun a => f a + f' a) l = tally f l + tally f' l := by
  induction l with
  | nil => rfl
  | cons a l ih =>
    simp only [tally_cons, ih]
    omega

theorem tally_const_mul (k : ℕ) (f : α → ℕ) (l : List α) :
    tally (fun a => k * f a) l = k * tally f l := by
  induction l with
  | nil => rfl
  | cons a l ih => simp only [tally_cons, ih, Nat.mul_add]

/-- Who contributes one each is counted. -/
theorem tally_ite_one (p : α → Bool) (l : List α) :
    tally (fun a => if p a then 1 else 0) l = l.countP p := by
  induction l with
  | nil => rfl
  | cons a l ih =>
    rw [tally_cons, ih, List.countP_cons]
    omega

/-- Two tallies may be taken in either order. -/
theorem tally_comm {β : Type*} (f : α → β → ℕ) (l : List α) (l' : List β) :
    tally (fun a => tally (f a) l') l = tally (fun b => tally (fun a => f a b) l) l' := by
  induction l with
  | nil => simp [tally]
  | cons a l ih =>
    simp only [tally_cons, ih]
    exact (tally_add (f a) _ l').symm

/-- Counting different members one after the other counts at most all. -/
theorem tally_count_le [DecidableEq α] {l l' : List α} (h : l.Nodup) :
    tally (fun a => l'.count a) l ≤ l'.length := by
  induction l' with
  | nil => simp [tally]
  | cons b l' ih =>
    have hone : tally (fun a => if b == a then 1 else 0) l ≤ 1 := by
      rw [tally_ite_one]
      have hcount := List.nodup_iff_count.mp h b
      simpa only [List.count, Bool.beq_comm] using hcount
    have hsplit : tally (fun a => (b :: l').count a) l =
        tally (fun a => l'.count a) l + tally (fun a => if b == a then 1 else 0) l := by
      rw [← tally_add]
      exact tally_congr fun a _ => by rw [List.count_cons]
    rw [List.length_cons]
    omega

end Tally

section Participants

variable {α : Type*} {p : α → Prop} {l : List α} {i : ℕ} {a b : α}

/-- A participant with a property stays one when another is replaced. -/
theorem exists_mem_set_of_not (hi : l[i]? = some a) (ha : ¬ p a) (h : ∃ x ∈ l, p x) :
    ∃ x ∈ l.set i b, p x := by
  obtain ⟨x, hx, hp⟩ := h
  obtain ⟨j, hj⟩ := List.mem_iff_getElem?.mp hx
  have hij : i ≠ j := by
    rintro rfl
    exact ha (Option.some.inj (hi.symm.trans hj) ▸ hp)
  exact ⟨x, List.mem_iff_getElem?.mpr ⟨j, by simpa [List.getElem?_set, hij] using hj⟩, hp⟩

end Participants
