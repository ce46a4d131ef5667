import Mathlib.Data.Set.Function
import Mathlib.Order.WellFounded

/-!
# Files made from others

A target is a file that is made from other files by a recipe. Whoever makes it again only when it is
not newer than its inputs relies on the times: a fresh target is what its recipe would make of the
files as they are now (`Honest`). That survives whatever is written or removed elsewhere, because
a change of an input leaves the target stale. When all targets are what their recipes make, the
other files determine them (`eq_of_current`).

Files are a function `time` that knows the files that exist, and a function `val` of what is in
them.

The module introduces:

* `Recipe` — what is made out of the files, and which of them are read for it;
* `Target` — a file with the inputs that are declared for it;
* `Current` — a target is what its recipe makes now, out of declared inputs;
* `Fresh`, `Newer` — the times that tell whether it has to be made again;
* `Honest`, `Solid` — a target with such times is current.
-/

namespace Make

/-- What is made out of the files, and the files that are read for it: nothing else matters, for
what is made and for what is read. -/
structure Recipe (P V : Type*) where
  make : (P → V) → V
  reads : (P → V) → Set P
  stable : ∀ val val', Set.EqOn val' val (reads val) →
    make val' = make val ∧ reads val' = reads val

/-- A file that a recipe makes, with the inputs that are declared. -/
structure Target (P V : Type*) where
  output : P
  inputs : Set P
  recipe : Recipe P V

namespace Target

variable {P V T : Type*} [LT T] (t : Target P V)

/-- The output and the inputs. -/
def files : Set P := insert t.output t.inputs

/-- The output is what the recipe makes of the files as they are, and reads declared inputs for. -/
def Current (val : P → V) : Prop :=
  val t.output = t.recipe.make val ∧ t.recipe.reads val ⊆ t.inputs

/-- The output exists and is newer than the inputs that exist. -/
def Newer (time : P → Option T) : Prop :=
  ∃ x, time t.output = some x ∧ ∀ p ∈ t.inputs, ∀ y, time p = some y → y < x

/-- The output and the inputs exist, and the output is newer. -/
def Fresh (time : P → Option T) : Prop :=
  ∃ x, time t.output = some x ∧ ∀ p ∈ t.inputs, ∃ y, time p = some y ∧ y < x

/-- When the target is fresh, it is current. -/
def Honest (time : P → Option T) (val : P → V) : Prop := t.Fresh time → t.Current val

/-- When the target is newer than its inputs, it is current. -/
def Solid (time : P → Option T) (val : P → V) : Prop := t.Newer time → t.Current val

variable {t} {time time' : P → Option T} {val val' : P → V}

theorem Fresh.newer (h : t.Fresh time) : t.Newer time := by
  obtain ⟨x, hx, hold⟩ := h
  refine ⟨x, hx, fun p hp y hy => ?_⟩
  obtain ⟨y', hy', hlt⟩ := hold p hp
  obtain rfl := Option.some.inj (hy.symm.trans hy')
  exact hlt

theorem Solid.honest (h : t.Solid time val) : t.Honest time val := fun hfresh => h hfresh.newer

/-! ### Other files -/

theorem Current.congr (hval : Set.EqOn val' val t.files) (h : t.Current val) : t.Current val' := by
  obtain ⟨hmake, hreads⟩ := h
  obtain ⟨hmake', hreads'⟩ :=
    t.recipe.stable val val' fun p hp => hval (Set.mem_insert_of_mem _ (hreads hp))
  exact ⟨by rw [hval (Set.mem_insert _ _), hmake, hmake'], hreads' ▸ hreads⟩

theorem Newer.congr (htime : Set.EqOn time' time t.files) (h : t.Newer time') : t.Newer time := by
  obtain ⟨x, hx, hold⟩ := h
  refine ⟨x, (htime (Set.mem_insert _ _)).symm.trans hx, fun p hp y hy => hold p hp y ?_⟩
  exact (htime (Set.mem_insert_of_mem _ hp)).trans hy

theorem Fresh.congr (htime : Set.EqOn time' time t.files) (h : t.Fresh time') : t.Fresh time := by
  obtain ⟨x, hx, hold⟩ := h
  refine ⟨x, (htime (Set.mem_insert _ _)).symm.trans hx, fun p hp => ?_⟩
  rw [← htime (Set.mem_insert_of_mem _ hp)]
  exact hold p hp

/-- What happens to other files does not matter. -/
theorem Honest.congr (h : t.Honest time val) (htime : Set.EqOn time' time t.files)
    (hval : Set.EqOn val' val t.files) : t.Honest time' val' :=
  fun hfresh => (h (hfresh.congr htime)).congr hval

theorem Solid.congr (h : t.Solid time val) (htime : Set.EqOn time' time t.files)
    (hval : Set.EqOn val' val t.files) : t.Solid time' val' :=
  fun hnewer => (h (hnewer.congr htime)).congr hval

variable [DecidableEq P] {p : P} {y : T} {v : V}

/-- A file that does not belong to the target is written or removed. -/
theorem eqOn_update {α : Type*} {f : P → α} {a : α} (hp : p ∉ t.files) :
    Set.EqOn (Function.update f p a) f t.files := by
  intro q hq
  apply Function.update_of_ne
  rintro rfl
  exact hp hq

/-- An input that is written after the output leaves the target stale. -/
theorem not_newer_update (hp : p ≠ t.output) (hmem : p ∈ t.inputs)
    (hlate : ∀ x, time t.output = some x → ¬ y < x) :
    ¬ t.Newer (Function.update time p (some y)) := by
  rintro ⟨x, hx, hold⟩
  rw [Function.update_of_ne hp.symm] at hx
  apply hlate x hx
  apply hold p hmem
  apply Function.update_self

/-- Another file is written, and after the output if it is an input. -/
theorem Solid.write (h : t.Solid time val) (hp : p ≠ t.output)
    (hlate : p ∈ t.inputs → ∀ x, time t.output = some x → ¬ y < x) :
    t.Solid (Function.update time p (some y)) (Function.update val p v) := by
  by_cases hmem : p ∈ t.inputs
  · exact fun hnewer => absurd hnewer (not_newer_update hp hmem (hlate hmem))
  · have hfiles : p ∉ t.files := fun hq => hq.elim hp hmem
    exact h.congr (eqOn_update hfiles) (eqOn_update hfiles)

theorem Honest.write (h : t.Honest time val) (hp : p ≠ t.output)
    (hlate : p ∈ t.inputs → ∀ x, time t.output = some x → ¬ y < x) :
    t.Honest (Function.update time p (some y)) (Function.update val p v) := by
  by_cases hmem : p ∈ t.inputs
  · exact fun hfresh => absurd hfresh.newer (not_newer_update hp hmem (hlate hmem))
  · have hfiles : p ∉ t.files := fun hq => hq.elim hp hmem
    exact h.congr (eqOn_update hfiles) (eqOn_update hfiles)

/-- A target that is not there, or lacks an input, is not fresh. -/
theorem Honest.remove (h : t.Honest time val) :
    t.Honest (Function.update time p none) (Function.update val p v) := by
  by_cases hp : p ∈ t.files
  · rintro ⟨x, hx, hold⟩
    rcases hp with rfl | hmem
    · simp at hx
    · obtain ⟨y, hy, -⟩ := hold p hmem
      simp at hy
  · exact h.congr (eqOn_update hp) (eqOn_update hp)

/-- A target that has just been made is current, whatever the time. -/
theorem solid_make (hself : t.output ∉ t.inputs) (hreads : t.recipe.reads val ⊆ t.inputs) :
    t.Solid time (Function.update val t.output (t.recipe.make val)) := by
  intro _
  have hsame : Set.EqOn (Function.update val t.output (t.recipe.make val)) val
      (t.recipe.reads val) := by
    intro p hp
    apply Function.update_of_ne
    rintro rfl
    exact hself (hreads hp)
  obtain ⟨hmake, hreads'⟩ := t.recipe.stable _ _ hsame
  exact ⟨by rw [Function.update_self, hmake], hreads' ▸ hreads⟩

end Target

/-! ### All targets -/

section Targets

variable {P V : Type*} {ts : Set (Target P V)} {val val' : P → V}

/-- Some target is made from `p` and is `q`. -/
def Feeds (ts : Set (Target P V)) (p q : P) : Prop := ∃ t ∈ ts, t.output = q ∧ p ∈ t.inputs

/-- Where all targets are current, the inputs that are not made determine them. -/
theorem eq_of_current (hwf : WellFounded (Feeds ts)) (h : ∀ t ∈ ts, t.Current val)
    (h' : ∀ t ∈ ts, t.Current val')
    (hsource : ∀ t ∈ ts, ∀ p ∈ t.inputs, (∀ t' ∈ ts, t'.output ≠ p) → val' p = val p) :
    ∀ t ∈ ts, val' t.output = val t.output := by
  suffices hall : ∀ q, ∀ t ∈ ts, t.output = q → val' q = val q from
    fun t ht => hall _ t ht rfl
  intro q
  -- the inputs of a target come before it
  induction q using hwf.induction with
  | h q ih =>
    rintro t ht rfl
    obtain ⟨hmake, hreads⟩ := h t ht
    have hinputs : ∀ p ∈ t.inputs, val' p = val p := by
      intro p hp
      by_cases hmade : ∃ t' ∈ ts, t'.output = p
      · obtain ⟨t', ht', hout⟩ := hmade
        exact ih p ⟨t, ht, rfl, hp⟩ t' ht' hout
      · refine hsource t ht p hp fun t' ht' heq => hmade ⟨t', ht', heq⟩
    rw [(h' t ht).1, hmake]
    exact (t.recipe.stable val val' fun p hp => hinputs p (hreads hp)).1

end Targets

end Make
