import Mathlib.Logic.Function.Basic

/-!
# Machines driven by an adversary

A `Machine` has a set of initial states and a partial step function; the adversary picks every
action. Nothing here depends on what the states are.

The module introduces:

* `Run` — the finite runs, carrying the moves made so far, latest first;
* `Reachable` — the states some run ends in;
* `ReachableVia G` — the states reached by runs all of whose moves satisfy the guard `G`;
* `exec` — the run that a chosen list of actions makes, evaluated.

The induction rules are `Run.invariant` and `ReachableVia.invariant`: an invariant holds in the
initial states, every step from a reachable state keeps it, so every reachable state has it.
-/

/-- A system whose state `σ` changes by actions `α` chosen from outside. -/
structure Machine (σ α : Type*) where
  /-- The states a run may start in. -/
  init : σ → Prop
  /-- The state after an action, `none` when the action is not enabled. -/
  step : σ → α → Option σ

namespace Machine

variable {σ α : Type*} {M : Machine σ α}

/-- `M.Run tr s`: a run ends in `s` and made the moves `tr`, each with the state it was made in,
the latest move first. -/
inductive Run (M : Machine σ α) : List (σ × α) → σ → Prop
  | start {s : σ} : M.init s → Run M [] s
  | move {tr : List (σ × α)} {s s' : σ} {a : α} :
      Run M tr s → M.step s a = some s' → Run M ((s, a) :: tr) s'

/-- Some run ends in `s`. -/
def Reachable (M : Machine σ α) (s : σ) : Prop := ∃ tr, M.Run tr s

/-- Some run all of whose moves satisfy `G` ends in `s`. -/
def ReachableVia (M : Machine σ α) (G : σ → α → Prop) (s : σ) : Prop :=
  ∃ tr, M.Run tr s ∧ ∀ m ∈ tr, G m.1 m.2

theorem Run.reachable {tr : List (σ × α)} {s : σ} (h : M.Run tr s) : M.Reachable s := ⟨tr, h⟩

theorem Reachable.init {s : σ} (h : M.init s) : M.Reachable s := ⟨[], .start h⟩

theorem Reachable.step {s s' : σ} {a : α} (h : M.Reachable s) (hs : M.step s a = some s') :
    M.Reachable s' := by
  obtain ⟨tr, htr⟩ := h
  exact ⟨(s, a) :: tr, htr.move hs⟩

theorem ReachableVia.reachable {G : σ → α → Prop} {s : σ} (h : M.ReachableVia G s) :
    M.Reachable s := by
  obtain ⟨tr, htr, -⟩ := h
  exact ⟨tr, htr⟩

theorem ReachableVia.init {G : σ → α → Prop} {s : σ} (h : M.init s) : M.ReachableVia G s :=
  ⟨[], .start h, by simp⟩

theorem ReachableVia.mono {G H : σ → α → Prop} (hGH : ∀ s a, G s a → H s a) {s : σ}
    (h : M.ReachableVia G s) : M.ReachableVia H s := by
  obtain ⟨tr, htr, hall⟩ := h
  exact ⟨tr, htr, fun m hm => hGH _ _ (hall m hm)⟩

theorem ReachableVia.step {G : σ → α → Prop} {s s' : σ} {a : α} (h : M.ReachableVia G s)
    (hG : G s a) (hs : M.step s a = some s') : M.ReachableVia G s' := by
  obtain ⟨tr, htr, hall⟩ := h
  refine ⟨(s, a) :: tr, htr.move hs, fun m hm => ?_⟩
  rcases List.mem_cons.mp hm with rfl | hm
  · exact hG
  · exact hall m hm

/-- The invariant rule: what holds initially and survives every step from a reachable state
holds in every reachable state. -/
theorem Reachable.invariant {I : σ → Prop} (start : ∀ s, M.init s → I s)
    (next : ∀ s a s', M.Reachable s → I s → M.step s a = some s' → I s')
    {s : σ} (h : M.Reachable s) : I s := by
  obtain ⟨tr, htr⟩ := h
  induction htr with
  | start h0 => exact start _ h0
  | move hr hs ih => exact next _ _ _ hr.reachable ih hs

/-- The invariant rule for runs whose moves satisfy a guard. -/
theorem ReachableVia.invariant {G : σ → α → Prop} {I : σ → Prop} (start : ∀ s, M.init s → I s)
    (next : ∀ s a s', M.ReachableVia G s → I s → G s a → M.step s a = some s' → I s')
    {s : σ} (h : M.ReachableVia G s) : I s := by
  obtain ⟨tr, htr, hG⟩ := h
  induction htr with
  | start h0 => exact start _ h0
  | move hr hs ih =>
    have hbefore := fun m hm => hG m (List.mem_cons_of_mem _ hm)
    exact next _ _ _ ⟨_, hr, hbefore⟩ (ih hbefore) (hG _ List.mem_cons_self) hs

/-- The states of a machine, seen as states of another one. -/
theorem ReachableVia.map {τ β : Type*} {N : Machine τ β} {G : σ → α → Prop} {H : τ → β → Prop}
    (f : σ → τ) (g : α → β) (start : ∀ s, M.init s → N.init (f s))
    (next : ∀ s a s', M.step s a = some s' → N.step (f s) (g a) = some (f s'))
    (guard : ∀ s a, G s a → H (f s) (g a)) {s : σ} (h : M.ReachableVia G s) :
    N.ReachableVia H (f s) := by
  refine invariant (I := fun s => N.ReachableVia H (f s)) ?_ ?_ h
  · exact fun s h0 => ⟨[], .start (start s h0), by simp⟩
  · exact fun s a s' _ ih hG hs => ih.step (guard s a hG) (next s a s' hs)

/-- Every state in which a run made a move is reachable. -/
theorem Run.reachable_of_mem {tr : List (σ × α)} {s : σ} (h : M.Run tr s) :
    ∀ m ∈ tr, M.Reachable m.1 := by
  induction h with
  | start _ => simp
  | move hr _ ih =>
    intro m hm
    rcases List.mem_cons.mp hm with rfl | hm
    · exact hr.reachable
    · exact ih m hm

/-- What every step from a reachable state keeps, the whole run keeps: each state of the run is
related to the last. -/
theorem Run.rel_of_mem {R : σ → σ → Prop}
    (trans : ∀ s t u, R s t → R t u → R s u)
    (next : ∀ s a s', M.Reachable s → M.step s a = some s' → R s s')
    {tr : List (σ × α)} {s : σ} (h : M.Run tr s) : ∀ m ∈ tr, R m.1 s := by
  induction h with
  | start _ => simp
  | move hr hs ih =>
    intro m hm
    have hlast := next _ _ _ hr.reachable hs
    rcases List.mem_cons.mp hm with rfl | hm
    · exact hlast
    · exact trans _ _ _ (ih m hm) hlast

/-- The state after a move of a run is its last state, or the state of another move. -/
theorem Run.next_of_mem {tr : List (σ × α)} {s : σ} (h : M.Run tr s) :
    ∀ m ∈ tr, ∃ s', M.step m.1 m.2 = some s' ∧ (s' = s ∨ ∃ m' ∈ tr, m'.1 = s') := by
  induction h with
  | start _ => simp
  | @move tr s s' a hr hs ih =>
    intro m hm
    rcases List.mem_cons.mp hm with rfl | hm
    · exact ⟨s', hs, .inl rfl⟩
    · obtain ⟨t, ht, rfl | ⟨m', hm', rfl⟩⟩ := ih m hm
      · exact ⟨t, ht, .inr ⟨_, List.mem_cons_self, rfl⟩⟩
      · exact ⟨_, ht, .inr ⟨m', List.mem_cons_of_mem _ hm', rfl⟩⟩

/-- A run prolonged by a list of actions, `none` if one of them is not enabled. -/
def exec (M : Machine σ α) : List (σ × α) × σ → List α → Option (List (σ × α) × σ)
  | r, [] => some r
  | (tr, s), a :: as => (M.step s a).bind fun s' => M.exec ((s, a) :: tr, s') as

/-- Evaluated actions prolong a run to a run. -/
theorem Run.exec {tr tr' : List (σ × α)} {s s' : σ} (h : M.Run tr s) {as : List α}
    (hs : M.exec (tr, s) as = some (tr', s')) : M.Run tr' s' := by
  induction as generalizing tr s with
  | nil =>
    obtain ⟨rfl, rfl⟩ : tr = tr' ∧ s = s' := by simpa [Machine.exec] using hs
    exact h
  | cons a as ih =>
    obtain ⟨s₁, hs₁, hrest⟩ := Option.bind_eq_some_iff.mp (by simpa [Machine.exec] using hs)
    exact ih (h.move hs₁) hrest

/-- A property decided to hold of an evaluated run holds of some run. -/
theorem exists_run_of_exec {s : σ} (h : M.init s) (as : List α) (p : List (σ × α) × σ → Bool)
    (hp : (M.exec ([], s) as).any p = true) : ∃ tr s', M.Run tr s' ∧ p (tr, s') = true := by
  obtain ⟨⟨tr, s'⟩, hs', hp'⟩ := (Option.any_eq_true _ _).mp hp
  exact ⟨tr, s', (Run.start h).exec hs', hp'⟩

/-- A property decided to hold after an evaluated run whose moves satisfy a guard. -/
theorem exists_via_of_exec {G : σ → α → Prop} [∀ s a, Decidable (G s a)] {s : σ} (h : M.init s)
    (as : List α) (p : σ → Bool)
    (hp : (M.exec ([], s) as).any (fun r =>
      (r.1.all fun m => decide (G m.1 m.2)) && p r.2) = true) :
    ∃ s', M.ReachableVia G s' ∧ p s' = true := by
  obtain ⟨tr, s', hrun, hall⟩ := exists_run_of_exec h as _ hp
  obtain ⟨hguard, hp'⟩ := Bool.and_eq_true_iff.mp hall
  refine ⟨s', ⟨tr, hrun, fun m hm => ?_⟩, hp'⟩
  exact of_decide_eq_true (List.all_eq_true.mp hguard m hm)

end Machine
