import Mathlib.Data.Nat.Basic

/-!
# Loops over memory

A run of code that reads memory through pointers returns a value, or is stuck: at an access outside
the memory, or in a loop whose rounds are used up. `Returns` is total correctness, so it excludes
both.

* `loop` — a `while` loop with a bound on its rounds;
* `Returns` — the run ends, and its value satisfies a postcondition;
* `returns_loop_rank`, `returns_loop` — the rule for loops, with an invariant and a rank that
  decreases;
* `returns_foldlM` — the rule for a loop over a list, with an invariant on the part that is done;
* `ReturnsIf` — the same for runs that end only under a condition, with the rule `returnsIf_loop`;
* `Refines` — a call follows an abstract state as long as that is within its bounds, with the rule
  `foldlM_iff_within` for sequences of calls.
-/

/-- Why a run does not return. -/
inductive Stuck where
  | outOfBounds
  | outOfFuel
  deriving DecidableEq

/-- A run of a program. -/
abbrev Fueled (α : Type) := Except Stuck α

namespace Fueled

variable {α β σ : Type}

/-- A `while` loop: one round of `body` either goes on with a new state or leaves the loop. -/
def loop (body : σ → Fueled (σ ⊕ α)) : ℕ → σ → Fueled α
  | 0, _ => .error .outOfFuel
  | fuel + 1, s => do
    match ← body s with
    | .inl s' => loop body fuel s'
    | .inr a => pure a

/-- The run returns a value with the postcondition. -/
def Returns (m : Fueled α) (post : α → Prop) : Prop := ∃ a, m = .ok a ∧ post a

section Rules

variable {m : Fueled α} {f : α → Fueled β} {P Q : α → Prop} {R : β → Prop}

theorem returns_pure {a : α} (h : P a) : Returns (pure a) P := ⟨a, rfl, h⟩

@[simp]
theorem ok_bind (a : α) (f : α → Fueled β) : ((.ok a : Fueled α) >>= f) = f a := rfl

@[simp]
theorem error_bind (e : Stuck) (f : α → Fueled β) : ((.error e : Fueled α) >>= f) = .error e := rfl

/-- A sequence of runs returns what its last run returns. -/
theorem bind_eq_ok {b : β} : m >>= f = .ok b ↔ ∃ a, m = .ok a ∧ f a = .ok b := by
  cases m with
  | error e => simp [bind, Except.bind]
  | ok a => simp [bind, Except.bind]

theorem Returns.bind (h : Returns m P) (hf : ∀ a, P a → Returns (f a) R) :
    Returns (m >>= f) R := by
  obtain ⟨a, rfl, ha⟩ := h
  exact hf a ha

theorem Returns.mono (h : Returns m P) (hPQ : ∀ a, P a → Q a) : Returns m Q := by
  obtain ⟨a, hm, ha⟩ := h
  exact ⟨a, hm, hPQ a ha⟩

/-- What holds before a round holds after it with a smaller rank, and what is true when the loop is
left is the postcondition. -/
theorem returns_loop_rank {body : σ → Fueled (σ ⊕ α)} (inv : ℕ → σ → Prop)
    (hbody : ∀ r s, inv r s → Returns (body s) (Sum.elim (fun s' => ∃ r' < r, inv r' s') P))
    {fuel r : ℕ} {s : σ} (hs : inv r s) (hfuel : r < fuel) : Returns (loop body fuel s) P := by
  induction fuel generalizing r s with
  | zero => exact absurd hfuel (Nat.not_lt_zero _)
  | succ fuel ih =>
    refine (hbody r s hs).bind fun result hresult => ?_
    cases result with
    | inl s' =>
      obtain ⟨r', hlt, hinv⟩ := hresult
      exact ih hinv (Nat.lt_of_lt_of_le hlt (Nat.le_of_lt_succ hfuel))
    | inr a => exact returns_pure hresult

/-- The rule with the rank computed from the state. -/
theorem returns_loop {body : σ → Fueled (σ ⊕ α)} (inv : σ → Prop) (measure : σ → ℕ)
    (hbody : ∀ s, inv s → Returns (body s) (Sum.elim (fun s' => inv s' ∧ measure s' < measure s) P))
    {fuel : ℕ} {s : σ} (hs : inv s) (hfuel : measure s < fuel) : Returns (loop body fuel s) P := by
  refine returns_loop_rank (fun r s => inv s ∧ measure s = r) ?_ ⟨hs, rfl⟩ hfuel
  rintro r s ⟨hinv, rfl⟩
  refine (hbody s hinv).mono ?_
  rintro (s' | a) h
  · exact ⟨measure s', h.2, h.1, rfl⟩
  · exact h

/-- What holds of the part of the list that is done, and of the state, is kept by each round. -/
theorem returns_foldlM {body : σ → α → Fueled σ} (inv : List α → σ → Prop) {l : List α}
    (hbody : ∀ done x rest s, l = done ++ x :: rest → inv done s →
      Returns (body s x) (inv (done ++ [x])))
    {s : σ} (hs : inv [] s) : Returns (l.foldlM body s) (inv l) := by
  suffices h : ∀ rest done s, l = done ++ rest → inv done s →
      Returns (rest.foldlM body s) (inv l) from h l [] s rfl hs
  intro rest
  induction rest with
  | nil =>
    intro done s heq hdone
    rw [List.append_nil] at heq
    exact returns_pure (heq ▸ hdone)
  | cons x rest ih =>
    intro done s heq hdone
    rw [List.foldlM_cons]
    refine (hbody done x rest s heq hdone).bind fun s' hs' => ?_
    refine ih (done ++ [x]) s' ?_ hs'
    rw [heq, List.append_assoc, List.singleton_append]

end Rules

/-- The run returns a value with the postcondition, or its rounds are used up and nothing bounds
them. In either case it stays inside the memory. -/
def ReturnsIf (bounded : Prop) (m : Fueled α) (post : α → Prop) : Prop :=
  (∃ a, m = .ok a ∧ post a) ∨ (m = .error .outOfFuel ∧ ¬ bounded)

section ReturnsIf

variable {bounded : Prop} {m : Fueled α} {f : α → Fueled β} {P Q : α → Prop} {R : β → Prop}

theorem ReturnsIf.bind (h : ReturnsIf bounded m P) (hf : ∀ a, P a → ReturnsIf bounded (f a) R) :
    ReturnsIf bounded (m >>= f) R := by
  obtain ⟨a, rfl, ha⟩ | ⟨rfl, hb⟩ := h
  · exact hf a ha
  · exact .inr ⟨rfl, hb⟩

theorem ReturnsIf.mono (h : ReturnsIf bounded m P) (hPQ : ∀ a, P a → Q a) :
    ReturnsIf bounded m Q := by
  obtain ⟨a, hm, ha⟩ | hstuck := h
  · exact .inl ⟨a, hm, hPQ a ha⟩
  · exact .inr hstuck

/-- The rule for loops whose measure need not decrease where nothing bounds the rounds. -/
theorem returnsIf_loop {σ : Type} {body : σ → Fueled (σ ⊕ α)} (inv : σ → Prop) (measure : σ → ℕ)
    (hbody : ∀ s, inv s → ReturnsIf bounded (body s)
      (Sum.elim (fun s' => inv s' ∧ (bounded → measure s' < measure s)) P))
    {fuel : ℕ} {s : σ} (hs : inv s) (hfuel : bounded → measure s < fuel) :
    ReturnsIf bounded (loop body fuel s) P := by
  induction fuel generalizing s with
  | zero => exact .inr ⟨rfl, fun hb => Nat.not_lt_zero _ (hfuel hb)⟩
  | succ fuel ih =>
    refine (hbody s hs).bind fun result hresult => ?_
    cases result with
    | inl s' =>
      obtain ⟨hinv, hlt⟩ := hresult
      exact ih hinv fun hb => Nat.lt_of_lt_of_le (hlt hb) (Nat.le_of_lt_succ (hfuel hb))
    | inr a => exact .inl ⟨a, rfl, hresult⟩

/-- What the value of a run satisfies. -/
theorem ReturnsIf.of_ok (h : ReturnsIf bounded m P) {a : α} (hm : m = .ok a) : P a := by
  obtain ⟨a', hm', ha⟩ | ⟨hstuck, _⟩ := h
  · rw [hm] at hm'
    cases hm'
    exact ha
  · rw [hm] at hstuck
    cases hstuck

/-- A run with a bound ends. -/
theorem ReturnsIf.returns (h : ReturnsIf bounded m P) (hb : bounded) : Returns m P :=
  h.resolve_right fun hstuck => hstuck.2 hb

theorem ReturnsIf.ne_outOfBounds (h : ReturnsIf bounded m P) : m ≠ .error .outOfBounds := by
  obtain ⟨a, rfl, _⟩ | ⟨rfl, _⟩ := h
  · exact nofun
  · exact nofun

end ReturnsIf

section Refinement

variable {τ ι : Type} {run : σ → ι → Fueled σ} {apply : τ → ι → τ} {rel : σ → τ → Prop}
  {fits : τ → Prop} {s : σ} {t : τ} {ops : List ι}

/-- The abstract state is within its bounds after every call. -/
def Within (apply : τ → ι → τ) (fits : τ → Prop) (t : τ) (ops : List ι) : Prop :=
  ∀ calls, calls <+: ops → fits (calls.foldl apply t)

theorem within_cons {op : ι} :
    Within apply fits t (op :: ops) ↔ fits t ∧ Within apply fits (apply t op) ops := by
  constructor
  · intro h
    refine ⟨h [] List.nil_prefix, fun calls hcalls => ?_⟩
    exact h (op :: calls) ((List.prefix_cons_inj op).mpr hcalls)
  · rintro ⟨hnow, hlater⟩ calls hcalls
    rcases List.prefix_cons_iff.mp hcalls with rfl | ⟨rest, rfl, hrest⟩
    · exact hnow
    · exact hlater rest hrest

theorem within_map {κ : Type} {f : κ → ι} {ops : List κ} :
    Within apply fits t (ops.map f) ↔ Within (fun t op => apply t (f op)) fits t ops := by
  constructor
  · intro h calls hcalls
    have hfits := h (calls.map f) (hcalls.map f)
    rwa [List.foldl_map] at hfits
  · intro h calls hcalls
    obtain ⟨before, hbefore, rfl⟩ := List.prefix_map_iff.mp hcalls
    rw [List.foldl_map]
    exact h before hbefore

/-- A call does to the memory what it does to the abstract state, unless that leaves its bounds:
then the call leaves the memory. -/
def Refines (run : σ → ι → Fueled σ) (apply : τ → ι → τ) (rel : σ → τ → Prop) (fits : τ → Prop)
    (op : ι) : Prop :=
  ∀ s t, rel s t → (fits (apply t op) → Returns (run s op) fun s' => rel s' (apply t op)) ∧
    (¬ fits (apply t op) → run s op = .error .outOfBounds)

/-- The rule for sequences of calls. -/
theorem foldlM_of_refines (hstep : ∀ op ∈ ops, Refines run apply rel fits op)
    (hfits : ∀ s t, rel s t → fits t) (h : rel s t) :
    (Within apply fits t ops → Returns (ops.foldlM run s) fun s' => rel s' (ops.foldl apply t)) ∧
      (¬ Within apply fits t ops → ops.foldlM run s = .error .outOfBounds) := by
  induction ops generalizing s t with
  | nil =>
    refine ⟨fun _ => returns_pure h, fun hnot => absurd (fun calls hcalls => ?_) hnot⟩
    rw [List.prefix_nil.mp hcalls]
    exact hfits s t h
  | cons op ops ih =>
    obtain ⟨hinside, houtside⟩ := hstep op List.mem_cons_self s t h
    have ih := fun s' => @ih s' (apply t op) fun op hmem => hstep op (List.mem_cons_of_mem _ hmem)
    rw [within_cons, List.foldlM_cons]
    by_cases hnext : fits (apply t op)
    · obtain ⟨s', hrun, hs'⟩ := hinside hnext
      rw [hrun, ok_bind]
      exact ⟨fun hwithin => (ih s' hs').1 hwithin.2,
        fun hnot => (ih s' hs').2 fun hwithin => hnot ⟨hfits s t h, hwithin⟩⟩
    · rw [houtside hnext, error_bind]
      exact ⟨fun hwithin => absurd (hwithin.2 [] List.nil_prefix) hnext, fun _ => rfl⟩

/-- The calls return exactly when the abstract state stays within its bounds, and then they do to
the memory what they do to that state. -/
theorem foldlM_iff_within (hstep : ∀ op ∈ ops, Refines run apply rel fits op)
    (hfits : ∀ s t, rel s t → fits t) (h : rel s t) :
    ((∃ s', ops.foldlM run s = .ok s') ↔ Within apply fits t ops) ∧
      ∀ s', ops.foldlM run s = .ok s' → rel s' (ops.foldl apply t) := by
  obtain ⟨hreturns, hstuck⟩ := foldlM_of_refines hstep hfits h
  by_cases hwithin : Within apply fits t ops
  · obtain ⟨s', hrun, hs'⟩ := hreturns hwithin
    refine ⟨⟨fun _ => hwithin, fun _ => ⟨s', hrun⟩⟩, fun s'' hrun' => ?_⟩
    obtain rfl : s' = s'' := Except.ok.inj (hrun.symm.trans hrun')
    exact hs'
  · rw [hstuck hwithin]
    refine ⟨⟨fun ⟨s', hrun⟩ => (by cases hrun), fun h => absurd h hwithin⟩, fun s' hrun => ?_⟩
    cases hrun

end Refinement

end Fueled
