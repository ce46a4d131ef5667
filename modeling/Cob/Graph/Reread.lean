import Cob.Graph.WellFormed

/-!
# Adding the same steps again

What a graph owes to the dependency files that were there when its steps were added. Whether a
step is accepted depends on the outputs alone (`exists_addSteps`); the graph itself depends on the
prerequisites that `addStep` found, so finding the same ones gives the same graph
(`addSteps_congr`), and the stored steps tell which were found (`depfileInputs_liveStep`).
-/

namespace Cob

namespace BuildGraph

variable {read read' : Bytes → Option Bytes} {g g' h h' : BuildGraph} {step : BuildStep}
  {steps : List BuildStep}

/-- What a successful `addStep` stores. -/
theorem steps_addStep (hadd : g.addStep read step = .ok g') :
    g'.steps = g.steps ++ [liveStep read step] := by
  simp only [addStep] at hadd
  split_ifs at hadd
  obtain rfl := Except.ok.inj hadd
  have hkeep : ∀ (out : ℕ) (paths : List Bytes) (g : BuildGraph),
      (g.addInputs out paths).steps = g.steps := by
    intro out paths
    unfold addInputs
    induction paths with
    | nil => exact fun g => rfl
    | cons p paths ih => exact fun g => (ih _).trans steps_addInput
  simp only [hkeep, steps_getOrCreateNode]
  rfl

/-- `addSteps` on a list with a first step. -/
theorem addSteps_cons (g : BuildGraph) :
    g.addSteps read (step :: steps) = (g.addStep read step).bind fun g' =>
      g'.addSteps read steps := rfl

theorem addSteps_append (g : BuildGraph) (steps' : List BuildStep) :
    g.addSteps read (steps ++ steps') =
      (g.addSteps read steps).bind fun g' => g'.addSteps read steps' := by
  simp only [BuildGraph.addSteps, List.foldlM_append]
  rfl

/-- What `addSteps` stores. -/
theorem steps_addSteps (hadd : g.addSteps read steps = .ok g') :
    g'.steps = g.steps ++ steps.map (liveStep read) := by
  induction steps generalizing g with
  | nil =>
    obtain rfl : g = g' := Except.ok.inj hadd
    simp
  | cons st steps ih =>
    rw [addSteps_cons] at hadd
    cases hst : g.addStep read st with
    | error e => simp [hst, Except.bind] at hadd
    | ok g₁ =>
      rw [hst] at hadd
      rw [ih hadd, steps_addStep hst, List.map_cons, List.append_assoc, List.singleton_append]

/-- A step is accepted when its output has no producer yet. -/
theorem exists_addStep_iff (hg : g.WellFormed) :
    (∃ g', g.addStep read step = .ok g') ↔ ∀ st ∈ g.steps, st.output ≠ step.output := by
  have hok : (∃ g', g.addStep read step = .ok g') ↔
      g.stepIdOf (g.getOrCreateNode step.output).2 = none := by
    have hid := stepIdOf_getOrCreateNode (g := g) (p := step.output)
      (v := (g.getOrCreateNode step.output).2)
    simp only [addStep]
    split_ifs with hdup
    · have hsome : (g.stepIdOf (g.getOrCreateNode step.output).2).isSome := by
        rw [← hid]
        exact hdup
      simp [Option.isSome_iff_ne_none.mp hsome]
    · rw [← hid]
      simpa [stepIdOf] using hdup
  rw [hok]
  constructor
  · intro hnone st hst heq
    obtain ⟨k, hk⟩ := List.mem_iff_getElem?.mp hst
    obtain ⟨v, hv⟩ := hg.node_of_step k st hk
    obtain ⟨st', hst', hp⟩ := hg.step_of_node v k hv
    obtain rfl : st = st' := Option.some.inj (hk.symm.trans hst')
    have hfind := (hg.indexed _ v).mpr hp
    have hsame : (g.getOrCreateNode step.output).2 = v := by
      simp [getOrCreateNode, ← heq, hfind]
    simp [hsame, hv] at hnone
  · intro hnone
    by_contra hsome
    obtain ⟨k, hk⟩ := Option.ne_none_iff_exists'.mp hsome
    obtain ⟨st, hst, hp⟩ := hg.step_of_node _ k hk
    refine hnone st (List.mem_of_getElem? hst) (Option.some.inj (hp.symm.trans ?_))
    cases hf : g.findNode step.output with
    | some i =>
      rw [pathOf_getOrCreateNode_of_some hf]
      exact (hg.indexed _ i).mp hf
    | none =>
      -- a node that would be created is not produced
      have hid : (g.getOrCreateNode step.output).2 = g.nodes.length := by
        simp [getOrCreateNode, hf]
      simp [hid, stepIdOf] at hk

/-- Whether steps are accepted does not depend on the dependency files. -/
theorem exists_addSteps (hg : g.Built) (hg' : g'.Built)
    (hsteps : g.steps.map BuildStep.output = g'.steps.map BuildStep.output)
    (hnone : ∀ st ∈ steps, st.depfileInputs = none) (hadd : g.addSteps read steps = .ok h) :
    ∃ h', g'.addSteps read' steps = .ok h' := by
  induction steps generalizing g g' with
  | nil => exact ⟨g', rfl⟩
  | cons st steps ih =>
    rw [addSteps_cons] at hadd
    have hst := hnone st List.mem_cons_self
    cases hadd₁ : g.addStep read st with
    | error e => simp [hadd₁, Except.bind] at hadd
    | ok g₁ =>
      rw [hadd₁] at hadd
      -- a step is refused for its output only, and the outputs are the same
      have hnew : ∀ st' ∈ g'.steps, st'.output ≠ st.output := by
        have hold := (exists_addStep_iff hg.wellFormed).mp ⟨g₁, hadd₁⟩
        have hmem : st.output ∉ g.steps.map BuildStep.output := by simpa using hold
        simpa [hsteps] using hmem
      have hex : ∃ g₁', g'.addStep read' st = .ok g₁' :=
        (exists_addStep_iff hg'.wellFormed).mpr hnew
      obtain ⟨g₁', hadd₁'⟩ := hex
      rw [addSteps_cons, hadd₁']
      refine ih (hg.addStep hst hadd₁) (hg'.addStep hst hadd₁') ?_
        (fun st' hst' => hnone st' (List.mem_cons_of_mem _ hst')) hadd
      simp [steps_addStep hadd₁, steps_addStep hadd₁', hsteps]

/-- Finding the same prerequisites adds the same steps. -/
theorem addSteps_congr (g : BuildGraph)
    (hfound : ∀ st ∈ steps, depfilePrerequisites read st.splitInputs =
      depfilePrerequisites read' st.splitInputs) :
    g.addSteps read steps = g.addSteps read' steps := by
  induction steps generalizing g with
  | nil => rfl
  | cons st steps ih =>
    have hst : g.addStep read st = g.addStep read' st := by
      simp only [addStep, hfound st List.mem_cons_self]
    rw [addSteps_cons, addSteps_cons, hst]
    cases g.addStep read' st with
    | error e => rfl
    | ok g₁ => exact ih g₁ fun st' hst' => hfound st' (List.mem_cons_of_mem _ hst')

/-- The stored step tells which prerequisites were found. -/
theorem depfileInputs_liveStep (hnone : step.depfileInputs = none) :
    (liveStep read step).depfileInputs.getD [] = depfilePrerequisites read step.splitInputs := by
  have hdep := (splitInputs_frame step).2.2.2.1
  simp [liveStep, pushDepfileInputs, getD_foldl_pushBack, hdep, hnone]

/-- A step that is not compiled has no dependency file. -/
theorem depfilePrerequisites_of_not_isCompile (hno : step.isCompile = false) :
    depfilePrerequisites read step.splitInputs = [] := by
  have htool := (splitInputs_frame step).1
  simp [depfilePrerequisites, BuildStep.isCompile, htool] at hno ⊢
  simp [hno]

end BuildGraph

end Cob
